/-
  RootkeyCrypto.Core.Crockford — `share.rs`: Crockford's base32 without padding
  (`crockford_encode`, `crockford_decode`).

  Both loops keep the bits read and not yet written in the low `bits` bits of the `u32`
  `buf`, which is never masked: what was written stays above them until it is shifted out.
  `Encoding` and `Decoding` are the invariants: the bits written, then the low bits of
  `buf`, are the bits read.

  A letter is a digit below 32 (`letter`). The encoder writes the digits whose bits are
  those of the bytes and fewer than 5 zeros (`crockfordEncode_digits`); the decoder accepts
  the digits whose bits are those of the bytes and fewer than 8 zeros
  (`crockfordDecode_digits`). For 37 bytes that is one text (`crockfordDecode_iff`).
-/

import RootkeyCrypto.Core.Kdf
import RootkeyCrypto.Lib.Bits
import RootkeyCrypto.Lib.Text

namespace RootkeyCrypto

open Lib

def crockfordAlphabet : List Char := "0123456789ABCDEFGHJKMNPQRSTVWXYZ".toList

/-- The accumulator and what is written. -/
structure Regroup (α : Type) where
  buf : UInt32
  bits : UInt32
  out : List α

def crockfordChar (idx : UInt32) : Char := crockfordAlphabet.getD idx.toNat '0'

/-- `while bits >= 5`; the fuel is `bits`. -/
def encodeDrain : Nat → Regroup Char → Regroup Char
  | 0, st => st
  | fuel + 1, st =>
    if 5 ≤ st.bits then
      let bits := st.bits - 5
      encodeDrain fuel { buf := st.buf, bits := bits, out := st.out ++ [crockfordChar ((st.buf >>> bits) &&& 0x1F)] }
    else st

def encodeByte (st : Regroup Char) (b : UInt8) : Regroup Char :=
  let bits := st.bits + 8
  encodeDrain bits.toNat { buf := (st.buf <<< 8) ||| b.toUInt32, bits := bits, out := st.out }

def crockfordEncode (input : List UInt8) : String :=
  let st := input.foldl encodeByte { buf := 0, bits := 0, out := [] }
  if 0 < st.bits then String.ofList (st.out ++ [crockfordChar ((st.buf <<< (5 - st.bits)) &&& 0x1F)])
  else String.ofList st.out

/-- The inverse of the alphabet; `0xFF` is no letter. -/
def crockfordTable : List UInt8 :=
  crockfordAlphabet.zipIdx.foldl (fun table ci => table.set ci.1.toNat (UInt8.ofNat ci.2)) (List.replicate 256 0xFF)

def decodeByte (st : Regroup UInt8) (c : UInt8) : Option (Regroup UInt8) :=
  let v := crockfordTable.getD c.toNat 0xFF
  if v = 0xFF then none
  else
    let buf := (st.buf <<< 5) ||| v.toUInt32
    let bits := st.bits + 5
    if 8 ≤ bits then
      some { buf := buf, bits := bits - 8, out := st.out ++ [((buf >>> (bits - 8)) &&& 0xFF).toUInt8] }
    else some { buf := buf, bits := bits, out := st.out }

def crockfordDecode (input : String) : Option (List UInt8) := do
  let st ← (asBytes input).foldlM decodeByte { buf := 0, bits := 0, out := [] }
  if 0 < st.bits ∧ st.buf &&& ((1 <<< st.bits) - 1) ≠ 0 then none else some st.out

/-! ## The words -/

theorem toNat_push {buf d w : UInt32} (hw : w.toNat < 32) :
    ((buf <<< w) ||| d).toNat = buf.toNat <<< w.toNat % 2 ^ 32 ||| d.toNat := by
  rw [UInt32.toNat_or, UInt32.toNat_shiftLeft, Nat.mod_eq_of_lt hw]

theorem toNat_take {buf n mask : UInt32} {w : Nat} (hn : n.toNat < 32) (hm : mask.toNat = 2 ^ w - 1) :
    ((buf >>> n) &&& mask).toNat = (buf.toNat >>> n.toNat) % 2 ^ w := by
  rw [UInt32.toNat_and, UInt32.toNat_shiftRight, Nat.mod_eq_of_lt hn, hm, Nat.and_two_pow_sub_one_eq_mod]

/-- A count of bits does not wrap. -/
theorem toNat_count {n k : UInt32} (hn : n.toNat < 32) (hk : k.toNat < 32) : (n + k).toNat = n.toNat + k.toNat := by
  rw [UInt32.toNat_add]
  exact Nat.mod_eq_of_lt (by omega)

theorem toNat_one_shl {n : UInt32} (hn : n.toNat < 32) : ((1 : UInt32) <<< n).toNat = 2 ^ n.toNat := by
  have hlt : 2 ^ n.toNat < 2 ^ 32 := Nat.pow_lt_pow_right (by decide) hn
  rw [UInt32.toNat_shiftLeft, Nat.mod_eq_of_lt hn]
  show 1 <<< n.toNat % 2 ^ 32 = _
  rw [Nat.one_shiftLeft, Nat.mod_eq_of_lt hlt]

theorem toNat_low {buf n : UInt32} (hn : n.toNat < 32) :
    (buf &&& ((1 <<< n) - 1)).toNat = buf.toNat % 2 ^ n.toNat := by
  have hle : (1 : UInt32) ≤ 1 <<< n := by
    rw [UInt32.le_iff_toNat_le, toNat_one_shl hn]
    exact Nat.one_le_two_pow
  rw [UInt32.toNat_and, UInt32.toNat_sub_of_le _ _ hle, toNat_one_shl hn]
  exact Nat.and_two_pow_sub_one_eq_mod _ _

/-- The decoder's last check: no bit that is left is set. -/
theorem low_zero {buf n : UInt32} (hn : n.toNat < 32) :
    ¬ (0 < n ∧ buf &&& ((1 <<< n) - 1) ≠ 0) ↔ bitsOf n.toNat buf.toNat = List.replicate n.toNat false := by
  have hmask : buf &&& ((1 <<< n) - 1) = 0 ↔ bitsOf n.toNat buf.toNat = List.replicate n.toNat false := by
    rw [bitsOf_eq_zero, ← toNat_low hn, ← UInt32.toNat_zero, UInt32.toNat_inj]
  rw [← hmask]
  constructor
  · intro h
    by_cases h0 : 0 < n
    · exact Classical.not_not.mp fun hne => h ⟨h0, hne⟩
    · rw [UInt32.lt_iff_toNat_lt] at h0
      rw [hmask, Nat.eq_zero_of_not_pos h0]
      rfl
  · intro h hand
    exact hand.2 h

/-! ## Letters and digits -/

/-- The letter of a digit. -/
def letter (d : Nat) : Char := crockfordAlphabet.getD d '0'

/-- A letter is ASCII, and the table takes it back to its digit. -/
theorem letter_spec {d : Nat} (hd : d < 32) :
    (letter d).toNat < 128 ∧ crockfordTable.getD (letter d).toNat 0xFF = UInt8.ofNat d := by
  have h : ∀ d < 32, (letter d).toNat < 128 ∧ crockfordTable.getD (letter d).toNat 0xFF = UInt8.ofNat d := by
    decide +kernel
  exact h d hd

/-- A digit is a byte, and not the one of the table's other entries. -/
theorem digit_byte {d : Nat} (hd : d < 32) : (UInt8.ofNat d).toNat = d ∧ UInt8.ofNat d ≠ 0xFF := by
  have hv : (UInt8.ofNat d).toNat = d := by
    rw [UInt8.toNat_ofNat']
    omega
  refine ⟨hv, ?_⟩
  intro he
  have hd' := congrArg UInt8.toNat he
  rw [hv] at hd'
  change d = 255 at hd'
  omega

/-- The byte of a letter is read as its digit. -/
theorem letter_read {d : Nat} (hd : d < 32) :
    crockfordTable.getD (UInt8.ofNat (letter d).toNat).toNat 0xFF = UInt8.ofNat d := by
  obtain ⟨hascii, htable⟩ := letter_spec hd
  have hc : (UInt8.ofNat (letter d).toNat).toNat = (letter d).toNat := by
    rw [UInt8.toNat_ofNat']
    omega
  rw [hc, htable]

/-- Every other entry of the table says so. -/
theorem table_spec (c : UInt8) : crockfordTable.getD c.toNat 0xFF = 0xFF ∨
    ∃ d, d < 32 ∧ crockfordTable.getD c.toNat 0xFF = UInt8.ofNat d ∧ (letter d).toNat = c.toNat := by
  have h : ∀ vi ∈ crockfordTable.zipIdx, vi.1 = 0xFF ∨ vi.1.toNat < 32 ∧ (letter vi.1.toNat).toNat = vi.2 := by
    decide +kernel
  by_cases hlt : c.toNat < crockfordTable.length
  · rw [List.getD_eq_getElem _ _ hlt]
    have hmem : (crockfordTable[c.toNat], c.toNat) ∈ crockfordTable.zipIdx :=
      List.mk_mem_zipIdx_iff_getElem?.mpr (List.getElem?_eq_getElem hlt)
    rcases h _ hmem with h | ⟨hd, hc⟩
    · exact Or.inl h
    · exact Or.inr ⟨_, hd, (UInt8.ofNat_toNat).symm, hc⟩
  · exact Or.inl (List.getD_eq_default _ _ (Nat.le_of_not_lt hlt))

/-- A text of letters has one byte a letter. -/
theorem asBytes_letter {ds : List Nat} (h : ∀ d ∈ ds, d < 32) :
    asBytes (String.ofList (ds.map letter)) = ds.map fun d => UInt8.ofNat (letter d).toNat := by
  unfold asBytes
  rw [String.toList_ofList]
  induction ds with
  | nil => rfl
  | cons d ds ih =>
    rw [List.forall_mem_cons] at h
    rw [List.map_cons, List.flatMap_cons, utf8_ascii (letter_spec h.1).1, ih h.2]
    rfl

/-! ## Encoding -/

/-- The letters written and the low bits of `buf` are the bits read. -/
def Encoding (st : Regroup Char) (read : List Bool) : Prop :=
  ∃ ds : List Nat, (∀ d ∈ ds, d < 32) ∧ st.out = ds.map letter ∧
    Lib.bits 5 ds ++ bitsOf st.bits.toNat st.buf.toNat = read

/-- One letter is written: its bits leave the accumulator. -/
theorem Encoding.write {st : Regroup Char} {read : List Bool} (h : Encoding st read) (h5 : 5 ≤ st.bits)
    (h12 : st.bits.toNat ≤ 12) :
    Encoding { buf := st.buf, bits := st.bits - 5,
               out := st.out ++ [crockfordChar ((st.buf >>> (st.bits - 5)) &&& 0x1F)] } read := by
  obtain ⟨ds, hds, hout, hread⟩ := h
  have hbits : (st.bits - 5).toNat = st.bits.toNat - 5 := UInt32.toNat_sub_of_le _ _ h5
  have hle : 5 ≤ st.bits.toNat := UInt32.le_iff_toNat_le.mp h5
  have hidx : ((st.buf >>> (st.bits - 5)) &&& 0x1F).toNat = (st.buf.toNat >>> (st.bits.toNat - 5)) % 2 ^ 5 := by
    have hmask : (0x1F : UInt32).toNat = 2 ^ 5 - 1 := rfl
    rw [toNat_take (by omega) hmask, hbits]
  refine ⟨ds ++ [(st.buf.toNat >>> (st.bits.toNat - 5)) % 2 ^ 5], ?_, ?_, ?_⟩
  · intro d hd
    rcases List.mem_append.mp hd with hd | hd
    · exact hds d hd
    · rw [List.mem_singleton.mp hd]
      exact Nat.mod_lt _ (by decide)
  · rw [List.map_append, ← hout, ← hidx]
    rfl
  · have hsplit := bitsOf_take 5 (st.bits.toNat - 5) st.buf.toNat
    rw [Nat.add_sub_of_le hle] at hsplit
    rw [← hread, hsplit, bits_append, hbits, List.append_assoc, bits_cons, bits_nil, List.append_nil]

theorem Encoding.drain {fuel : Nat} {st : Regroup Char} {read : List Bool} (h : Encoding st read)
    (hf : st.bits.toNat ≤ fuel) (h12 : st.bits.toNat ≤ 12) :
    Encoding (encodeDrain fuel st) read ∧ (encodeDrain fuel st).bits.toNat < 5 := by
  induction fuel generalizing st with
  | zero => exact ⟨h, by rw [encodeDrain]; omega⟩
  | succ fuel ih =>
    rw [encodeDrain]
    split
    · rename_i h5
      have hbits : (st.bits - 5).toNat = st.bits.toNat - 5 := UInt32.toNat_sub_of_le _ _ h5
      have hle : 5 ≤ st.bits.toNat := UInt32.le_iff_toNat_le.mp h5
      refine ih (h.write h5 h12) ?_ ?_
      · show (st.bits - 5).toNat ≤ fuel
        omega
      · show (st.bits - 5).toNat ≤ 12
        omega
    · rename_i h5
      rw [UInt32.le_iff_toNat_le] at h5
      exact ⟨h, Nat.lt_of_not_le h5⟩

theorem Encoding.byte {st : Regroup Char} {read : List Bool} (h : Encoding st read) (hlt : st.bits.toNat < 5)
    (b : UInt8) : Encoding (encodeByte st b) (read ++ bitsOf 8 b.toNat) ∧ (encodeByte st b).bits.toNat < 5 := by
  have hbits : (st.bits + 8).toNat = st.bits.toNat + 8 := toNat_count (by omega) (by decide)
  refine Encoding.drain ?_ (Nat.le_refl _) ?_
  · obtain ⟨ds, hds, hout, hread⟩ := h
    refine ⟨ds, hds, hout, ?_⟩
    show Lib.bits 5 ds ++ bitsOf (st.bits + 8).toNat ((st.buf <<< 8) ||| b.toUInt32).toNat = _
    rw [hbits, toNat_push (by decide), UInt8.toNat_toUInt32, ← hread, List.append_assoc]
    show _ ++ bitsOf (st.bits.toNat + 8) (st.buf.toNat <<< 8 % 2 ^ 32 ||| b.toNat) = _
    rw [bitsOf_push b.toNat_lt (by omega)]
  · show (st.bits + 8).toNat ≤ 12
    omega

theorem Encoding.run {input : List UInt8} {st : Regroup Char} {read : List Bool} (h : Encoding st read)
    (hlt : st.bits.toNat < 5) : Encoding (input.foldl encodeByte st) (read ++ Lib.bits 8 (input.map UInt8.toNat)) ∧
      (input.foldl encodeByte st).bits.toNat < 5 := by
  induction input generalizing st read with
  | nil =>
    rw [List.map_nil, bits_nil, List.append_nil]
    exact ⟨h, hlt⟩
  | cons b bs ih =>
    obtain ⟨hb, hlt'⟩ := h.byte hlt b
    rw [List.map_cons, bits_cons, ← List.append_assoc]
    exact ih hb hlt'

/-- The encoder writes the bits of the bytes and fewer than 5 zeros. -/
theorem crockfordEncode_digits (b : List UInt8) : ∃ (ds : List Nat) (r : Nat), (∀ d ∈ ds, d < 32) ∧ r < 5 ∧
    crockfordEncode b = String.ofList (ds.map letter) ∧
    Lib.bits 5 ds = Lib.bits 8 (b.map UInt8.toNat) ++ List.replicate r false := by
  have hstart : Encoding { buf := 0, bits := 0, out := [] } [] := ⟨[], by simp, rfl, rfl⟩
  obtain ⟨⟨ds, hds, hout, hread⟩, hlt⟩ := @Encoding.run b _ _ hstart (by decide)
  unfold crockfordEncode
  generalize b.foldl encodeByte { buf := 0, bits := 0, out := [] } = st at hout hread hlt
  rw [List.nil_append] at hread
  simp only
  by_cases h0 : 0 < st.bits
  · -- The last letter: what is left in the accumulator, shifted up.
    have hle : 0 < st.bits.toNat := UInt32.lt_iff_toNat_lt.mp h0
    have hsub : (5 - st.bits).toNat = 5 - st.bits.toNat :=
      UInt32.toNat_sub_of_le _ _ (UInt32.le_iff_toNat_le.mpr (Nat.le_of_lt hlt))
    refine ⟨ds ++ [(st.buf <<< (5 - st.bits) &&& 0x1F).toNat], 5 - st.bits.toNat, ?_, by omega, ?_, ?_⟩
    · intro d hd
      rcases List.mem_append.mp hd with hd | hd
      · exact hds d hd
      · rw [List.mem_singleton.mp hd, UInt32.toNat_and]
        exact Nat.lt_succ_of_le Nat.and_le_right
    · rw [if_pos h0, List.map_append, hout]
      rfl
    · have hpush := @bitsOf_push 32 st.bits.toNat (5 - st.bits.toNat) st.buf.toNat 0 (Nat.two_pow_pos _) (by omega)
      rw [Nat.add_sub_of_le (Nat.le_of_lt hlt), Nat.or_zero, bitsOf_zero] at hpush
      have hlast : (st.buf <<< (5 - st.bits) &&& 0x1F).toNat =
          (st.buf.toNat <<< (5 - st.bits.toNat) % 2 ^ 32) % 2 ^ 5 := by
        have hsh : (5 - st.bits.toNat) % 32 = 5 - st.bits.toNat := Nat.mod_eq_of_lt (by omega)
        rw [UInt32.toNat_and, UInt32.toNat_shiftLeft, hsub, hsh]
        exact Nat.and_two_pow_sub_one_eq_mod _ 5
      rw [bits_append, bits_cons, bits_nil, List.append_nil, hlast, bitsOf_mod, hpush, ← List.append_assoc, hread]
  · rw [UInt32.lt_iff_toNat_lt] at h0
    have h0' : st.bits.toNat = 0 := Nat.eq_zero_of_not_pos h0
    refine ⟨ds, 0, hds, by decide, ?_, ?_⟩
    · rw [if_neg (by rw [UInt32.lt_iff_toNat_lt]; exact h0), hout]
    · rw [h0', bitsOf, List.append_nil] at hread
      rw [hread]
      exact (List.append_nil _).symm

/-! ## Decoding -/

/-- The bytes written and the low bits of `buf` are the bits of the letters read. -/
def Decoding (st : Regroup UInt8) (ds : List Nat) : Prop :=
  Lib.bits 8 (st.out.map UInt8.toNat) ++ bitsOf st.bits.toNat st.buf.toNat = Lib.bits 5 ds ∧ st.bits.toNat < 8

/-- The letter's bits are pushed. -/
theorem push_digit {buf n : UInt32} {d : Nat} (hd : d < 32) (hn : n.toNat < 8) : (n + 5).toNat = n.toNat + 5 ∧
    bitsOf (n + 5).toNat ((buf <<< 5) ||| (UInt8.ofNat d).toUInt32).toNat = bitsOf n.toNat buf.toNat ++ bitsOf 5 d := by
  have hbits : (n + 5).toNat = n.toNat + 5 := toNat_count (by omega) (by decide)
  refine ⟨hbits, ?_⟩
  rw [hbits, toNat_push (by decide), UInt8.toNat_toUInt32, (digit_byte hd).1]
  exact bitsOf_push hd (by omega)

/-- One byte is written: its bits leave the accumulator. -/
theorem write_byte {buf n : UInt32} (h8 : 8 ≤ n) (hn : n.toNat < 16) : (n - 8).toNat = n.toNat - 8 ∧
    bitsOf n.toNat buf.toNat =
      bitsOf 8 ((buf >>> (n - 8)) &&& 0xFF).toUInt8.toNat ++ bitsOf (n - 8).toNat buf.toNat := by
  have hbits : (n - 8).toNat = n.toNat - 8 := UInt32.toNat_sub_of_le _ _ h8
  have hle : 8 ≤ n.toNat := UInt32.le_iff_toNat_le.mp h8
  have hmask : (0xFF : UInt32).toNat = 2 ^ 8 - 1 := rfl
  refine ⟨hbits, ?_⟩
  have hsplit := bitsOf_take 8 (n.toNat - 8) buf.toNat
  rw [Nat.add_sub_of_le hle] at hsplit
  rw [UInt32.toNat_toUInt8, toNat_take (by omega) hmask, hbits, Nat.mod_mod, hsplit]

/-- A letter is read; a byte is written when 8 bits are there. -/
theorem Decoding.byte {st : Regroup UInt8} {ds : List Nat} {d : Nat} (h : Decoding st ds) (hd : d < 32) :
    ∃ st', decodeByte st (UInt8.ofNat (letter d).toNat) = some st' ∧ Decoding st' (ds ++ [d]) := by
  obtain ⟨hread, hlt⟩ := h
  obtain ⟨hbits, hpush⟩ := @push_digit st.buf _ _ hd hlt
  unfold decodeByte
  simp only [letter_read hd]
  rw [if_neg (digit_byte hd).2]
  by_cases h8 : 8 ≤ st.bits + 5
  · obtain ⟨hsub, hwrite⟩ :=
      @write_byte ((st.buf <<< 5) ||| (UInt8.ofNat d).toUInt32) _ h8 (by omega)
    rw [if_pos h8]
    refine ⟨_, rfl, ?_, ?_⟩
    · simp only [List.map_append, List.map_cons, List.map_nil, bits_append, bits_cons, bits_nil, List.append_nil]
      rw [List.append_assoc, ← hwrite, hpush, ← List.append_assoc, hread]
    · show (st.bits + 5 - 8).toNat < 8
      omega
  · rw [if_neg h8]
    rw [UInt32.le_iff_toNat_le] at h8
    refine ⟨_, rfl, ?_, ?_⟩
    · simp only [bits_append, bits_cons, bits_nil, List.append_nil]
      rw [hpush, ← List.append_assoc, hread]
    · exact Nat.lt_of_not_le h8

theorem Decoding.run {ds : List Nat} {st : Regroup UInt8} {ds₀ : List Nat} (h : Decoding st ds₀) (hds : ∀ d ∈ ds, d < 32) :
    ∃ st', (ds.map fun d => UInt8.ofNat (letter d).toNat).foldlM decodeByte st = some st' ∧
      Decoding st' (ds₀ ++ ds) := by
  induction ds generalizing st ds₀ with
  | nil => exact ⟨st, rfl, by rw [List.append_nil]; exact h⟩
  | cons d ds ih =>
    rw [List.forall_mem_cons] at hds
    obtain ⟨st₁, hst₁, h₁⟩ := h.byte hds.1
    obtain ⟨st', hst', h'⟩ := ih h₁ hds.2
    refine ⟨st', ?_, ?_⟩
    · rw [List.map_cons, List.foldlM_cons, hst₁]
      exact hst'
    · rw [List.append_assoc] at h'
      exact h'

/-- The decoder reads letters only. -/
theorem decode_letters {bs : List UInt8} {st st' : Regroup UInt8} (h : bs.foldlM decodeByte st = some st') :
    ∃ ds : List Nat, (∀ d ∈ ds, d < 32) ∧ bs = ds.map fun d => UInt8.ofNat (letter d).toNat := by
  induction bs generalizing st with
  | nil => exact ⟨[], by simp, rfl⟩
  | cons c cs ih =>
    rw [List.foldlM_cons] at h
    obtain ⟨st₁, hst₁, h⟩ := Option.bind_eq_some_iff.mp h
    obtain ⟨ds, hds, rfl⟩ := ih h
    rcases table_spec c with hno | ⟨d, hd, -, hc⟩
    · unfold decodeByte at hst₁
      simp only [hno] at hst₁
      cases hst₁
    · refine ⟨d :: ds, List.forall_mem_cons.mpr ⟨hd, hds⟩, ?_⟩
      rw [List.map_cons, hc, UInt8.ofNat_toNat]

/-- The decoder accepts the bits of the bytes and fewer than 8 zeros. -/
theorem crockfordDecode_digits {s : String} {b : List UInt8} : crockfordDecode s = some b ↔
    ∃ (ds : List Nat) (r : Nat), (∀ d ∈ ds, d < 32) ∧ r < 8 ∧ s = String.ofList (ds.map letter) ∧
      Lib.bits 5 ds = Lib.bits 8 (b.map UInt8.toNat) ++ List.replicate r false := by
  have hstart : Decoding { buf := 0, bits := 0, out := [] } [] := ⟨rfl, by decide⟩
  constructor
  · intro h
    obtain ⟨st, hst, h⟩ := Option.bind_eq_some_iff.mp h
    obtain ⟨ds, hds, hs⟩ := decode_letters hst
    obtain ⟨st', hst', hread, hlt⟩ := hstart.run hds
    rw [hs, hst', Option.some.injEq] at hst
    rw [hst, List.nil_append] at hread
    rw [hst] at hlt
    rw [← asBytes_letter hds] at hs
    refine ⟨ds, st.bits.toNat, hds, hlt, asBytes_inj.mp hs, ?_⟩
    split at h
    · cases h
    · rename_i hzero
      cases h
      rw [← hread, List.append_cancel_left_eq]
      exact (low_zero (by omega)).mp hzero
  · intro h
    obtain ⟨ds, r, hds, hr, rfl, hbits⟩ := h
    obtain ⟨st, hst, hread, hlt⟩ := hstart.run hds
    rw [List.nil_append, hbits] at hread
    -- The same number of bytes, as what is left of either is less than one.
    have hlen := congrArg List.length hread
    simp only [List.length_append, length_bits, length_bitsOf, List.length_replicate, List.length_map] at hlen
    have hr' : st.bits.toNat = r := by omega
    obtain ⟨hout, hzero⟩ := List.append_inj hread (by simp only [length_bits, List.length_map]; omega)
    unfold crockfordDecode
    rw [asBytes_letter hds, hst]
    show (if 0 < st.bits ∧ st.buf &&& ((1 <<< st.bits) - 1) ≠ 0 then none else some st.out) = some b
    rw [← hr'] at hzero
    rw [if_neg ((low_zero (by omega)).mpr hzero), bytes_inj hout]

/-! ## The accepted texts -/

/-- The letters of `n` bytes: 8 bits a byte, 5 a letter, rounded up. -/
def letterCount (n : Nat) : Nat := (8 * n + 4) / 5

/-- The zeros after the last byte. -/
def slack (n : Nat) : Nat := 5 * letterCount n - 8 * n

theorem encode_letters (b : List UInt8) : ∃ ds : List Nat, (∀ d ∈ ds, d < 32) ∧ ds.length = letterCount b.length ∧
    crockfordEncode b = String.ofList (ds.map letter) ∧
    Lib.bits 5 ds = Lib.bits 8 (b.map UInt8.toNat) ++ List.replicate (slack b.length) false := by
  obtain ⟨ds, r, hds, hr, henc, hbits⟩ := crockfordEncode_digits b
  have hlen := congrArg List.length hbits
  simp only [List.length_append, length_bits, List.length_replicate, List.length_map] at hlen
  have hn : ds.length = letterCount b.length := by
    unfold letterCount
    omega
  have hslack : r = slack b.length := by
    unfold slack
    omega
  exact ⟨ds, hds, hn, henc, hslack ▸ hbits⟩

theorem length_crockfordEncode (b : List UInt8) : (crockfordEncode b).toList.length = (8 * b.length + 4) / 5 := by
  obtain ⟨ds, -, hn, henc, -⟩ := encode_letters b
  rw [henc, String.toList_ofList, List.length_map, hn, letterCount]

/-- A text is accepted as the letters of the bytes, and where these leave room for 5 zeros
    more also with one 0 after them. -/
theorem crockfordDecode_some {s : String} {b : List UInt8} : crockfordDecode s = some b ↔
    s = crockfordEncode b ∨ s = crockfordEncode b ++ "0" ∧ slack b.length ≤ 2 := by
  obtain ⟨ds, hds, hn, henc, hbits⟩ := encode_letters b
  have hfive : slack b.length < 5 := by
    unfold slack letterCount
    omega
  have hzero : Lib.bits 5 (ds ++ [0]) = Lib.bits 8 (b.map UInt8.toNat) ++ List.replicate (slack b.length + 5) false := by
    rw [bits_append, hbits, List.replicate_add, List.append_assoc]
    rfl
  have hmore : ∀ d ∈ ds ++ [0], d < 32 := by
    intro d hd
    rcases List.mem_append.mp hd with hd | hd
    · exact hds d hd
    · rw [List.mem_singleton.mp hd]
      decide
  have htext : String.ofList ((ds ++ [0]).map letter) = crockfordEncode b ++ "0" := by
    rw [List.map_append, String.ofList_append, henc]
    rfl
  rw [crockfordDecode_digits]
  constructor
  · intro h
    obtain ⟨ds', r, hds', hr, rfl, hbits'⟩ := h
    have hlen := congrArg List.length hbits
    have hlen' := congrArg List.length hbits'
    simp only [List.length_append, length_bits, List.length_replicate, List.length_map] at hlen hlen'
    -- Modulo 5 there are two numbers of zeros below 8 at most.
    have hr' : r = slack b.length ∨ r = slack b.length + 5 := by omega
    rcases hr' with rfl | rfl
    · rw [← hbits] at hbits'
      rw [bits_inj (by decide) hds' hds hbits', henc]
      exact Or.inl rfl
    · rw [← hzero] at hbits'
      rw [bits_inj (by decide) hds' hmore hbits', htext]
      exact Or.inr ⟨rfl, by omega⟩
  · rintro (rfl | ⟨rfl, hroom⟩)
    · exact ⟨ds, _, hds, by omega, henc, hbits⟩
    · exact ⟨ds ++ [0], _, hmore, by omega, htext.symm, hzero⟩

/-- With more than 2 zeros after the bytes there is no room for one more letter. -/
theorem crockfordDecode_iff {s : String} {b : List UInt8} (hb : 2 < 2 * b.length % 5) :
    crockfordDecode s = some b ↔ s = crockfordEncode b := by
  have hmod : 2 * b.length % 5 = 3 ∨ 2 * b.length % 5 = 4 := by omega
  have hfull : ¬ slack b.length ≤ 2 := by
    unfold slack letterCount
    rcases hmod with h | h <;> omega
  rw [crockfordDecode_some]
  exact ⟨fun h => h.resolve_right fun h => hfull h.2, Or.inl⟩

end RootkeyCrypto
