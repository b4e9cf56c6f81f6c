/-
  RootkeyCrypto.Share.Base32 — `share.rs`: which texts are base32, and that no step of
  either direction can fail.

  The two loops of `Core.Crockford` again, with every shift, sum, difference and index
  checked: `none` is a shift by 32 or more, a sum or difference out of range, an index past
  the end of a table, or a `while` still running when its fuel is spent. An outer `some` is
  then a run in which nothing of that happened. That `bits` stays below 5 between two bytes,
  and below 8 between two letters, is what keeps every amount small; `buf` is never masked
  and may hold anything.

  Proved, over every byte string and every text:
  - `encodeChecked_eq`, `decodeChecked_eq`: the checked loops have a result, and it is that
    of the loops as they are.
  - `crockford_language`: a byte string is written with the letters its bits need, read back
    as itself, and the texts read as it are these letters, with one 0 more where at most 2
    of the last letter's bits are to spare.
-/

import RootkeyCrypto.Core.Crockford
import RootkeyCrypto.Lib.Checked

namespace RootkeyCrypto.Base32

open Lib

/-! ## The loops, checked -/

def encodeDrainChecked : Nat → Regroup Char → Option (Regroup Char)
  | 0, st => if 5 ≤ st.bits then none else some st
  | fuel + 1, st =>
    if 5 ≤ st.bits then do
      let bits ← checkedSub st.bits 5
      let shifted ← checkedShr st.buf bits
      let c ← crockfordAlphabet[(shifted &&& 0x1F).toNat]?
      encodeDrainChecked fuel { buf := st.buf, bits := bits, out := st.out ++ [c] }
    else some st

def encodeByteChecked (st : Regroup Char) (b : UInt8) : Option (Regroup Char) := do
  let shifted ← checkedShl st.buf 8
  let bits ← checkedAdd st.bits 8
  encodeDrainChecked bits.toNat { buf := shifted ||| b.toUInt32, bits := bits, out := st.out }

def encodeChecked (input : List UInt8) : Option String := do
  let st ← input.foldlM encodeByteChecked { buf := 0, bits := 0, out := [] }
  if 0 < st.bits then do
    let n ← checkedSub 5 st.bits
    let shifted ← checkedShl st.buf n
    let c ← crockfordAlphabet[(shifted &&& 0x1F).toNat]?
    some (String.ofList (st.out ++ [c]))
  else some (String.ofList st.out)

/-- `table[c as usize] = i as u8`. -/
def setChecked (table : List UInt8) (ci : Char × Nat) : Option (List UInt8) :=
  if ci.1.toNat < table.length then some (table.set ci.1.toNat (UInt8.ofNat ci.2)) else none

def tableChecked : Option (List UInt8) := crockfordAlphabet.zipIdx.foldlM setChecked (List.replicate 256 0xFF)

/-- The inner `none` is a byte that is no letter. -/
def decodeByteChecked (table : List UInt8) (st : Regroup UInt8) (c : UInt8) : Option (Option (Regroup UInt8)) := do
  let v ← table[c.toNat]?
  if v = 0xFF then some none
  else
    let shifted ← checkedShl st.buf 5
    let buf := shifted ||| v.toUInt32
    let bits ← checkedAdd st.bits 5
    if 8 ≤ bits then do
      let bits ← checkedSub bits 8
      let shifted ← checkedShr buf bits
      some (some { buf := buf, bits := bits, out := st.out ++ [(shifted &&& 0xFF).toUInt8] })
    else some (some { buf := buf, bits := bits, out := st.out })

def decodeBytesChecked (table : List UInt8) : List UInt8 → Regroup UInt8 → Option (Option (Regroup UInt8))
  | [], st => some (some st)
  | c :: cs, st => do
    let r ← decodeByteChecked table st c
    match r with
    | none => some none
    | some st => decodeBytesChecked table cs st

/-- The last check: the mask is built where bits are left. -/
def finishChecked (st : Regroup UInt8) : Option (Option (List UInt8)) :=
  if 0 < st.bits then do
    let one ← checkedShl 1 st.bits
    let mask ← checkedSub one 1
    if st.buf &&& mask ≠ 0 then some none else some (some st.out)
  else some (some st.out)

def decodeChecked (input : String) : Option (Option (List UInt8)) := do
  let table ← tableChecked
  let r ← decodeBytesChecked table (asBytes input) { buf := 0, bits := 0, out := [] }
  match r with
  | none => some none
  | some st => finishChecked st

/-! ## Encoding never fails -/

theorem alphabet_get (x : UInt32) : crockfordAlphabet[(x &&& 0x1F).toNat]? = some (crockfordChar (x &&& 0x1F)) := by
  have hlt : (x &&& 0x1F).toNat < crockfordAlphabet.length := by
    rw [UInt32.toNat_and]
    exact Nat.lt_succ_of_le Nat.and_le_right
  rw [List.getElem?_eq_getElem hlt, crockfordChar, List.getD_eq_getElem _ _ hlt]

theorem encodeDrainChecked_eq {fuel : Nat} {st : Regroup Char} (hf : st.bits.toNat ≤ fuel) (h12 : st.bits.toNat ≤ 12) :
    encodeDrainChecked fuel st = some (encodeDrain fuel st) := by
  induction fuel generalizing st with
  | zero =>
    have h5 : ¬ 5 ≤ st.bits := by
      rw [UInt32.le_iff_toNat_le]
      show ¬ 5 ≤ st.bits.toNat
      omega
    rw [encodeDrainChecked, encodeDrain, if_neg h5]
  | succ fuel ih =>
    rw [encodeDrainChecked, encodeDrain]
    by_cases h5 : 5 ≤ st.bits
    · have hle : 5 ≤ st.bits.toNat := UInt32.le_iff_toNat_le.mp h5
      have hbits : (st.bits - 5).toNat = st.bits.toNat - 5 := UInt32.toNat_sub_of_le _ _ h5
      have hsub : checkedSub st.bits 5 = some (st.bits - 5) := checkedSub_some hle
      have hshr : checkedShr st.buf (st.bits - 5) = some (st.buf >>> (st.bits - 5)) := checkedShr_some (by omega)
      rw [if_pos h5, if_pos h5]
      simp only [hsub, hshr, alphabet_get, Option.bind_eq_bind, Option.bind_some]
      refine ih ?_ ?_
      · show (st.bits - 5).toNat ≤ fuel
        omega
      · show (st.bits - 5).toNat ≤ 12
        omega
    · rw [if_neg h5, if_neg h5]

/-- Between two bytes: the letters written are those of the bytes read, with fewer than 5
    bits left. -/
def Between (st : Regroup Char) : Prop := (∃ read, Encoding st read) ∧ st.bits.toNat < 5

theorem encodeByteChecked_eq (st : Regroup Char) (b : UInt8) (h : Between st) :
    encodeByteChecked st b = some (encodeByte st b) ∧ Between (encodeByte st b) := by
  obtain ⟨⟨read, henc⟩, hlt⟩ := h
  obtain ⟨henc', hlt'⟩ := henc.byte hlt b
  refine ⟨?_, ⟨_, henc'⟩, hlt'⟩
  have hshl : checkedShl st.buf 8 = some (st.buf <<< 8) := checkedShl_some (by decide)
  have hadd : checkedAdd st.bits 8 = some (st.bits + 8) := checkedAdd_some (by omega) (by decide)
  have hbits : (st.bits + 8).toNat = st.bits.toNat + 8 := toNat_count (by omega) (by decide)
  unfold encodeByteChecked encodeByte
  simp only [hshl, hadd, Option.bind_eq_bind, Option.bind_some]
  refine encodeDrainChecked_eq (Nat.le_refl _) ?_
  show (st.bits + 8).toNat ≤ 12
  omega

theorem encodeChecked_eq (b : List UInt8) : encodeChecked b = some (crockfordEncode b) := by
  have hstart : Between { buf := 0, bits := 0, out := [] } := ⟨⟨[], [], by simp, rfl, rfl⟩, by decide⟩
  obtain ⟨hrun, -, hlt⟩ := foldlM_total encodeByteChecked_eq b hstart
  unfold encodeChecked crockfordEncode
  rw [hrun, Option.bind_eq_bind, Option.bind_some]
  generalize b.foldl encodeByte { buf := 0, bits := 0, out := [] } = st at hlt
  simp only
  by_cases h0 : 0 < st.bits
  · have hn : (5 - st.bits).toNat = 5 - st.bits.toNat :=
      UInt32.toNat_sub_of_le _ _ (UInt32.le_iff_toNat_le.mpr (Nat.le_of_lt hlt))
    have hsub : checkedSub 5 st.bits = some (5 - st.bits) := checkedSub_some (Nat.le_of_lt hlt)
    have hshl : checkedShl st.buf (5 - st.bits) = some (st.buf <<< (5 - st.bits)) := checkedShl_some (by omega)
    rw [if_pos h0, if_pos h0]
    simp only [hsub, hshl, alphabet_get, Option.bind_eq_bind, Option.bind_some]
  · rw [if_neg h0, if_neg h0]

/-! ## Decoding never fails -/

theorem tableChecked_eq : tableChecked = some crockfordTable := by decide +kernel

theorem table_get (c : UInt8) : crockfordTable[c.toNat]? = some (crockfordTable.getD c.toNat 0xFF) := by
  have hlen : crockfordTable.length = 256 := by decide +kernel
  have hlt : c.toNat < crockfordTable.length := by
    rw [hlen]
    exact c.toNat_lt
  rw [List.getElem?_eq_getElem hlt, List.getD_eq_getElem _ _ hlt]

/-- One byte of the text; a letter leaves fewer than 8 bits. -/
theorem decodeByteChecked_eq {st : Regroup UInt8} (c : UInt8) (hlt : st.bits.toNat < 8) :
    decodeByteChecked crockfordTable st c = some (decodeByte st c) ∧
      ∀ st', decodeByte st c = some st' → st'.bits.toNat < 8 := by
  have hshl : checkedShl st.buf 5 = some (st.buf <<< 5) := checkedShl_some (by decide)
  have hadd : checkedAdd st.bits 5 = some (st.bits + 5) := checkedAdd_some (by omega) (by decide)
  have hbits : (st.bits + 5).toNat = st.bits.toNat + 5 := toNat_count (by omega) (by decide)
  unfold decodeByteChecked decodeByte
  simp only [table_get, hshl, hadd, Option.bind_eq_bind, Option.bind_some]
  generalize crockfordTable.getD c.toNat 0xFF = v
  by_cases hv : v = 0xFF
  · rw [if_pos hv, if_pos hv]
    exact ⟨rfl, fun st' h => (by cases h)⟩
  · rw [if_neg hv, if_neg hv]
    by_cases h8 : 8 ≤ st.bits + 5
    · have hle : 8 ≤ (st.bits + 5).toNat := UInt32.le_iff_toNat_le.mp h8
      have hleft : (st.bits + 5 - 8).toNat = (st.bits + 5).toNat - 8 := UInt32.toNat_sub_of_le _ _ h8
      have hsub : checkedSub (st.bits + 5) 8 = some (st.bits + 5 - 8) := checkedSub_some hle
      have hshr : ∀ buf, checkedShr buf (st.bits + 5 - 8) = some (buf >>> (st.bits + 5 - 8)) :=
        fun buf => checkedShr_some (by omega)
      rw [if_pos h8, if_pos h8]
      refine ⟨by simp only [hsub, hshr, Option.bind_some], fun st' h => ?_⟩
      cases h
      show (st.bits + 5 - 8).toNat < 8
      omega
    · rw [if_neg h8, if_neg h8]
      refine ⟨rfl, fun st' h => ?_⟩
      cases h
      exact Nat.lt_of_not_le fun h => h8 (UInt32.le_iff_toNat_le.mpr h)

theorem decodeBytesChecked_eq (cs : List UInt8) {st : Regroup UInt8} (hlt : st.bits.toNat < 8) :
    decodeBytesChecked crockfordTable cs st = some (cs.foldlM decodeByte st) ∧
      ∀ st', cs.foldlM decodeByte st = some st' → st'.bits.toNat < 8 := by
  induction cs generalizing st with
  | nil =>
    refine ⟨rfl, fun st' h => ?_⟩
    cases h
    exact hlt
  | cons c cs ih =>
    obtain ⟨hbyte, hnext⟩ := decodeByteChecked_eq c hlt
    rw [decodeBytesChecked, hbyte, List.foldlM_cons]
    cases hd : decodeByte st c with
    | none => exact ⟨rfl, fun st' h => (by cases h)⟩
    | some st₁ => exact ih (hnext st₁ hd)

theorem finishChecked_eq {st : Regroup UInt8} (hlt : st.bits.toNat < 8) : finishChecked st =
    some (if 0 < st.bits ∧ st.buf &&& ((1 <<< st.bits) - 1) ≠ 0 then none else some st.out) := by
  have hone : (1 : UInt32).toNat ≤ ((1 : UInt32) <<< st.bits).toNat := by
    rw [toNat_one_shl (by omega)]
    exact Nat.one_le_two_pow
  have hshl : checkedShl 1 st.bits = some (1 <<< st.bits) := checkedShl_some (by omega)
  have hsub : checkedSub (1 <<< st.bits) 1 = some ((1 <<< st.bits) - 1) := checkedSub_some hone
  unfold finishChecked
  by_cases h0 : 0 < st.bits
  · rw [if_pos h0]
    simp only [hshl, hsub, h0, true_and, Option.bind_eq_bind, Option.bind_some]
    split <;> rfl
  · rw [if_neg h0, if_neg fun h => h0 h.1]

theorem decodeChecked_eq (s : String) : decodeChecked s = some (crockfordDecode s) := by
  obtain ⟨hrun, hend⟩ := @decodeBytesChecked_eq (asBytes s) { buf := 0, bits := 0, out := [] } (by decide)
  unfold decodeChecked crockfordDecode
  rw [tableChecked_eq, Option.bind_eq_bind, Option.bind_some, hrun]
  cases hst : (asBytes s).foldlM decodeByte { buf := 0, bits := 0, out := [] } with
  | none => rfl
  | some st => exact finishChecked_eq (hend st hst)

/-! ## The texts -/

/-- A text of the bytes: their letters, and one 0 more where there is room for it. -/
def Spells (s : String) (b : List UInt8) : Prop :=
  s = crockfordEncode b ∨ s = crockfordEncode b ++ "0" ∧ slack b.length ≤ 2

theorem alphabet_crockfordEncode (b : List UInt8) : ∀ c ∈ (crockfordEncode b).toList, c ∈ crockfordAlphabet := by
  obtain ⟨ds, hds, -, henc, -⟩ := encode_letters b
  intro c hc
  rw [henc, String.toList_ofList] at hc
  obtain ⟨d, hd, rfl⟩ := List.mem_map.mp hc
  have hlt : d < crockfordAlphabet.length := hds d hd
  rw [letter, List.getD_eq_getElem _ _ hlt]
  exact List.getElem_mem hlt

theorem crockfordDecode_none {s : String} : crockfordDecode s = none ↔ ∀ b, ¬ Spells s b := by
  rw [Option.eq_none_iff_forall_ne_some]
  exact forall_congr' fun b => not_congr crockfordDecode_some

/-- Encoding and decoding, over every byte string and every text. -/
theorem crockford_language :
    (∀ b : List UInt8, (crockfordEncode b).toList.length = (8 * b.length + 4) / 5 ∧
      (∀ c ∈ (crockfordEncode b).toList, c ∈ crockfordAlphabet) ∧
      crockfordDecode (crockfordEncode b) = some b ∧ encodeChecked b = some (crockfordEncode b)) ∧
    ∀ s : String, decodeChecked s = some (crockfordDecode s) ∧ (∀ b, crockfordDecode s = some b ↔ Spells s b) ∧
      (crockfordDecode s = none ↔ ∀ b, ¬ Spells s b) := by
  constructor
  · intro b
    exact ⟨length_crockfordEncode b, alphabet_crockfordEncode b, crockfordDecode_some.mpr (Or.inl rfl), encodeChecked_eq b⟩
  · intro s
    exact ⟨decodeChecked_eq s, fun b => crockfordDecode_some, crockfordDecode_none⟩

end RootkeyCrypto.Base32
