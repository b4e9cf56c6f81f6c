/-
  RootkeyCrypto.Lib.Base64 — base64url without padding, as a codec.

  The bits of the bytes and fewer than 6 zeros, six to a letter. A decoder takes exactly
  those: letters of the alphabet, fewer than 6 bits after the last byte, all zero. So it is
  a codec in which every accepted text is the encoding of what it decodes to
  (`base64Url_ideal`).
-/

import RootkeyCrypto.Lib.Bits
import RootkeyCrypto.Lib.Text

namespace RootkeyCrypto.Lib

def base64UrlAlphabet : List Char := "ABCDEFGHIJKLMNOPQRSTUVWXYZabcdefghijklmnopqrstuvwxyz0123456789-_".toList

def base64UrlLetter (d : Nat) : Char := base64UrlAlphabet.getD d 'A'

def byteBits (b : List UInt8) : List Bool := bits 8 (b.map UInt8.toNat)

def base64UrlEncode (b : List UInt8) : String :=
  let n := (8 * b.length + 5) / 6
  String.ofList ((digits 6 n (byteBits b ++ List.replicate (6 * n - 8 * b.length) false)).map base64UrlLetter)

def base64UrlDigits : List Char → Option (List Nat)
  | [] => some []
  | c :: cs => do
    let d ← base64UrlAlphabet.idxOf? c
    let ds ← base64UrlDigits cs
    some (d :: ds)

def base64UrlDecode (s : String) : Option (List UInt8) := do
  let ds ← base64UrlDigits s.toList
  let n := (bits 6 ds).length / 8
  let whole := (bits 6 ds).take (8 * n)
  let rest := (bits 6 ds).drop (8 * n)
  if rest.length < 6 ∧ rest = List.replicate rest.length false then some ((digits 8 n whole).map UInt8.ofNat) else none

def base64Url : Codec UInt8 where
  encode := base64UrlEncode
  decode := base64UrlDecode

/-! ## Letters -/

theorem base64UrlLetter_spec {d : Nat} (hd : d < 64) : base64UrlAlphabet.idxOf? (base64UrlLetter d) = some d ∧
    base64UrlLetter d ≠ '\n' ∧ base64UrlLetter d ≠ '\r' := by
  have h : ∀ d < 64, base64UrlAlphabet.idxOf? (base64UrlLetter d) = some d ∧
      base64UrlLetter d ≠ '\n' ∧ base64UrlLetter d ≠ '\r' := by decide +kernel
  exact h d hd

theorem base64UrlDigits_ok {cs : List Char} {ds : List Nat} :
    base64UrlDigits cs = some ds ↔ (∀ d ∈ ds, d < 64) ∧ cs = ds.map base64UrlLetter := by
  induction cs generalizing ds with
  | nil =>
    rw [base64UrlDigits, Option.some.injEq]
    constructor
    · intro h
      rw [← h]
      exact ⟨by simp, rfl⟩
    · intro h
      exact (List.map_eq_nil_iff.mp h.2.symm).symm
  | cons c cs ih =>
    simp only [base64UrlDigits, bind, Option.bind_eq_some_iff, Option.some.injEq]
    constructor
    · intro h
      obtain ⟨d, hd, ds', hds', rfl⟩ := h
      obtain ⟨hlt, hget, -⟩ := List.idxOf?_eq_some_iff.mp hd
      obtain ⟨hall, hcs⟩ := ih.mp hds'
      refine ⟨List.forall_mem_cons.mpr ⟨hlt, hall⟩, ?_⟩
      rw [List.map_cons, ← hcs, base64UrlLetter, List.getD_eq_getElem _ _ hlt, hget]
    · intro h
      obtain ⟨hall, hcs⟩ := h
      cases ds with
      | nil => cases hcs
      | cons d ds =>
        rw [List.forall_mem_cons] at hall
        obtain ⟨hc, hcs⟩ := List.cons.inj hcs
        exact ⟨d, hc ▸ (base64UrlLetter_spec hall.1).1, ds, ih.mpr ⟨hall.2, hcs⟩, rfl⟩

/-! ## It is a codec -/

theorem length_byteBits (b : List UInt8) : (byteBits b).length = 8 * b.length := by
  rw [byteBits, length_bits, List.length_map]

theorem map_ofNat_toNat (b : List UInt8) : (b.map UInt8.toNat).map UInt8.ofNat = b := by
  rw [List.map_map]
  exact map_fixed fun c _ => UInt8.ofNat_toNat

theorem map_toNat_ofNat {ds : List Nat} (h : ∀ d ∈ ds, d < 2 ^ 8) : (ds.map UInt8.ofNat).map UInt8.toNat = ds := by
  rw [List.map_map]
  apply map_fixed
  intro d hd
  show (UInt8.ofNat d).toNat = d
  rw [UInt8.toNat_ofNat']
  exact Nat.mod_eq_of_lt (h d hd)

/-- The encoder writes the bits of the bytes and fewer than 6 zeros. -/
theorem base64UrlEncode_digits (b : List UInt8) : ∃ (ds : List Nat) (r : Nat), (∀ d ∈ ds, d < 64) ∧ r < 6 ∧
    base64UrlEncode b = String.ofList (ds.map base64UrlLetter) ∧ bits 6 ds = byteBits b ++ List.replicate r false := by
  have hlen : (byteBits b ++ List.replicate (6 * ((8 * b.length + 5) / 6) - 8 * b.length) false).length =
      6 * ((8 * b.length + 5) / 6) := by
    rw [List.length_append, length_byteBits, List.length_replicate]
    omega
  obtain ⟨hbits, hall⟩ := bits_digits hlen
  exact ⟨_, _, hall, by omega, rfl, hbits⟩

/-- The decoder takes the bits of the bytes and fewer than 6 zeros. -/
theorem base64UrlDecode_digits {s : String} {b : List UInt8} : base64UrlDecode s = some b ↔
    ∃ (ds : List Nat) (r : Nat), (∀ d ∈ ds, d < 64) ∧ r < 6 ∧ s = String.ofList (ds.map base64UrlLetter) ∧
      bits 6 ds = byteBits b ++ List.replicate r false := by
  unfold base64UrlDecode
  simp only [bind, Option.bind_eq_some_iff, base64UrlDigits_ok, Option.ite_none_right_eq_some, Option.some.injEq]
  constructor
  · intro h
    obtain ⟨ds, ⟨hall, hs⟩, ⟨hlt, hzero⟩, hb⟩ := h
    refine ⟨ds, ((bits 6 ds).drop (8 * ((bits 6 ds).length / 8))).length, hall, hlt, ?_, ?_⟩
    · rw [← hs, String.ofList_toList]
    · have hwhole : ((bits 6 ds).take (8 * ((bits 6 ds).length / 8))).length = 8 * ((bits 6 ds).length / 8) := by
        rw [List.length_take]
        omega
      obtain ⟨hbits, hall8⟩ := bits_digits hwhole
      rw [byteBits, ← hb, map_toNat_ofNat hall8, hbits, ← hzero, List.take_append_drop]
  · intro h
    obtain ⟨ds, r, hall, hr, rfl, hbits⟩ := h
    have hlen := congrArg List.length hbits
    rw [List.length_append, length_byteBits, List.length_replicate] at hlen
    have hn : (bits 6 ds).length / 8 = b.length := by omega
    refine ⟨ds, ⟨hall, String.toList_ofList⟩, ?_⟩
    rw [hn, hbits, List.take_left' (length_byteBits b), List.drop_left' (length_byteBits b), List.length_replicate]
    have hdigits := digits_bits (by decide) (@byte_lt b)
    rw [List.length_map] at hdigits
    rw [byteBits, hdigits, map_ofNat_toNat]
    exact ⟨⟨hr, rfl⟩, rfl⟩

/-- A text decodes to what it is the encoding of. -/
theorem base64Url_ideal : base64Url.Ideal where
  decodes := by
    intro s b
    obtain ⟨ds, r, hall, hr, henc, hbits⟩ := base64UrlEncode_digits b
    show base64UrlDecode s = some b ↔ s = base64UrlEncode b
    rw [base64UrlDecode_digits, henc]
    constructor
    · intro h
      obtain ⟨ds', r', hall', hr', rfl, hbits'⟩ := h
      -- The number of zeros is what completes the last letter.
      have hlen := congrArg List.length hbits
      have hlen' := congrArg List.length hbits'
      rw [List.length_append, List.length_replicate, length_bits] at hlen hlen'
      have hrr : r' = r := by omega
      rw [hrr, ← hbits] at hbits'
      rw [bits_inj (by decide) hall' hall hbits']
    · intro h
      exact ⟨ds, r, hall, hr, h, hbits⟩
  line := by
    intro b
    obtain ⟨ds, -, hall, -, henc, -⟩ := base64UrlEncode_digits b
    have hmem : ∀ c ∈ (base64UrlEncode b).toList, c ≠ '\n' ∧ c ≠ '\r' := by
      intro c hc
      rw [henc, String.toList_ofList] at hc
      obtain ⟨d, hd, rfl⟩ := List.mem_map.mp hc
      exact (base64UrlLetter_spec (hall d hd)).2
    exact ⟨fun h => (hmem _ h).1 rfl, fun h => (hmem _ h).2 rfl⟩

end RootkeyCrypto.Lib
