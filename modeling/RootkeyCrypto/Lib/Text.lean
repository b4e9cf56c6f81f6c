/-
  RootkeyCrypto.Lib.Text — characters and their UTF-8 bytes, lines, decimal numbers.

  A program that upper-cases a text and compares its bytes with an ASCII alphabet reads
  characters: a character outside ASCII has no byte below 128 (`utf8_other`), so bytes of
  the alphabet are characters of it (`mem_of_utf8`), and ASCII upper-casing changes lower-case
  letters only (`toUpper_cases`).

  `lines` and `parseU64` are `str::lines` and `str::parse::<u64>`: a text of lines splits
  into them, whichever of the two line ends it has (`lines_ends`), and a printed number
  parses to itself (`parseU64_repr`). `Codec` is a text encoding of byte strings that a
  program gets from a package.
-/

import Mathlib.Data.List.Basic
import Mathlib.Tactic.Common

namespace RootkeyCrypto.Lib

/-- A map that fixes every element fixes the list. -/
theorem map_fixed {α : Type} {f : α → α} {l : List α} (h : ∀ a ∈ l, f a = a) : l.map f = l :=
  (List.map_congr_left h).trans (List.map_id _)

/-- A check over a list, by running it. -/
theorem forall_of_all {α : Type} {p : α → Prop} [DecidablePred p] {l : List α} (h : l.all (fun a => decide (p a)) = true) :
    ∀ a ∈ l, p a :=
  fun a ha => of_decide_eq_true (List.all_eq_true.mp h a ha)

/-! ## UTF-8 -/

theorem utf8_ascii {c : Char} (h : c.toNat < 128) : String.utf8EncodeChar c = [UInt8.ofNat c.toNat] := by
  unfold String.utf8EncodeChar
  exact if_pos (Nat.le_of_lt_succ h)

theorem utf8_other {c : Char} (h : 128 ≤ c.toNat) : ∀ b ∈ String.utf8EncodeChar c, 128 ≤ b.toNat := by
  have hv : ¬ c.val.toNat ≤ 127 := by
    intro h'
    have : c.toNat = c.val.toNat := rfl
    omega
  intro b hb
  simp only [String.utf8EncodeChar] at hb
  rw [if_neg hv] at hb
  split at hb
  · simp only [List.mem_cons, List.not_mem_nil, or_false] at hb
    rcases hb with rfl | rfl <;> rw [UInt8.toNat_ofNat'] <;> omega
  · split at hb
    · simp only [List.mem_cons, List.not_mem_nil, or_false] at hb
      rcases hb with rfl | rfl | rfl <;> rw [UInt8.toNat_ofNat'] <;> omega
    · simp only [List.mem_cons, List.not_mem_nil, or_false] at hb
      rcases hb with rfl | rfl | rfl | rfl <;> rw [UInt8.toNat_ofNat'] <;> omega

section Alphabet

variable {alphabet l : List Char}

/-- A character all of whose bytes are bytes of an ASCII alphabet is in the alphabet. -/
theorem mem_of_utf8 (hA : ∀ a ∈ alphabet, a.toNat < 128) {c : Char}
    (h : ∀ b ∈ String.utf8EncodeChar c, b ∈ alphabet.flatMap String.utf8EncodeChar) : c ∈ alphabet := by
  have hbyte : ∀ b, b ∈ alphabet.flatMap String.utf8EncodeChar → ∃ a ∈ alphabet, b = UInt8.ofNat a.toNat := by
    intro b hb
    obtain ⟨a, ha, hab⟩ := List.mem_flatMap.mp hb
    rw [utf8_ascii (hA a ha), List.mem_singleton] at hab
    exact ⟨a, ha, hab⟩
  by_cases hc : c.toNat < 128
  · rw [utf8_ascii hc] at h
    obtain ⟨a, ha, hab⟩ := hbyte _ (h _ List.mem_cons_self)
    have hac := congrArg UInt8.toNat hab
    have := hA a ha
    rw [UInt8.toNat_ofNat', UInt8.toNat_ofNat', Nat.mod_eq_of_lt (by omega), Nat.mod_eq_of_lt (by omega)] at hac
    rw [Char.toNat_inj.mp hac]
    exact ha
  · have hne : String.utf8EncodeChar c ≠ [] := String.utf8EncodeChar_ne_nil
    obtain ⟨b, hb⟩ := List.exists_mem_of_ne_nil _ hne
    obtain ⟨a, ha, hab⟩ := hbyte b (h b hb)
    have hge := utf8_other (Nat.le_of_not_lt hc) b hb
    have := hA a ha
    rw [hab, UInt8.toNat_ofNat', Nat.mod_eq_of_lt (by omega)] at hge
    omega

/-- A text all of whose bytes are bytes of an ASCII alphabet is a text of its letters. -/
theorem forall_mem_of_utf8 (hA : ∀ a ∈ alphabet, a.toNat < 128)
    (h : ∀ b ∈ l.flatMap String.utf8EncodeChar, b ∈ alphabet.flatMap String.utf8EncodeChar) :
    ∀ c ∈ l, c ∈ alphabet := by
  intro c hc
  refine mem_of_utf8 hA fun b hb => h b ?_
  exact List.mem_flatMap.mpr ⟨c, hc, hb⟩

end Alphabet

/-! ## Upper case -/

theorem toUpper_cases (c : Char) :
    c.toUpper = c ∨ 97 ≤ c.toNat ∧ c.toNat ≤ 122 ∧ c.toUpper.toNat = c.toNat - 32 := by
  unfold Char.toUpper
  split
  · rename_i h
    obtain ⟨h1, h2⟩ := h
    have hlo : 97 ≤ c.val.toNat := h1
    have hhi : c.val.toNat ≤ 122 := h2
    have hdiff : ('A'.val - 'a'.val).toNat = 2 ^ 32 - 32 := by decide
    refine Or.inr ⟨hlo, hhi, ?_⟩
    show (c.val + ('A'.val - 'a'.val)).toNat = c.val.toNat - 32
    rw [UInt32.toNat_add, hdiff]
    omega
  · exact Or.inl rfl

/-! ## Lines -/

/-- One carriage return off the end of a line, which is read backwards. -/
def dropCr : List Char → List Char
  | '\r' :: l => l
  | l => l

/-- The lines from here on; `cur` is the unfinished one, backwards. -/
def linesFrom (cur : List Char) : List Char → List String
  | [] => if cur = [] then [] else [String.ofList cur.reverse]
  | c :: rest =>
    if c = '\n' then String.ofList (dropCr cur).reverse :: linesFrom [] rest else linesFrom (c :: cur) rest

def lines (s : String) : List String := linesFrom [] s.toList

theorem linesFrom_line {cur l rest : List Char} (h : '\n' ∉ l) :
    linesFrom cur (l ++ '\n' :: rest) = String.ofList (dropCr (l.reverse ++ cur)).reverse :: linesFrom [] rest := by
  induction l generalizing cur with
  | nil => rfl
  | cons c l ih =>
    rw [List.mem_cons, not_or] at h
    rw [List.cons_append, linesFrom, if_neg (Ne.symm h.1), ih h.2, List.reverse_cons, List.append_assoc]
    rfl

theorem dropCr_of_not_mem {l : List Char} (h : '\r' ∉ l) : dropCr l = l := by
  unfold dropCr
  split
  · exact absurd List.mem_cons_self h
  · rfl

/-- Lines with either line end after each of them. -/
theorem lines_ends {eol : List Char} (he : eol = ['\n'] ∨ eol = ['\r', '\n']) {ls : List String}
    (h : ∀ l ∈ ls, '\n' ∉ l.toList ∧ '\r' ∉ l.toList) :
    lines (String.ofList (ls.flatMap fun l => l.toList ++ eol)) = ls := by
  unfold lines
  rw [String.toList_ofList]
  induction ls with
  | nil => rfl
  | cons l ls ih =>
    rw [List.forall_mem_cons] at h
    obtain ⟨⟨hn, hr⟩, hls⟩ := h
    have hrev : '\r' ∉ l.toList.reverse := fun h => hr (List.mem_reverse.mp h)
    rw [List.flatMap_cons]
    rcases he with rfl | rfl
    · rw [List.append_assoc, List.singleton_append, linesFrom_line hn, ih hls, List.append_nil, dropCr_of_not_mem hrev,
        List.reverse_reverse, String.ofList_toList]
    · have hn' : '\n' ∉ l.toList ++ ['\r'] := by
        rw [List.mem_append, not_or]
        exact ⟨hn, by decide⟩
      have hsplit : l.toList ++ ['\r', '\n'] = (l.toList ++ ['\r']) ++ ['\n'] := by
        rw [List.append_assoc]
        rfl
      rw [hsplit, List.append_assoc, List.singleton_append, linesFrom_line hn', ih hls, List.append_nil, List.reverse_append]
      show String.ofList (dropCr ('\r' :: l.toList.reverse)).reverse :: ls = l :: ls
      rw [dropCr, List.reverse_reverse, String.ofList_toList]

/-! ## Decimal numbers -/

/-- The digits after `acc`, with the two overflow checks. -/
def parseDigits (acc : Nat) : List Char → Option Nat
  | [] => some acc
  | c :: cs =>
    if c.isDigit then
      let v := 10 * acc + (c.toNat - '0'.toNat)
      if v < UInt64.size then parseDigits v cs else none
    else none

/-- A sign may stand before the digits. -/
def dropPlus : List Char → List Char
  | '+' :: l => l
  | l => l

def parseU64 (s : String) : Option UInt64 :=
  let digits := dropPlus s.toList
  if digits = [] then none else (parseDigits 0 digits).map UInt64.ofNat

theorem parseDigits_ok {l : List Char} {acc : Nat} (h : ∀ c ∈ l, c.isDigit = true)
    (hlt : Nat.ofDigitChars 10 l acc < UInt64.size) : parseDigits acc l = some (Nat.ofDigitChars 10 l acc) := by
  induction l generalizing acc with
  | nil => rfl
  | cons c cs ih =>
    rw [List.forall_mem_cons] at h
    rw [Nat.ofDigitChars_cons] at hlt ⊢
    have hle : 10 * acc + (c.toNat - '0'.toNat) ≤ Nat.ofDigitChars 10 cs (10 * acc + (c.toNat - '0'.toNat)) := by
      rw [Nat.ofDigitChars_eq_ofDigitChars_zero]
      exact Nat.le_trans (Nat.le_mul_of_pos_left _ (Nat.pow_pos (by decide))) (Nat.le_add_right _ _)
    rw [parseDigits, if_pos h.1]
    simp only
    rw [if_pos (Nat.lt_of_le_of_lt hle hlt), ih h.2 hlt]

/-- The digits of a number. -/
theorem isDigit_repr {n : Nat} {c : Char} (h : c ∈ n.repr.toList) : c.isDigit = true := by
  rw [Nat.toList_repr] at h
  exact Nat.isDigit_of_mem_toDigits (by decide) (by decide) h

theorem parseU64_repr (x : UInt64) : parseU64 x.toNat.repr = some x := by
  have hdig : ∀ c ∈ Nat.toDigits 10 x.toNat, c.isDigit = true := fun c hc =>
    Nat.isDigit_of_mem_toDigits (by decide) (by decide) hc
  have hval : Nat.ofDigitChars 10 (Nat.toDigits 10 x.toNat) 0 = x.toNat := Nat.ofDigitChars_ten_toDigits
  have hparse := @parseDigits_ok _ 0 hdig (by rw [hval]; exact x.toNat_lt)
  unfold parseU64
  rw [Nat.toList_repr]
  have hne : Nat.toDigits 10 x.toNat ≠ [] := Nat.toDigits_ne_nil
  -- No sign: the first character is a digit.
  have hsign : dropPlus (Nat.toDigits 10 x.toNat) = Nat.toDigits 10 x.toNat := by
    unfold dropPlus
    split
    · rename_i heq
      rw [heq] at hdig
      exact absurd (hdig '+' List.mem_cons_self) (by decide)
    · rfl
  simp only [hsign]
  rw [if_neg hne, hparse, hval, Option.map_some, UInt64.ofNat_toNat]

/-! ## Byte strings as text -/

structure Codec (β : Type) where
  encode : List β → String
  decode : String → Option (List β)

/-- What is decoded is what was encoded, and an encoding is one line. -/
structure Codec.Ideal {β : Type} (C : Codec β) : Prop where
  decodes : ∀ {s b}, C.decode s = some b ↔ s = C.encode b
  line : ∀ b, '\n' ∉ (C.encode b).toList ∧ '\r' ∉ (C.encode b).toList

end RootkeyCrypto.Lib
