/-
  RootkeyCrypto.Share.Key — how the key of a share may be typed.

  The key is handed over as text and typed back by a person: in any case, with blanks and
  hyphens anywhere, with I or L for 1 and O for 0. The prefix is part of the text and is
  spelled as it is. `Spells` is what is left of a text that says a key; `Retype` is one
  change a person may make to it, `Retyped` any number of them.

  The key and its checksum are 37 bytes in 60 letters, the last of which has 4 bits to
  spare; they must be zero, and one letter more or less is another number of bytes, so the
  60 letters are determined by the key.

  Proved, over every text and every key:
  - `parse_ok`: what is accepted, and as what; `parse_error`: every other text gets the one
    error.
  - `spells_encode`, `spells_retyped`: the text of a key spells it, however it is retyped.
  - `spells_length`, `spells_inj`: the body has 60 letters, and no text spells two keys.
-/

import RootkeyCrypto.Account.TypedKey
import RootkeyCrypto.Core.Share

namespace RootkeyCrypto.ShareText

open Lib
open TypedKey (keep keep_toUpper letters)

variable {hash : List UInt8 → Arr UInt8 32}

/-- Without blanks and hyphens and in upper case, the text is the prefix and a body that
    reads as the letters of the key. -/
def Spells (hash : List UInt8 → Arr UInt8 32) (l : List Char) (key : ShareKey UInt8) : Prop :=
  ∃ body, (l.filter keep).map Char.toUpper = keyPrefix.toList ++ body ∧
    String.ofList (body.map normalizeLetter) = key.encoded hash

/-- One change to a typed text. -/
inductive Retype : List Char → List Char → Prop
  /-- A blank or a hyphen more. -/
  | insert {c : Char} (l r : List Char) : keep c = false → Retype (l ++ r) (l ++ c :: r)
  /-- A blank or a hyphen less. -/
  | remove {c : Char} (l r : List Char) : keep c = false → Retype (l ++ c :: r) (l ++ r)
  /-- The same letter in another case. -/
  | recase {c c' : Char} (l r : List Char) : c'.toUpper = c.toUpper → Retype (l ++ c :: r) (l ++ c' :: r)
  /-- After the prefix, a letter that reads as the same. -/
  | confuse {c c' : Char} (l r : List Char) : keyPrefix.toList.length ≤ (l.filter keep).length →
      normalizeLetter c'.toUpper = normalizeLetter c.toUpper → Retype (l ++ c :: r) (l ++ c' :: r)

inductive Retyped (l : List Char) : List Char → Prop
  | same : Retyped l l
  | step {l' l'' : List Char} : Retyped l l' → Retype l' l'' → Retyped l l''

/-! ## What is accepted -/

/-- 37 bytes. -/
theorem length_full (key : ShareKey UInt8) :
    (key.bytes.toList ++ (checksum hash key.bytes.toList).toList).length = 32 + keyChecksumLen := by
  rw [List.length_append, key.bytes.length, (checksum hash _).length]

theorem parse_ok {s : String} {key : ShareKey UInt8} : ShareKey.parse hash s = .ok key ↔ Spells hash s.toList key := by
  have hslack : 2 < 2 * (key.bytes.toList ++ (checksum hash key.bytes.toList).toList).length % 5 := by
    rw [length_full]
    decide
  unfold ShareKey.parse Spells ShareKey.encoded
  simp only
  constructor
  · intro h
    split at h
    · cases h
    · rename_i body hbody
      obtain ⟨p, hp, hpre⟩ := List.dropPrefix?_eq_some_iff.mp hbody
      rw [beq_iff_eq] at hpre
      rw [hpre] at hp
      refine ⟨body, hp, ?_⟩
      split at h
      · cases h
      · rename_i decoded hdec
        split at h
        · rename_i hlen
          split at h
          · rename_i hsum
            cases h
            rw [← crockfordDecode_iff hslack, hdec, Option.some.injEq]
            show decoded = decoded.take 32 ++ (checksum hash (decoded.take 32)).toList
            rw [← hsum, List.take_append_drop]
          · cases h
        · cases h
  · intro h
    obtain ⟨body, hl, hbody⟩ := h
    have hdrop : ((s.toList.filter fun c => !isWhitespace c && c != '-').map Char.toUpper).dropPrefix? keyPrefix.toList =
        some body := by
      show ((s.toList.filter keep).map Char.toUpper).dropPrefix? keyPrefix.toList = _
      rw [hl]
      exact List.dropPrefix?_append_of_beq body (beq_self_eq_true _)
    have hdec := (crockfordDecode_iff hslack).mpr hbody
    have htake : (key.bytes.toList ++ (checksum hash key.bytes.toList).toList).take 32 = key.bytes.toList :=
      List.take_left' key.bytes.length
    have hdrop32 : (key.bytes.toList ++ (checksum hash key.bytes.toList).toList).drop 32 =
        (checksum hash key.bytes.toList).toList := List.drop_left' key.bytes.length
    rw [hdrop]
    simp only [hdec]
    rw [dif_pos (length_full key)]
    simp only [htake, hdrop32, if_true]

/-- Every failure is the same error. -/
theorem parse_error {s : String} {e : CryptoError} (h : ShareKey.parse hash s = .error e) :
    e = .invalidArgument "invalid share key" := by
  unfold ShareKey.parse at h
  simp only at h
  split at h
  · cases h
    rfl
  · split at h
    · cases h
      rfl
    · split at h
      · split at h
        · cases h
        · cases h
          rfl
      · cases h
        rfl

/-! ## Retyping -/

theorem keep_normalizeLetter (c : Char) : keep (normalizeLetter c) = keep c := by
  unfold normalizeLetter
  split
  · rename_i h
    rcases h with rfl | rfl <;> rfl
  · split
    · rename_i h
      rw [h]
      rfl
    · rfl

/-- The letters around one character. -/
theorem letters_mid (l r : List Char) (c : Char) : ((l ++ c :: r).filter keep).map Char.toUpper =
    (l.filter keep).map Char.toUpper ++ (([c].filter keep).map Char.toUpper ++ (r.filter keep).map Char.toUpper) := by
  rw [← List.map_append, ← List.map_append, ← List.filter_append, ← List.filter_append]
  rfl

/-- One change keeps the key a text spells. -/
theorem spells_retype {key : ShareKey UInt8} {l l' : List Char} (h : Spells hash l key) (hr : Retype l l') :
    Spells hash l' key := by
  obtain ⟨body, hl, hbody⟩ := h
  cases hr with
  | insert l r hc =>
    refine ⟨body, ?_, hbody⟩
    rw [← hl, List.filter_append, List.filter_append, List.filter_cons_of_neg (by simp [hc])]
  | remove l r hc =>
    refine ⟨body, ?_, hbody⟩
    rw [← hl, List.filter_append, List.filter_append, List.filter_cons_of_neg (by simp [hc])]
  | @recase c c' l r hc =>
    have hk : keep c' = keep c := by rw [← keep_toUpper c', hc, keep_toUpper]
    refine ⟨body, ?_, hbody⟩
    rw [← hl, letters_mid, letters_mid]
    by_cases hkc : keep c = true
    · rw [List.filter_cons_of_pos hkc, List.filter_cons_of_pos (hk.trans hkc), List.map_cons, List.map_cons, hc]
    · rw [List.filter_cons_of_neg hkc, List.filter_cons_of_neg (by rw [hk]; exact hkc)]
  | @confuse c c' l r hlen hc =>
    have hk : keep c' = keep c := by
      rw [← keep_toUpper c', ← keep_normalizeLetter, hc, keep_normalizeLetter, keep_toUpper]
    by_cases hkc : keep c = true
    · -- The prefix lies before the letter, so the letter is in the body.
      rw [letters_mid, List.filter_cons_of_pos hkc] at hl
      have hpre : keyPrefix.toList <+: (l.filter keep).map Char.toUpper := by
        refine List.prefix_of_prefix_length_le ⟨body, hl.symm⟩ (List.prefix_append _ _) ?_
        rw [List.length_map]
        exact hlen
      obtain ⟨b, hb⟩ := hpre
      rw [← hb, List.append_assoc, List.append_cancel_left_eq] at hl
      refine ⟨b ++ ([c'.toUpper] ++ (r.filter keep).map Char.toUpper), ?_, ?_⟩
      · rw [letters_mid, List.filter_cons_of_pos (hk.trans hkc), ← hb, List.append_assoc]
        rfl
      · rw [← hbody, ← hl]
        simp only [List.map_append, List.map_cons, List.map_nil, List.filter_nil, hc]
    · refine ⟨body, ?_, hbody⟩
      rw [← hl, letters_mid, letters_mid, List.filter_cons_of_neg hkc,
        List.filter_cons_of_neg (by rw [hk]; exact hkc)]

theorem spells_retyped {key : ShareKey UInt8} {l l' : List Char} (h : Spells hash l key) (hr : Retyped l l') :
    Spells hash l' key := by
  induction hr with
  | same => exact h
  | step _ hs ih => exact spells_retype ih hs

/-! ## The text of a key -/

theorem encoded_letters (key : ShareKey UInt8) : ∃ ds : List Nat, (∀ d ∈ ds, d < 32) ∧
    key.encoded hash = String.ofList (ds.map letter) ∧ ds.length = 60 := by
  obtain ⟨ds, r, hds, -, henc, -⟩ :=
    crockfordEncode_digits (key.bytes.toList ++ (checksum hash key.bytes.toList).toList)
  refine ⟨ds, hds, henc, ?_⟩
  have hlen := length_crockfordEncode (key.bytes.toList ++ (checksum hash key.bytes.toList).toList)
  rw [henc, String.toList_ofList, List.length_map, length_full] at hlen
  exact hlen

/-- A letter is kept, upper case, and not confused with another. -/
theorem letter_typed {d : Nat} (hd : d < 32) : keep (letter d) = true ∧ (letter d).toUpper = letter d ∧
    normalizeLetter (letter d) = letter d := by
  have h : ∀ d < 32, keep (letter d) = true ∧ (letter d).toUpper = letter d ∧ normalizeLetter (letter d) = letter d := by
    decide +kernel
  exact h d hd

/-- Grouping inserts hyphens only. -/
theorem filter_groups {cs : List Char} (h : ∀ c ∈ cs, keep c = true) (i : Nat) :
    ((cs.zipIdx i).flatMap fun x => if x.2 % 5 = 0 then ['-', x.1] else [x.1]).filter keep = cs := by
  induction cs generalizing i with
  | nil => rfl
  | cons c cs ih =>
    rw [List.forall_mem_cons] at h
    have hgroup : (if i % 5 = 0 then ['-', c] else [c]).filter keep = [c] := by
      split
      · rw [List.filter_cons_of_neg (by decide), List.filter_cons_of_pos h.1, List.filter_nil]
      · rw [List.filter_cons_of_pos h.1, List.filter_nil]
    rw [List.zipIdx_cons, List.flatMap_cons, List.filter_append, ih h.2]
    simp only [hgroup]
    rfl

theorem spells_encode (key : ShareKey UInt8) : Spells hash (key.encode hash).toList key := by
  obtain ⟨ds, hds, henc, -⟩ := @encoded_letters hash key
  have hmem : ∀ {p : Char → Prop}, (∀ d, d < 32 → p (letter d)) → ∀ c ∈ ds.map letter, p c := by
    intro p hp c hc
    obtain ⟨d, hd, rfl⟩ := List.mem_map.mp hc
    exact hp d (hds d hd)
  refine ⟨ds.map letter, ?_, ?_⟩
  · unfold ShareKey.encode
    rw [String.toList_ofList, henc, String.toList_ofList, List.filter_append,
      filter_groups (hmem fun d hd => (letter_typed hd).1), List.map_append]
    congr 1
    exact map_fixed (hmem fun d hd => (letter_typed hd).2.1)
  · rw [henc]
    congr 1
    exact map_fixed (hmem fun d hd => (letter_typed hd).2.2)

/-- The body of an accepted text has 60 letters. -/
theorem spells_length {key : ShareKey UInt8} {l body : List Char} (h : Spells hash l key)
    (hl : (l.filter keep).map Char.toUpper = keyPrefix.toList ++ body) : body.length = 60 ∧
      String.ofList (body.map normalizeLetter) = key.encoded hash := by
  obtain ⟨body', hl', hbody⟩ := h
  rw [hl, List.append_cancel_left_eq] at hl'
  obtain ⟨ds, -, henc, hlen⟩ := @encoded_letters hash key
  rw [hl']
  refine ⟨?_, hbody⟩
  have hlist : (String.ofList (body'.map normalizeLetter)).toList.length = (String.ofList (ds.map letter)).toList.length := by
    rw [hbody, henc]
  rw [String.toList_ofList, String.toList_ofList, List.length_map, List.length_map] at hlist
  exact hlist.trans hlen

/-- No text spells two keys. -/
theorem spells_inj {key key' : ShareKey UInt8} {l : List Char} (h : Spells hash l key) (h' : Spells hash l key') :
    key = key' := by
  have hs : ∀ k, Spells hash l k → ShareKey.parse hash (String.ofList l) = .ok k := by
    intro k hk
    rw [parse_ok, String.toList_ofList]
    exact hk
  have heq := (hs key h).symm.trans (hs key' h')
  rw [Except.ok.injEq] at heq
  exact heq

/-- A text is accepted exactly when it spells a key, and as that key; the text of a key is
    accepted however it is retyped. -/
theorem typed_share_key (hash : List UInt8 → Arr UInt8 32) :
    (∀ s key, ShareKey.parse hash s = .ok key ↔ ∃ body, letters s = keyPrefix.toList ++ body ∧
      String.ofList (body.map normalizeLetter) =
        crockfordEncode (key.bytes.toList ++ (checksum hash key.bytes.toList).toList)) ∧
      (∀ key s, Retyped (key.encode hash).toList s.toList → ShareKey.parse hash s = .ok key) ∧
      (∀ s key body, ShareKey.parse hash s = .ok key → letters s = keyPrefix.toList ++ body →
        body.length = 60 ∧ String.ofList (body.map normalizeLetter) =
          crockfordEncode (key.bytes.toList ++ (checksum hash key.bytes.toList).toList)) ∧
      (∀ (s : String) key key', Spells hash s.toList key → Spells hash s.toList key' → key = key') ∧
      ∀ s, (∃ key, ShareKey.parse hash s = .ok key) ∨
        ShareKey.parse hash s = .error (.invalidArgument "invalid share key") := by
  refine ⟨fun s key => parse_ok, ?_, ?_, fun s key key' => spells_inj, ?_⟩
  · intro key s h
    exact parse_ok.mpr (spells_retyped (spells_encode key) h)
  · intro s key body h hl
    exact spells_length (parse_ok.mp h) hl
  · intro s
    cases h : ShareKey.parse hash s with
    | ok key => exact Or.inl ⟨key, rfl⟩
    | error e => exact Or.inr (by rw [parse_error h])

/-! ## A trace -/

def demoShareKey : ShareKey UInt8 := { bytes := .replicate 32 0x42 }

/-- BLAKE3 of the checksum's domain and this key. -/
def demoDigest : Arr UInt8 32 :=
  ⟨[238, 255, 123, 87, 125, 77, 142, 236, 108, 54, 36, 53, 2, 223, 174, 143,
    158, 154, 131, 123, 0, 206, 20, 137, 70, 71, 234, 9, 238, 12, 33, 120], rfl⟩

/-- The key in lower case, in other groups, with L and I for 1. -/
def demoTypedShare : String := " rks189l44gj289i44gj2-89144gj289144gj289144gj2 89L44gj2891exzvvaxyg "

theorem typed_share_key_lower :
    ShareKey.parse (fun _ => demoDigest) demoTypedShare = .ok demoShareKey ∧
      ShareKey.parse (fun _ => demoDigest) (demoShareKey.encode fun _ => demoDigest) = .ok demoShareKey := by
  obtain ⟨hparse, hretyped, -⟩ := typed_share_key fun _ => demoDigest
  refine ⟨(hparse _ _).mpr ⟨"89L44GJ289I44GJ289144GJ289144GJ289144GJ289L44GJ2891EXZVVAXYG".toList, ?_, ?_⟩, ?_⟩
  · decide +kernel
  · decide +kernel
  · exact hretyped _ _ .same

end RootkeyCrypto.ShareText
