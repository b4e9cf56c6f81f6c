/-
  RootkeyCrypto.Shared.Fingerprint — the fingerprint a user compares before he adds a member.

  The remote side publishes two public keys; the user reads their fingerprint to the person
  they should belong to, who compares it with the one of his identity. `fingerprint_binds`:
  the text is eight groups of four digits, 39 characters, and the two texts agree exactly
  when the keys do, or when they collide in the first 16 bytes of BLAKE3. So the text loses
  nothing of the 16 bytes, and keys passed for one another cost a collision.
-/

import RootkeyCrypto.Core.Identity
import RootkeyCrypto.Core.Recovery

namespace RootkeyCrypto.Fingerprint

open Lib

variable {β : Type} {S : Suite β}

def hexAlphabet : List Char := "0123456789ABCDEF".toList

/-! ## Digits -/

theorem hexDigit_spec {n : Nat} (hn : n < 16) :
    hexAlphabet.idxOf (hexDigit n) = n ∧ hexDigit n ∈ hexAlphabet := by
  have h : ∀ n < 16, hexAlphabet.idxOf (hexDigit n) = n ∧ hexDigit n ∈ hexAlphabet := by
    decide +kernel
  exact h n hn

theorem hexDigit_inj {m n : Nat} (hm : m < 16) (hn : n < 16) (h : hexDigit m = hexDigit n) : m = n := by
  rw [← (hexDigit_spec hm).1, ← (hexDigit_spec hn).1, h]

theorem nibbles_lt (b : UInt8) : b.toNat / 16 < 16 ∧ b.toNat % 16 < 16 := by
  have := b.toNat_lt
  omega

theorem hex2_mem (b : UInt8) : ∀ c ∈ hex2 b, c ∈ hexAlphabet :=
  List.forall_mem_cons.mpr ⟨(hexDigit_spec (nibbles_lt b).1).2,
    List.forall_mem_singleton.mpr (hexDigit_spec (nibbles_lt b).2).2⟩

theorem flatMap_hex2_inj {l l' : List UInt8} (h : l.flatMap hex2 = l'.flatMap hex2) : l = l' := by
  induction l generalizing l' with
  | nil =>
    cases l' with
    | nil => rfl
    | cons b l' => cases h
  | cons a l ih =>
    cases l' with
    | nil => cases h
    | cons b l' =>
      obtain ⟨hhi, h⟩ := List.cons.inj h
      obtain ⟨hlo, h⟩ := List.cons.inj h
      have h1 := hexDigit_inj (nibbles_lt a).1 (nibbles_lt b).1 hhi
      have h2 := hexDigit_inj (nibbles_lt a).2 (nibbles_lt b).2 hlo
      rw [ih h, UInt8.toNat_inj.mp (show a.toNat = b.toNat by omega)]

/-! ## Groups -/

/-- The digits of two bytes at a time. -/
def fingerprintGroups : List UInt8 → List (List Char)
  | a :: b :: rest => (hex2 a ++ hex2 b) :: fingerprintGroups rest
  | _ => []

/-- A space before each two bytes but the first. -/
def fingerprintChars (bytes : List UInt8) (k : Nat) : List Char :=
  (bytes.zipIdx k).flatMap fun (byte, i) => (if i > 0 ∧ i % 2 = 0 then [' '] else []) ++ hex2 byte

theorem fingerprintChars_pair {a b : UInt8} {rest : List UInt8} {k : Nat} (hk : k % 2 = 0) :
    fingerprintChars (a :: b :: rest) k = (if k > 0 then [' '] else []) ++ (hex2 a ++ hex2 b) ++ fingerprintChars rest (k + 2) := by
  unfold fingerprintChars
  rw [List.zipIdx_cons, List.zipIdx_cons, List.flatMap_cons, List.flatMap_cons]
  have hodd : ¬ (k + 1 > 0 ∧ (k + 1) % 2 = 0) := by omega
  simp only [hk, hodd, and_true, if_false, List.nil_append, List.append_assoc]

theorem fingerprintChars_groups {l : List UInt8} {k : Nat} (hl : l.length % 2 = 0) (hk : k % 2 = 0) (hpos : k > 0) :
    fingerprintChars l k = (fingerprintGroups l).flatMap (' ' :: ·) := by
  induction l using fingerprintGroups.induct generalizing k with
  | case1 a b rest ih =>
    have hrest : rest.length % 2 = 0 := by
      rw [List.length_cons, List.length_cons] at hl
      omega
    rw [fingerprintChars_pair hk, if_pos hpos, ih hrest (by omega) (by omega), fingerprintGroups, List.flatMap_cons]
    rfl
  | case2 l h =>
    cases l with
    | nil => rfl
    | cons a l =>
      cases l with
      | nil => simp at hl
      | cons b rest => exact (h a b rest rfl).elim

theorem intercalate_cons (g : List Char) (gs : List (List Char)) :
    [' '].intercalate (g :: gs) = g ++ gs.flatMap (' ' :: ·) := by
  induction gs generalizing g with
  | nil => simp [List.intercalate]
  | cons h gs ih =>
    rw [List.intercalate_cons_cons, ih, List.flatMap_cons, List.append_assoc]
    rfl

/-- Every two bytes are a group of four digits. -/
theorem fingerprintGroups_spec {l : List UInt8} (hl : l.length % 2 = 0) :
    2 * (fingerprintGroups l).length = l.length ∧ (fingerprintGroups l).flatten = l.flatMap hex2 ∧
      ∀ g ∈ fingerprintGroups l, g.length = 4 ∧ ∀ c ∈ g, c ∈ hexAlphabet := by
  induction l using fingerprintGroups.induct with
  | case1 a b rest ih =>
    rw [List.length_cons, List.length_cons] at hl
    obtain ⟨hlen, hflat, hall⟩ := ih (by omega)
    refine ⟨?_, ?_, ?_⟩
    · rw [fingerprintGroups, List.length_cons, List.length_cons, List.length_cons]
      omega
    · rw [fingerprintGroups, List.flatten_cons, hflat, List.flatMap_cons, List.flatMap_cons, List.append_assoc]
    · rw [fingerprintGroups, List.forall_mem_cons]
      exact ⟨⟨rfl, List.forall_mem_append.mpr ⟨hex2_mem a, hex2_mem b⟩⟩, hall⟩
  | case2 l h =>
    cases l with
    | nil => exact ⟨rfl, rfl, fun g hg => (by cases hg)⟩
    | cons a l =>
      cases l with
      | nil => simp at hl
      | cons b rest => exact (h a b rest rfl).elim

theorem fingerprintChars_eq {l : List UInt8} (hl : l.length % 2 = 0) :
    fingerprintChars l 0 = [' '].intercalate (fingerprintGroups l) := by
  cases l with
  | nil => rfl
  | cons a l =>
    cases l with
    | nil => simp at hl
    | cons b rest =>
      rw [List.length_cons, List.length_cons] at hl
      rw [fingerprintChars_pair rfl, fingerprintChars_groups (by omega) rfl (by decide), fingerprintGroups, intercalate_cons]
      rfl

/-! ## The text -/

/-- The bytes that are shown. -/
def shownBytes (F : Fingerprints β) (m : List β) : List UInt8 := (F.hash m).toList.take 16

theorem shownBytes_length (F : Fingerprints β) (m : List β) : (shownBytes F m).length = 16 := by
  rw [shownBytes, List.length_take, (F.hash m).length]
  rfl

/-- Two inputs that are shown alike. -/
def Collide (F : Fingerprints β) (m m' : List β) : Prop := m ≠ m' ∧ shownBytes F m = shownBytes F m'

theorem fingerprint_groups (F : Fingerprints β) (x e : Arr β 32) : fingerprintFromPubkeys F x e =
    String.ofList ([' '].intercalate (fingerprintGroups (shownBytes F (x.toList ++ e.toList)))) := by
  have heven : (shownBytes F (x.toList ++ e.toList)).length % 2 = 0 := by rw [shownBytes_length]
  rw [← fingerprintChars_eq heven]
  rfl

/-- The digits of the text are the bytes, in hexadecimal. -/
theorem text_inj {l l' : List UInt8} (hl : l.length % 2 = 0) (hl' : l'.length % 2 = 0)
    (h : [' '].intercalate (fingerprintGroups l) = [' '].intercalate (fingerprintGroups l')) : l = l' := by
  have hdigits : ∀ {l : List UInt8}, l.length % 2 = 0 →
      ([' '].intercalate (fingerprintGroups l)).filter (· ∈ hexAlphabet) = l.flatMap hex2 := by
    intro l hl
    obtain ⟨-, hflat, -⟩ := fingerprintGroups_spec hl
    rw [filter_intercalate (by decide), hflat, List.filter_eq_self]
    intro c hc
    obtain ⟨b, -, hc⟩ := List.mem_flatMap.mp hc
    exact decide_eq_true (hex2_mem b c hc)
  exact flatMap_hex2_inj (by rw [← hdigits hl, ← hdigits hl', h])

/-- A published pair of keys shows an identity's fingerprint when it is the identity's pair,
    or collides with it. -/
theorem fingerprint_binds (F : Fingerprints β) (i : Identity S) :
    (∃ gs : List (List Char), i.fingerprint F = String.ofList ([' '].intercalate gs) ∧ gs.length = 8 ∧
      ∀ g ∈ gs, g.length = 4 ∧ ∀ c ∈ g, c ∈ hexAlphabet) ∧
    ∀ x e : Arr β 32, fingerprintFromPubkeys F x e = i.fingerprint F ↔
      (x = i.x25519.publicKey ∧ e = F.verifyingKey i.ed25519.seed) ∨
        Collide F (x.toList ++ e.toList) (i.x25519.publicKey.toList ++ (F.verifyingKey i.ed25519.seed).toList) := by
  have heven : ∀ m, (shownBytes F m).length % 2 = 0 := fun m => by rw [shownBytes_length]
  refine ⟨⟨_, fingerprint_groups F _ _, ?_, (fingerprintGroups_spec (heven _)).2.2⟩, fun x e => ?_⟩
  · have hlen := (fingerprintGroups_spec (heven (i.x25519.publicKey.toList ++ (F.verifyingKey i.ed25519.seed).toList))).1
    rw [shownBytes_length] at hlen
    omega
  · constructor
    · intro h
      rw [Identity.fingerprint, fingerprint_groups, fingerprint_groups] at h
      have hbytes := text_inj (heven _) (heven _) (String.ofList_inj.mp h)
      by_cases hm : x.toList ++ e.toList = i.x25519.publicKey.toList ++ (F.verifyingKey i.ed25519.seed).toList
      · obtain ⟨hx, he⟩ := List.append_inj hm (by rw [x.length, i.x25519.publicKey.length])
        exact Or.inl ⟨Arr.toList_inj.mp hx, Arr.toList_inj.mp he⟩
      · exact Or.inr ⟨hm, hbytes⟩
    · rintro (⟨rfl, rfl⟩ | ⟨-, hbytes⟩)
      · rfl
      · rw [Identity.fingerprint, fingerprint_groups, fingerprint_groups, hbytes]

end RootkeyCrypto.Fingerprint
