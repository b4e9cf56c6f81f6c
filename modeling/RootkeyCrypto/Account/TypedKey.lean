/-
  RootkeyCrypto.Account.TypedKey — how a recovery key may be typed.

  The user may type the key in any case, with blanks and hyphens anywhere, and with or
  without the RK it was shown with. `letters` is what is left of the typed text; the program
  drops one RK from its front before it counts the letters. R and K are letters of the
  alphabet themselves, so a key that begins with them loses them when it is typed bare.

  Proved, over every typed text and every key of 25 letters:
  - `normalize_ok`: what is accepted, and as what.
  - `typed_key_iff`: the optional prefix is optional exactly when the key does not begin
    with RK or is typed with it; the same of unlocking with a key that was set up.
  - `a_key_that_begins_with_rk`: such a key, typed bare, is rejected.
-/

import RootkeyCrypto.Core.Recovery
import RootkeyCrypto.Lib.Text

namespace RootkeyCrypto.TypedKey

open Lib

/-- Not a blank, not a hyphen. -/
def keep (c : Char) : Bool := !isWhitespace c && c != '-'

/-- The typed text without blanks and hyphens, in upper case. -/
def letters (input : String) : List Char := (input.toList.filter keep).map Char.toUpper

/-- 25 letters of the alphabet. -/
def IsKey (raw : String) : Prop :=
  raw.toList.length = recoveryGroups * recoveryGroupLen ∧ ∀ c ∈ raw.toList, c ∈ recoveryAlphabet

/-- The two ways to type a key. -/
def Types (input raw : String) : Prop := letters input = raw.toList ∨ letters input = 'R' :: 'K' :: raw.toList

/-- The key begins with RK and the text is the bare key. -/
def BareRk (input raw : String) : Prop := letters input = raw.toList ∧ ['R', 'K'] <+: raw.toList

/-! ## What is left of a typed text -/

theorem isWhitespace_toUpper (c : Char) : isWhitespace c.toUpper = isWhitespace c := by
  rcases toUpper_cases c with h | ⟨h1, h2, h3⟩
  · rw [h]
  · have hno : ∀ d : Char, 65 ≤ d.toNat → d.toNat ≤ 122 → isWhitespace d = false := by
      intro d hd hd'
      simp only [isWhitespace, Bool.or_eq_false_iff, Bool.and_eq_false_iff, decide_eq_false_iff_not, beq_eq_false_iff_ne]
      omega
    rw [hno c (by omega) h2, hno c.toUpper (by omega) (by omega)]

theorem keep_toUpper (c : Char) : keep c.toUpper = keep c := by
  have hd : c.toUpper = '-' ↔ c = '-' := by
    rcases toUpper_cases c with h | ⟨h1, h2, h3⟩
    · rw [h]
    · have hn : ('-' : Char).toNat = 45 := rfl
      rw [← Char.toNat_inj, ← Char.toNat_inj, hn]
      omega
  have hne : (c.toUpper != '-') = (c != '-') := by
    rw [Bool.eq_iff_iff, bne_iff_ne, bne_iff_ne, ne_eq, ne_eq, hd]
  unfold keep
  rw [isWhitespace_toUpper, hne]

theorem filter_dropWhile {p q : Char → Bool} (h : ∀ c, p c = true → q c = false) (l : List Char) :
    (l.dropWhile p).filter q = l.filter q := by
  induction l with
  | nil => rfl
  | cons c cs ih =>
    by_cases hp : p c = true
    · rw [List.dropWhile_cons_of_pos hp, ih, List.filter_cons_of_neg (by simp [h c hp])]
    · rw [List.dropWhile_cons_of_neg hp]

/-- Trimming drops blanks, which are dropped anyway. -/
theorem filter_trim (l : List Char) : (trim l).filter keep = l.filter keep := by
  have h : ∀ c, isWhitespace c = true → keep c = false := by
    intro c hc
    simp [keep, hc]
  unfold trim
  rw [List.filter_reverse, filter_dropWhile h, List.filter_reverse, List.reverse_reverse, filter_dropWhile h]

theorem typedLetters_eq (input : String) : typedLetters input.toList = stripRk (letters input) := by
  show stripRk (((trim input.toList).map Char.toUpper).filter keep) = _
  have hk : keep ∘ Char.toUpper = keep := funext keep_toUpper
  rw [List.filter_map, hk, filter_trim]
  rfl

/-! ## What is accepted -/

theorem stripRk_eq {l r : List Char} :
    stripRk l = r ↔ l = 'R' :: 'K' :: r ∨ l = r ∧ ¬ ['R', 'K'] <+: r := by
  by_cases h : ∃ rest, l = 'R' :: 'K' :: rest
  · obtain ⟨rest, rfl⟩ := h
    constructor
    · intro hr
      exact Or.inl (by rw [← hr]; rfl)
    · intro hr
      rcases hr with hr | ⟨hr, hno⟩
      · cases hr
        rfl
      · exact absurd ⟨rest, hr⟩ hno
  · have hs : stripRk l = l := by
      unfold stripRk
      split
      · exact absurd ⟨_, rfl⟩ h
      · rfl
    rw [hs]
    constructor
    · intro hr
      refine Or.inr ⟨hr, ?_⟩
      intro h
      obtain ⟨rest, hp⟩ := h
      exact h ⟨rest, hr.trans hp.symm⟩
    · intro hr
      rcases hr with hr | ⟨hr, -⟩
      · exact absurd ⟨_, hr⟩ h
      · exact hr

theorem recoveryAlphabet_ascii : ∀ c ∈ recoveryAlphabet, c.toNat < 128 := forall_of_all (by decide)

/-- The check of the bytes is a check of the letters. -/
theorem isKey_iff (raw : String) : IsKey raw ↔ (asBytes raw).length = recoveryGroups * recoveryGroupLen ∧
    ∀ b ∈ asBytes raw, b ∈ asBytes (String.ofList recoveryAlphabet) := by
  have hlen : (∀ c ∈ raw.toList, c ∈ recoveryAlphabet) → (asBytes raw).length = raw.toList.length := by
    intro h
    have := (asBytes_letters h).1
    rwa [String.ofList_toList] at this
  constructor
  · intro h
    obtain ⟨hl, hmem⟩ := h
    refine ⟨(hlen hmem).trans hl, ?_⟩
    have := (asBytes_letters hmem).2
    rwa [String.ofList_toList] at this
  · intro h
    obtain ⟨hl, hmem⟩ := h
    have hmem' : ∀ c ∈ raw.toList, c ∈ recoveryAlphabet := by
      refine forall_mem_of_utf8 recoveryAlphabet_ascii fun b hb => ?_
      have := hmem b hb
      rwa [asBytes, String.toList_ofList] at this
    exact ⟨(hlen hmem').symm.trans hl, hmem'⟩

/-- A text is accepted as what stripping leaves of it, if that is a key. -/
theorem normalize_ok {input raw : String} :
    normalizeRecoveryKey input = .ok raw ↔ stripRk (letters input) = raw.toList ∧ IsKey raw := by
  have hcheck : ∀ up : String, ((asBytes up).length ≠ recoveryGroups * recoveryGroupLen ∨
      ¬ (asBytes up).all (fun b => (asBytes (String.ofList recoveryAlphabet)).contains b) = true) ↔ ¬ IsKey up := by
    intro up
    rw [isKey_iff, not_and_or, List.all_eq_true]
    simp only [List.contains_iff_mem]
  unfold normalizeRecoveryKey
  rw [typedLetters_eq]
  simp only
  by_cases hk : IsKey (String.ofList (stripRk (letters input)))
  · rw [if_neg (by rw [hcheck]; exact not_not.mpr hk), Except.ok.injEq]
    constructor
    · intro h
      rw [← h]
      exact ⟨String.toList_ofList.symm, hk⟩
    · intro hand
      obtain ⟨h, -⟩ := hand
      rw [h, String.ofList_toList]
  · rw [if_pos ((hcheck _).mpr hk)]
    constructor
    · intro h
      cases h
    · intro hand
      obtain ⟨h, hk'⟩ := hand
      rw [h, String.ofList_toList] at hk
      exact absurd hk' hk

/-- An accepted text is a key typed in one of the two ways. -/
theorem normalize_types {input raw : String} (h : normalizeRecoveryKey input = .ok raw) :
    IsKey raw ∧ Types input raw := by
  obtain ⟨hs, hk⟩ := normalize_ok.mp h
  refine ⟨hk, ?_⟩
  rcases stripRk_eq.mp hs with hl | ⟨hl, -⟩
  · exact Or.inr hl
  · exact Or.inl hl

/-- A key typed in one of the two ways is accepted, unless it begins with RK and is bare. -/
theorem normalize_iff {input raw : String} (hk : IsKey raw) :
    normalizeRecoveryKey input = .ok raw ↔ Types input raw ∧ ¬ BareRk input raw := by
  rw [normalize_ok, stripRk_eq]
  constructor
  · intro hand
    obtain ⟨h, -⟩ := hand
    rcases h with h | ⟨h, hno⟩
    · refine ⟨Or.inr h, ?_⟩
      intro hb
      have hlen := congrArg List.length (hb.1.symm.trans h)
      simp only [List.length_cons] at hlen
      omega
    · exact ⟨Or.inl h, fun hb => hno hb.2⟩
  · intro hand
    obtain ⟨h, hno⟩ := hand
    refine ⟨?_, hk⟩
    rcases h with h | h
    · exact Or.inr ⟨h, fun hp => hno ⟨h, hp⟩⟩
    · exact Or.inl h

/-! ## The key that was shown -/

theorem letters_format {l : List Char} (h : ∀ c ∈ l, c ∈ recoveryAlphabet) :
    letters (formatRecoveryKey (String.ofList l)) = 'R' :: 'K' :: l := by
  have hflat : (chunks recoveryGroupLen l.length l).flatten = l := flatten_chunks (by decide) (Nat.le_refl _)
  have hl : l.filter keep = l := by
    refine List.filter_eq_self.mpr fun c hc => ?_
    obtain ⟨-, hw, hd, -⟩ := recoveryAlphabet_spec c (h c hc)
    simp [keep, hw, hd]
  have hup : l.map Char.toUpper = l := map_fixed fun c hc => (recoveryAlphabet_spec c (h c hc)).1
  unfold letters formatRecoveryKey
  simp only [String.toList_ofList]
  rw [List.filter_append, filter_intercalate (by decide), hflat, hl,
    List.map_append, hup]
  rfl

variable {β : Type} {S : Suite β}

/-- A key that was set up opens the account however it is typed, unless it is bare and
    begins with RK. -/
theorem unlock_typed_iff (hS : S.Ideal) {a : UnlockedAccount β} {l : List Char} {w : WrappedKey β}
    {ks : AccountKeySet β} {input : String} (hk : IsKey (String.ofList l))
    (hw : Wraps S (recoveryKekFrom S (String.ofList l) a.accountId) a.ark (aadForRecovery a.accountId) w)
    (hver : checkVersion accountFormatVersion accountMinReadableVersion ks.version = .ok ())
    (hid : ks.accountId = a.accountId) (hrec : ks.wrappedArkRecovery = some w)
    (ht : Types input (String.ofList l)) :
    unlockAccountWithRecoveryKey S input ks = .ok a ↔ ¬ BareRk input (String.ofList l) := by
  rw [unlockAccountWithRecoveryKey_ok hS]
  constructor
  · intro h hb
    obtain ⟨-, -, -, raw, -, hn, -⟩ := h
    -- Were it bare, what is accepted would be the key itself, which is not.
    obtain ⟨hk', ht'⟩ := normalize_types hn
    rcases ht' with h | h
    · have hraw : raw = String.ofList l := String.toList_inj.mp (h.symm.trans hb.1)
      rw [hraw] at hn
      exact ((normalize_iff hk).mp hn).2 hb
    · have hlen := congrArg List.length (h.symm.trans hb.1)
      rw [List.length_cons, List.length_cons, hk'.1, hk.1] at hlen
      omega
  · intro hb
    rw [hid]
    exact ⟨hver, rfl, w, _, hrec, (normalize_iff hk).mpr ⟨ht, hb⟩, hw⟩

/-- The RK prefix is optional for every key but those that begin with RK: they are accepted
    with it only. -/
theorem typed_key_iff (hS : S.Ideal) :
    (∀ input raw, IsKey raw → ((normalizeRecoveryKey input = .ok raw ↔ Types input raw) ↔ ¬ BareRk input raw)) ∧
      (∀ input raw, normalizeRecoveryKey input = .ok raw → IsKey raw ∧ Types input raw) ∧
      ∀ a n shown w n', setupRecoveryKey S a n = .ok ((shown, w), n') →
        ∃ raw, IsKey raw ∧ letters shown = 'R' :: 'K' :: raw.toList ∧ ∀ (ks : AccountKeySet β) (input : String),
          checkVersion accountFormatVersion accountMinReadableVersion ks.version = .ok () →
          ks.accountId = a.accountId → ks.wrappedArkRecovery = some w → Types input raw →
            (unlockAccountWithRecoveryKey S input ks = .ok a ↔ ¬ BareRk input raw) := by
  refine ⟨?_, fun input raw h => normalize_types h, ?_⟩
  · intro input raw hk
    rw [normalize_iff hk]
    constructor
    · intro h hb
      exact (h.mpr (Or.inl hb.1)).2 hb
    · intro hb
      exact ⟨fun h => h.1, fun h => ⟨h, hb⟩⟩
  · intro a n shown w n' h
    obtain ⟨l, hlen, hmem, rfl, hw, -⟩ := setupRecoveryKey_shown h
    have hk : IsKey (String.ofList l) := by
      rw [IsKey, String.toList_ofList]
      exact ⟨hlen, hmem⟩
    refine ⟨String.ofList l, hk, ?_, ?_⟩
    · rw [letters_format hmem, String.toList_ofList]
    · intro ks input hver hid hrec ht
      exact unlock_typed_iff hS hk hw hver hid hrec ht

/-! ## Traces -/

def demoRecovery : (String × WrappedKey Term) × Nat :=
  okVal (setupRecoveryKey demo.suite demoAccount.1.unlocked demoAccount.2) (by decide +kernel)

def demoRecoverable : AccountKeySet Term := { demoKeyset with wrappedArkRecovery := some demoRecovery.1.2 }

/-- The key as it is shown, in lower case, without hyphens and without RK. -/
def demoTyped : String := "56789abcdefghjkmnpqrstvwx"

/-- It opens the account. -/
theorem typed_key_iff_bare :
    unlockAccountWithRecoveryKey demo.suite demoTyped demoRecoverable = .ok demoAccount.1.unlocked := by
  have h : setupRecoveryKey demo.suite demoAccount.1.unlocked demoAccount.2 =
      .ok ((demoRecovery.1.1, demoRecovery.1.2), demoRecovery.2) := okVal_eq _
  obtain ⟨raw, hk, hshown, hopen⟩ := (typed_key_iff demo.suite_ideal).2.2 _ _ _ _ _ h
  have hraw : letters demoRecovery.1.1 = 'R' :: 'K' :: letters demoTyped := by decide +kernel
  rw [hraw] at hshown
  have ht : letters demoTyped = raw.toList := (List.cons.inj (List.cons.inj hshown).2).2
  refine (hopen demoRecoverable demoTyped (by decide +kernel) rfl rfl (Or.inl ht)).mpr ?_
  intro hb
  rw [BareRk, ← ht] at hb
  exact absurd hb.2 (by decide +kernel)

/-- A key that begins with RK. -/
def rkKey : String := "RK00000000000000000000000"

/-- Typed bare it is rejected. -/
theorem a_key_that_begins_with_rk : IsKey rkKey ∧
    normalizeRecoveryKey rkKey = .error (.invalidArgument "malformed recovery key") ∧
    ¬ (normalizeRecoveryKey rkKey = .ok rkKey ↔ Types rkKey rkKey) := by
  have hk : IsKey rkKey := ⟨by decide +kernel, forall_of_all (by decide +kernel)⟩
  have hno : normalizeRecoveryKey rkKey = .error (.invalidArgument "malformed recovery key") := by decide +kernel
  refine ⟨hk, hno, ?_⟩
  intro hiff
  rw [hiff.mpr (Or.inl (by decide +kernel))] at hno
  cases hno

end RootkeyCrypto.TypedKey
