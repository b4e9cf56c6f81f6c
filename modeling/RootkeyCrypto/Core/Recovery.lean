/-
  RootkeyCrypto.Core.Recovery — `account.rs`: the recovery key.

  A recovery key is 25 letters of Crockford's base32, shown as `RK-` and five groups of
  five. What the user types back is upper-cased, stripped of blanks, hyphens and one `RK`,
  and must then be 25 letters of the alphabet. What `setup_recovery_key` shows therefore
  reads back as the letters drawn (`normalize_format`), whatever they are: a key whose own
  letters begin with RK keeps them, as only the shown prefix goes.
-/

import RootkeyCrypto.Core.Account
import RootkeyCrypto.Lib.Text
import Mathlib.Data.List.GetD

namespace RootkeyCrypto

open Lib

def recoveryAlphabet : List Char := "0123456789ABCDEFGHJKMNPQRSTVWXYZ".toList
def recoveryGroups : Nat := 5
def recoveryGroupLen : Nat := 5

/-- `char::is_whitespace`: the Unicode property White_Space. -/
def isWhitespace (c : Char) : Bool :=
  let n := c.toNat
  (0x9 ≤ n && n ≤ 0xD) || n == 0x20 || n == 0x85 || n == 0xA0 || n == 0x1680 || (0x2000 ≤ n && n ≤ 0x200A) ||
    n == 0x2028 || n == 0x2029 || n == 0x202F || n == 0x205F || n == 0x3000

/-- `str::trim`. -/
def trim (s : List Char) : List Char :=
  ((s.dropWhile isWhitespace).reverse.dropWhile isWhitespace).reverse

/-- `strip_prefix("RK")`, or the string itself. -/
def stripRk : List Char → List Char
  | 'R' :: 'K' :: rest => rest
  | s => s

/-- Upper case, without blanks, hyphens and one RK. -/
def typedLetters (input : List Char) : List Char :=
  stripRk (((trim input).map Char.toUpper).filter fun c => !isWhitespace c && c != '-')

def normalizeRecoveryKey (input : String) : Except CryptoError String :=
  let up := String.ofList (typedLetters input.toList)
  if (asBytes up).length ≠ recoveryGroups * recoveryGroupLen ∨
      ¬ (asBytes up).all (fun b => (asBytes (String.ofList recoveryAlphabet)).contains b) then
    .error (.invalidArgument "malformed recovery key")
  else .ok up

/-- `chunks`; the fuel is the length. -/
def chunks (n : Nat) : Nat → List Char → List (List Char)
  | 0, _ => []
  | _ + 1, [] => []
  | fuel + 1, c :: cs => (c :: cs).take n :: chunks n fuel ((c :: cs).drop n)

def formatRecoveryKey (raw : String) : String :=
  String.ofList ("RK-".toList ++ ['-'].intercalate (chunks recoveryGroupLen raw.toList.length raw.toList))

variable {β : Type} (S : Suite β)

/-- The letters are a string that the user keeps. -/
def recoveryKekFrom (normalized : String) (accountId : Id) : SymmetricKey β :=
  S.blake3 "root-key/recovery-key/v1" (S.typed (asBytes normalized) ++ accountId.toList.map S.lit)

/-- One letter: the low five bits of a byte. -/
def recoveryLetter : Draw Char := do
  let b ← randomBytes S 1
  pure (recoveryAlphabet.getD ((b.toList.headD 0) &&& 0x1F).toNat '0')

def setupRecoveryKey (account : UnlockedAccount β) : Draw (String × WrappedKey β) := do
  let letters ← Draws.each (fun _ => recoveryLetter S) (List.range (recoveryGroups * recoveryGroupLen))
  let raw := String.ofList letters
  let kek := recoveryKekFrom S raw account.accountId
  let wrapped ← wrapKey S kek account.ark (aadForRecovery account.accountId)
  pure (formatRecoveryKey raw, wrapped)

def unlockAccountWithRecoveryKey (recoveryKey : String) (keyset : AccountKeySet β) :
    Except CryptoError (UnlockedAccount β) := do
  checkVersion accountFormatVersion accountMinReadableVersion keyset.version
  match keyset.wrappedArkRecovery with
  | none => .error (.invalidArgument "recovery key not set up")
  | some wrapped =>
    let raw ← normalizeRecoveryKey recoveryKey
    let kek := recoveryKekFrom S raw keyset.accountId
    let ark ← unwrapKey S kek wrapped (aadForRecovery keyset.accountId)
    pure { accountId := keyset.accountId, ark := ark }

def resetPasswordWithRecoveryKey (recoveryKey newPassword : String) (current : AccountKeySet β) :
    Draw (AccountKeySet β) := do
  if newPassword = "" then Draws.throw (.invalidArgument "new password is empty")
  else
    let unlocked ← unlockAccountWithRecoveryKey S recoveryKey current
    let newKdf ← KdfParams.generateDefault S
    let newMuk ← deriveMuk S newPassword newKdf
    let wrappedArk ← wrapKey S newMuk unlocked.ark (aadForArk current.accountId newKdf)
    pure { version := current.version, accountId := current.accountId, createdAt := current.createdAt, kdf := newKdf,
           wrappedArk := wrappedArk, wrappedArkRecovery := current.wrappedArkRecovery, vaults := current.vaults }

variable {S}

/-! ## A shown key reads back -/

theorem flatten_chunks {n : Nat} (hn : 0 < n) : ∀ {fuel : Nat} {l : List Char}, l.length ≤ fuel →
    (chunks n fuel l).flatten = l := by
  intro fuel
  induction fuel with
  | zero => intro l h; simp [List.eq_nil_of_length_eq_zero (Nat.le_zero.mp h), chunks]
  | succ fuel ih =>
    intro l h
    cases l with
    | nil => rfl
    | cons c cs =>
      simp only [chunks, List.flatten_cons]
      rw [ih (by simp only [List.length_drop, List.length_cons] at h ⊢; omega), List.take_append_drop]

/-- Dropping the separator from a joined list leaves the groups. -/
theorem filter_intercalate {keep : Char → Bool} {sep : Char} (h : keep sep = false) (gs : List (List Char)) :
    ([sep].intercalate gs).filter keep = gs.flatten.filter keep := by
  induction gs with
  | nil => rfl
  | cons g gs ih =>
    cases gs with
    | nil => simp [List.intercalate]
    | cons g' gs =>
      rw [List.intercalate_cons_cons, List.filter_append, List.filter_append, ih]
      simp [h]

theorem dropWhile_none {p : Char → Bool} {l : List Char} (h : ∀ c ∈ l, p c = false) : l.dropWhile p = l := by
  cases l with
  | nil => rfl
  | cons c cs => rw [List.dropWhile_cons, h c List.mem_cons_self]; rfl

theorem mem_intercalate {sep c : Char} {gs : List (List Char)} (h : c ∈ [sep].intercalate gs) :
    c = sep ∨ c ∈ gs.flatten := by
  induction gs with
  | nil => simp [List.intercalate] at h
  | cons g gs ih =>
    cases gs with
    | nil => exact Or.inr (by simpa [List.intercalate] using h)
    | cons g' gs =>
      rw [List.intercalate_cons_cons, List.mem_append, List.mem_append] at h
      rcases h with (h | h) | h
      · exact Or.inr (by simp [h])
      · exact Or.inl (by simpa using h)
      · rcases ih h with h | h
        · exact Or.inl h
        · exact Or.inr (by rw [List.flatten_cons]; exact List.mem_append_right _ h)

/-- The letters are upper case, not blank, not a hyphen, and one byte of the alphabet each. -/
theorem recoveryAlphabet_spec : ∀ c ∈ recoveryAlphabet, c.toUpper = c ∧ isWhitespace c = false ∧ c ≠ '-' ∧
    ∃ b, String.utf8EncodeChar c = [b] ∧ b ∈ asBytes (String.ofList recoveryAlphabet) := by
  have h : ∀ c ∈ recoveryAlphabet, c.toUpper = c ∧ isWhitespace c = false ∧ c ≠ '-' ∧
      String.utf8EncodeChar c = [(String.utf8EncodeChar c).headD 0] ∧
      (String.utf8EncodeChar c).headD 0 ∈ recoveryAlphabet.flatMap String.utf8EncodeChar :=
    forall_of_all (by decide +kernel)
  intro c hc
  obtain ⟨hu, hw, hd, he, hm⟩ := h c hc
  exact ⟨hu, hw, hd, _, he, by rw [asBytes, String.toList_ofList]; exact hm⟩

theorem asBytes_letters {l : List Char} (h : ∀ c ∈ l, c ∈ recoveryAlphabet) :
    (asBytes (String.ofList l)).length = l.length ∧
      ∀ b ∈ asBytes (String.ofList l), b ∈ asBytes (String.ofList recoveryAlphabet) := by
  rw [asBytes, String.toList_ofList]
  induction l with
  | nil => simp
  | cons c cs ih =>
    obtain ⟨hlen, hall⟩ := ih fun c hc => h c (List.mem_cons_of_mem _ hc)
    obtain ⟨-, -, -, b, hb, hmem⟩ := recoveryAlphabet_spec c (h c List.mem_cons_self)
    rw [List.flatMap_cons, hb]
    refine ⟨by simp [hlen], fun x hx => ?_⟩
    rcases List.mem_append.mp hx with hx | hx
    · rw [List.mem_singleton.mp hx]; exact hmem
    · exact hall x hx

/-- A string of letters, digits and hyphens is read as itself without the hyphens. -/
theorem typedLetters_format {l : List Char} (h : ∀ c ∈ l, c ∈ recoveryAlphabet) :
    typedLetters (formatRecoveryKey (String.ofList l)).toList = l := by
  have hflat : (chunks recoveryGroupLen l.length l).flatten = l := flatten_chunks (by decide) (Nat.le_refl _)
  unfold formatRecoveryKey
  rw [String.toList_ofList, @String.toList_ofList l]
  have hmem : ∀ c ∈ "RK-".toList ++ ['-'].intercalate (chunks recoveryGroupLen l.length l),
      c.toUpper = c ∧ isWhitespace c = false := by
    intro c hc
    rcases List.mem_append.mp hc with hc | hc
    · have hrk : ∀ c ∈ "RK-".toList, c.toUpper = c ∧ isWhitespace c = false := forall_of_all (by decide)
      exact hrk c hc
    · rcases mem_intercalate hc with rfl | hc
      · decide
      · rw [hflat] at hc
        obtain ⟨hu, hw, -⟩ := recoveryAlphabet_spec c (h c hc)
        exact ⟨hu, hw⟩
  have hl : l.filter (fun c => !isWhitespace c && c != '-') = l := by
    refine List.filter_eq_self.mpr fun c hc => ?_
    obtain ⟨-, hw, hd, -⟩ := recoveryAlphabet_spec c (h c hc)
    simp [hw, hd]
  show stripRk ((((((_ : List Char).dropWhile _).reverse.dropWhile _).reverse).map _).filter _) = l
  rw [dropWhile_none fun c hc => (hmem c hc).2, dropWhile_none fun c hc => (hmem c (List.mem_reverse.mp hc)).2,
    List.reverse_reverse, map_fixed fun c hc => (hmem c hc).1,
    List.filter_append, filter_intercalate (by decide), hflat, hl]
  rfl

/-- What is shown for 25 letters of the alphabet reads back as those letters. -/
theorem normalize_format {l : List Char} (h : ∀ c ∈ l, c ∈ recoveryAlphabet)
    (hlen : l.length = recoveryGroups * recoveryGroupLen) :
    normalizeRecoveryKey (formatRecoveryKey (String.ofList l)) = .ok (String.ofList l) := by
  obtain ⟨hlen', hall⟩ := asBytes_letters h
  unfold normalizeRecoveryKey
  rw [typedLetters_format h]
  refine if_neg ?_
  rintro (hne | hne)
  · exact hne (hlen'.trans hlen)
  · exact hne (List.all_eq_true.mpr fun b hb => List.contains_iff_mem.mpr (hall b hb))

/-! ## What each call takes and gives -/

theorem recoveryLetter_ok {c : Char} {n n' : Nat} (h : recoveryLetter S n = .ok (c, n')) :
    c ∈ recoveryAlphabet ∧ n' = n + 1 := by
  simp only [recoveryLetter, Draws.bind_ok, Draws.pure_ok, randomBytes_ok] at h
  obtain ⟨b, _, ⟨-, rfl⟩, rfl, rfl⟩ := h
  refine ⟨?_, rfl⟩
  have hlt : ((b.toList.headD 0) &&& 0x1F).toNat < recoveryAlphabet.length := by
    rw [UInt8.toNat_and]
    exact Nat.lt_of_le_of_lt Nat.and_le_right (by decide)
  rw [List.getD_eq_getElem _ '0' hlt]
  exact List.getElem_mem hlt

/-- What is shown is 25 letters of the alphabet, formatted; the ARK is wrapped under them. -/
theorem setupRecoveryKey_shown {a : UnlockedAccount β} {shown : String} {w : WrappedKey β} {n n' : Nat}
    (h : setupRecoveryKey S a n = .ok ((shown, w), n')) :
    ∃ l : List Char, l.length = recoveryGroups * recoveryGroupLen ∧ (∀ c ∈ l, c ∈ recoveryAlphabet) ∧
      shown = formatRecoveryKey (String.ofList l) ∧
      Wraps S (recoveryKekFrom S (String.ofList l) a.accountId) a.ark (aadForRecovery a.accountId) w ∧ n < n' := by
  unfold setupRecoveryKey at h
  obtain ⟨letters, m, hl, h⟩ := Draws.bind_ok.mp h
  obtain ⟨w', _, hw, h⟩ := Draws.bind_ok.mp h
  obtain ⟨-, hwrap, rfl⟩ := wrapKey_ok.mp hw
  obtain ⟨hout, rfl⟩ := Draws.pure_ok.mp h
  rw [Prod.mk.injEq] at hout
  obtain ⟨hshown, rfl⟩ := hout
  have hf : ∀ i : Nat, (recoveryLetter S).Forward := fun _ i c j hc => by have := (recoveryLetter_ok hc).2; omega
  obtain ⟨hle, hall⟩ := Draws.each_ok hf hl
  have hlen : letters.length = recoveryGroups * recoveryGroupLen := by
    rw [← hall.length_eq, List.length_range]
  have hmem : ∀ c ∈ letters, c ∈ recoveryAlphabet := by
    intro c hc
    obtain ⟨_, -, _, _, -, -, -, h⟩ := paired_right hall hc
    exact (recoveryLetter_ok h).1
  exact ⟨letters, hlen, hmem, hshown, hwrap, by omega⟩

theorem setupRecoveryKey_ok {a : UnlockedAccount β} {shown : String} {w : WrappedKey β} {n n' : Nat}
    (h : setupRecoveryKey S a n = .ok ((shown, w), n')) :
    ∃ raw, normalizeRecoveryKey shown = .ok raw ∧
      Wraps S (recoveryKekFrom S raw a.accountId) a.ark (aadForRecovery a.accountId) w ∧ n < n' := by
  obtain ⟨l, hlen, hmem, rfl, hw, hlt⟩ := setupRecoveryKey_shown h
  exact ⟨_, normalize_format hmem hlen, hw, hlt⟩

theorem unlockAccountWithRecoveryKey_ok (hS : S.Ideal) {rk : String} {ks : AccountKeySet β} {a : UnlockedAccount β} :
    unlockAccountWithRecoveryKey S rk ks = .ok a ↔
      checkVersion accountFormatVersion accountMinReadableVersion ks.version = .ok () ∧ a.accountId = ks.accountId ∧
        ∃ w raw, ks.wrappedArkRecovery = some w ∧ normalizeRecoveryKey rk = .ok raw ∧
          Wraps S (recoveryKekFrom S raw ks.accountId) a.ark (aadForRecovery ks.accountId) w := by
  simp only [unlockAccountWithRecoveryKey, except_bind_ok]
  constructor
  · rintro ⟨⟨⟩, hver, h⟩
    cases hw : ks.wrappedArkRecovery with
    | none => rw [hw] at h; cases h
    | some w =>
      rw [hw] at h
      simp only [except_bind_ok, except_pure_ok, unwrapKey_ok hS] at h
      obtain ⟨raw, hraw, ark, hk, rfl⟩ := h
      exact ⟨hver, rfl, w, raw, rfl, hraw, hk⟩
  · rintro ⟨hver, ha, w, raw, hw, hraw, hk⟩
    refine ⟨(), hver, ?_⟩
    rw [hw]
    simp only [except_bind_ok, except_pure_ok, unwrapKey_ok hS]
    exact ⟨raw, hraw, a.ark, hk, UnlockedAccount.ext ha.symm rfl⟩

theorem resetPasswordWithRecoveryKey_ok {rk new : String} {ks next : AccountKeySet β} {n n' : Nat}
    (h : resetPasswordWithRecoveryKey S rk new ks n = .ok (next, n')) :
    ∃ a muk, unlockAccountWithRecoveryKey S rk ks = .ok a ∧ deriveMuk S new next.kdf = .ok muk ∧
      Wraps S muk a.ark (aadForArk ks.accountId next.kdf) next.wrappedArk ∧
      next = { ks with kdf := next.kdf, wrappedArk := next.wrappedArk } ∧ n < n' := by
  unfold resetPasswordWithRecoveryKey at h
  split at h
  · exact (Draws.throw_ok.mp h).elim
  · simp only [Draws.bind_ok, Draws.pure_ok, Draws.lift_ok, KdfParams.generateDefault_ok, wrapKey_ok] at h
    obtain ⟨a, _, ⟨ha, rfl⟩, kdf, _, ⟨-, rfl, -⟩, muk, _, ⟨hmuk, rfl⟩, wa, _, ⟨-, hw, rfl⟩, rfl, rfl⟩ := h
    exact ⟨a, muk, ha, hmuk, hw, rfl, by omega⟩

end RootkeyCrypto
