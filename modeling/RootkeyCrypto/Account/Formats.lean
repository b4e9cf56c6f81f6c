/-
  RootkeyCrypto.Account.Formats — which error a record of another release gives.

  `UnsupportedVersion` tells the user to install a newer release, `SchemaTooOld` an older
  one. A `Reader` is one of the ten functions that check a stored record's version, with
  everything it is given; `Reports` is the rule that its error names the side the version
  lies on, whatever the rest of the record holds.

  Proved, over every reader, version and content:
  - `reports_iff`: the rule holds for the eight readers that compare with a range, at every
    version, and for the two that compare with one version from the oldest readable one on.
  - `an_older_identity`: an identity of the first release is reported as a newer one's.
-/

import RootkeyCrypto.Core.Identity
import RootkeyCrypto.Core.Recovery

namespace RootkeyCrypto

open Lib

variable {β : Type} (S : Suite β)

/-! ## Records and readers -/

/-- The record types that carry a version. -/
inductive RecordType where
  | encryptedKeySet | accountKeySet | vaultKeySlot | biometricEnvelope | accountBiometricEnvelope
  | encryptedItemBlob | wrappedIdentity | encryptedSharedItem
  deriving DecidableEq

namespace RecordType

/-- The version this release writes. -/
def newest : RecordType → UInt16
  | encryptedKeySet | biometricEnvelope => keysetFormatVersion
  | accountKeySet | vaultKeySlot | accountBiometricEnvelope => accountFormatVersion
  | encryptedItemBlob => itemFormatVersion
  | wrappedIdentity => wrappedIdentityVersion
  | encryptedSharedItem => sharedItemVersion

/-- The oldest version this release reads. -/
def oldest : RecordType → UInt16
  | encryptedKeySet | biometricEnvelope => keysetMinReadableVersion
  | accountKeySet | vaultKeySlot | accountBiometricEnvelope => accountMinReadableVersion
  | encryptedItemBlob => itemMinReadableVersion
  | wrappedIdentity => wrappedIdentityVersion
  | encryptedSharedItem => sharedItemVersion

end RecordType

/-- A reader and what it is given. -/
inductive Reader (β : Type) where
  | unlockVault (password : String) (keyset : EncryptedKeySet β)
  | unlockViaBiometric (wrapperKey : Arr β 32) (envelope : BiometricEnvelope β) (keyset : EncryptedKeySet β)
  | unlockAccount (password : String) (keyset : AccountKeySet β)
  | unlockAccountVault (account : UnlockedAccount β) (entry : AccountVaultEntry β) (slot : VaultKeySlot β)
  | unlockAccountWithRecoveryKey (recoveryKey : String) (keyset : AccountKeySet β)
  | unlockAccountViaBiometric (wrapperKey : Arr β 32) (envelope : AccountBiometricEnvelope β)
      (keyset : AccountKeySet β)
  | decryptItem (encrypted : EncryptedItemBlob β) (itemId : Id) (vault : UnlockedVault β)
  | rewrapItemKey (oldVault newVault : UnlockedVault β) (encrypted : EncryptedItemBlob β) (itemId : Id) (pos : Nat)
  | unwrapWithVault (wrapped : WrappedIdentity β) (vault : UnlockedVault β)
  | decryptSharedItem (encrypted : EncryptedSharedItem β) (sharedVaultKey : Arr β 32) (sharedVaultId : Id)

namespace Reader

/-- The type of the record whose version is checked. -/
def type : Reader β → RecordType
  | unlockVault .. => .encryptedKeySet
  | unlockViaBiometric .. => .biometricEnvelope
  | unlockAccount .. => .accountKeySet
  | unlockAccountVault .. => .vaultKeySlot
  | unlockAccountWithRecoveryKey .. => .accountKeySet
  | unlockAccountViaBiometric .. => .accountBiometricEnvelope
  | decryptItem .. => .encryptedItemBlob
  | rewrapItemKey .. => .encryptedItemBlob
  | unwrapWithVault .. => .wrappedIdentity
  | decryptSharedItem .. => .encryptedSharedItem

/-- The version the record carries. -/
def version : Reader β → UInt16
  | unlockVault _ keyset => keyset.version
  | unlockViaBiometric _ envelope _ => envelope.version
  | unlockAccount _ keyset => keyset.version
  | unlockAccountVault _ _ slot => slot.version
  | unlockAccountWithRecoveryKey _ keyset => keyset.version
  | unlockAccountViaBiometric _ envelope _ => envelope.version
  | decryptItem encrypted _ _ => encrypted.version
  | rewrapItemKey _ _ encrypted _ _ => encrypted.version
  | unwrapWithVault wrapped _ => wrapped.schemaVersion
  | decryptSharedItem encrypted _ _ => encrypted.version

/-- The reader fails with this error. -/
def Fails : Reader β → CryptoError → Prop
  | unlockVault pw ks, e => RootkeyCrypto.unlockVault S pw ks = .error e
  | unlockViaBiometric w env ks, e => RootkeyCrypto.unlockViaBiometric S w env ks = .error e
  | unlockAccount pw ks, e => RootkeyCrypto.unlockAccount S pw ks = .error e
  | unlockAccountVault a entry s, e => RootkeyCrypto.unlockAccountVault S a entry s = .error e
  | unlockAccountWithRecoveryKey rk ks, e => RootkeyCrypto.unlockAccountWithRecoveryKey S rk ks = .error e
  | unlockAccountViaBiometric w env ks, e => RootkeyCrypto.unlockAccountViaBiometric S w env ks = .error e
  | decryptItem x id v, e => RootkeyCrypto.decryptItem S x id v = .error e
  | rewrapItemKey v v' x id pos, e => RootkeyCrypto.rewrapItemKey S v v' x id pos = .error e
  | unwrapWithVault x v, e => RootkeyCrypto.unwrapWithVault S x v = .error e
  | decryptSharedItem x k v, e => RootkeyCrypto.decryptSharedItem S x k v = .error e

end Reader

/-- The reader's error names the side its record's version lies on. -/
structure Reports (r : Reader β) : Prop where
  newer : ∀ v, r.Fails S (.unsupportedVersion v) ↔ v = r.version ∧ r.type.newest < v
  older : ∀ v, r.Fails S (.schemaTooOld v) ↔ v = r.version ∧ v < r.type.oldest

variable {S}

/-! ## Steps that know nothing of versions -/

/-- One of the two errors about versions. -/
def CryptoError.OfVersion : CryptoError → Prop
  | .unsupportedVersion _ => True
  | .schemaTooOld _ => True
  | _ => False

/-- The computation never fails with an error about versions. -/
def Quiet {α : Type} (x : Except CryptoError α) : Prop := ∀ e, x = .error e → ¬ e.OfVersion

namespace Quiet

variable {α γ : Type}

theorem ok (a : α) : Quiet (.ok a) := by
  intro e h
  cases h

theorem fail {e : CryptoError} (h : ¬ e.OfVersion) : Quiet (.error e : Except CryptoError α) := by
  intro e' h'
  cases h'
  exact h

theorem bind {x : Except CryptoError α} {f : α → Except CryptoError γ} (hx : Quiet x) (hf : ∀ a, Quiet (f a)) :
    Quiet (x >>= f) := by
  intro e h
  rw [except_bind_error] at h
  rcases h with h | ⟨a, -, h⟩
  · exact hx e h
  · exact hf a e h

theorem tryFromSlice (slice : List β) : Quiet (tryFromSlice slice) := by
  unfold RootkeyCrypto.tryFromSlice
  split
  · exact ok _
  · exact fail id

theorem unwrapKey (k : SymmetricKey β) (w : WrappedKey β) (a : List UInt8) : Quiet (unwrapKey S k w a) := by
  unfold RootkeyCrypto.unwrapKey
  split
  · exact tryFromSlice _
  · exact fail id

theorem openBlob (k : SymmetricKey β) (b : SealedBlob β) (a : List UInt8) : Quiet (openBlob S k b a) := by
  unfold RootkeyCrypto.openBlob
  split
  · exact ok _
  · exact fail id

theorem validate (p : KdfParams) : Quiet p.validate := by
  unfold KdfParams.validate
  split
  · exact fail id
  · split
    · exact fail id
    · exact ok _

theorem deriveMuk (pw : String) (p : KdfParams) : Quiet (deriveMuk S pw p) := by
  unfold RootkeyCrypto.deriveMuk
  split
  · exact fail id
  · refine bind (validate p) fun _ => ?_
    split
    split
    · exact ok _
    · exact fail id

theorem normalizeRecoveryKey (s : String) : Quiet (normalizeRecoveryKey s) := by
  unfold RootkeyCrypto.normalizeRecoveryKey
  simp only
  split
  · exact fail id
  · exact ok _

theorem unlockBelow (a v : Id) (k : KeyEncryptionKey β) (wv wi : WrappedKey β) : Quiet (unlockBelow S a v k wv wi) :=
  bind (unwrapKey _ _ _) fun _ => bind (unwrapKey _ _ _) fun _ => ok _

theorem randomBytes (n pos : Nat) : Quiet (randomBytes S n pos) := by
  unfold RootkeyCrypto.randomBytes
  split
  · exact ok _
  · exact fail id

theorem draws {x : Draw α} {f : α → Draw γ} {pos : Nat} (hx : Quiet (x pos)) (hf : ∀ a m, Quiet (f a m)) :
    Quiet ((x >>= f) pos) := by
  intro e h
  rw [Draws.bind_error] at h
  rcases h with h | ⟨a, m, -, h⟩
  · exact hx e h
  · exact hf a m e h

theorem lift {x : Except CryptoError α} {pos : Nat} (hx : Quiet x) : Quiet ((liftM x : Draw α) pos) := by
  intro e h
  rw [Draws.lift_error] at h
  exact hx e h

theorem wrapKey (k p : SymmetricKey β) (a : List UInt8) (pos : Nat) : Quiet (wrapKey S k p a pos) := by
  refine draws (randomBytes _ _) fun nonce m => ?_
  cases S.aesGcmSiv.encrypt k nonce a p.toList with
  | none => exact fail id
  | some c => exact ok _

end Quiet

/-! ## The two ways to check -/

section Checks

variable {α : Type} {newest oldest v w : UInt16} {rest : Except CryptoError α}

/-- A range check before quiet steps fails with `unsupportedVersion` above the range only. -/
theorem checkVersion_newer (hq : Quiet rest) :
    (checkVersion newest oldest v >>= fun _ => rest) = .error (.unsupportedVersion w) ↔ w = v ∧ newest < w := by
  rw [except_bind_error]
  unfold checkVersion
  split
  · rename_i h
    constructor
    · intro h'
      rcases h' with h' | ⟨_, h', _⟩
      · cases h'
        exact ⟨rfl, h⟩
      · cases h'
    · intro h'
      exact Or.inl (by rw [h'.1])
  · rename_i h
    constructor
    · intro h'
      rcases h' with h' | ⟨_, _, h'⟩
      · split at h' <;> cases h'
      · exact absurd trivial (hq _ h')
    · intro h'
      exact absurd (h'.1 ▸ h'.2) h

/-- And with `schemaTooOld` below it only. -/
theorem checkVersion_older (hle : oldest ≤ newest) (hq : Quiet rest) :
    (checkVersion newest oldest v >>= fun _ => rest) = .error (.schemaTooOld w) ↔ w = v ∧ w < oldest := by
  rw [except_bind_error]
  unfold checkVersion
  split
  · rename_i h
    constructor
    · intro h'
      rcases h' with h' | ⟨_, h', _⟩ <;> cases h'
    · intro h'
      rw [h'.1] at h'
      exact absurd (UInt16.lt_of_lt_of_le h'.2 hle) (UInt16.lt_asymm h)
  · split
    · rename_i h
      constructor
      · intro h'
        rcases h' with h' | ⟨_, h', _⟩
        · cases h'
          exact ⟨rfl, h⟩
        · cases h'
      · intro h'
        exact Or.inl (by rw [h'.1])
    · rename_i h
      constructor
      · intro h'
        rcases h' with h' | ⟨_, _, h'⟩
        · cases h'
        · exact absurd trivial (hq _ h')
      · intro h'
        exact absurd (h'.1 ▸ h'.2) h

/-- A comparison with one version fails with `unsupportedVersion` on either side of it, and
    with `schemaTooOld` on neither. -/
theorem onlyVersion_fails (newest v w : UInt16) (hq : Quiet rest) :
    ((if v ≠ newest then .error (.unsupportedVersion v) else rest) = .error (.unsupportedVersion w) ↔
      w = v ∧ w ≠ newest) ∧
    (if v ≠ newest then .error (.unsupportedVersion v) else rest) ≠ .error (.schemaTooOld w) := by
  split
  · rename_i h
    refine ⟨⟨fun h' => ?_, fun h' => by rw [h'.1]⟩, fun h' => by cases h'⟩
    cases h'
    exact ⟨rfl, h⟩
  · rename_i h
    refine ⟨⟨fun h' => absurd trivial (hq _ h'), fun h' => ?_⟩, fun h' => hq _ h' trivial⟩
    exact absurd (h'.1 ▸ h'.2) h

end Checks

/-! ## Every reader -/

/-- The readers that compare the version with a range. -/
def Ranged (t : RecordType) : Prop := t ≠ .wrappedIdentity ∧ t ≠ .encryptedSharedItem

theorem oldest_le_newest (t : RecordType) : t.oldest ≤ t.newest := by
  cases t <;> decide

theorem reports_of_range {r : Reader β} {α : Type} {rest : Except CryptoError α}
    (hr : ∀ e, r.Fails S e ↔ (checkVersion r.type.newest r.type.oldest r.version >>= fun _ => rest) = .error e)
    (hq : Quiet rest) : Reports S r := by
  constructor
  · intro v
    rw [hr]
    exact checkVersion_newer hq
  · intro v
    rw [hr]
    exact checkVersion_older (oldest_le_newest _) hq

theorem ranged_reports (r : Reader β) (h : Ranged r.type) : Reports S r := by
  cases r with
  | unlockVault pw ks =>
    refine reports_of_range (fun e => Iff.rfl) (.bind (.validate _) fun _ => .bind (.deriveMuk _ _) fun _ => ?_)
    exact .bind (.unwrapKey _ _ _) fun _ => .unlockBelow _ _ _ _ _
  | unlockViaBiometric w env ks =>
    refine reports_of_range (fun e => Iff.rfl) ?_
    split
    · exact .fail id
    · exact .bind (.tryFromSlice _) fun _ => .bind (.unwrapKey _ _ _) fun _ => .unlockBelow _ _ _ _ _
  | unlockAccount pw ks =>
    refine reports_of_range (fun e => Iff.rfl) (.bind (.validate _) fun _ => .bind (.deriveMuk _ _) fun _ => ?_)
    exact .bind (.unwrapKey _ _ _) fun _ => .ok _
  | unlockAccountVault a entry s =>
    refine reports_of_range (fun e => Iff.rfl) ?_
    split
    · exact .fail id
    · exact .bind (.unwrapKey _ _ _) fun _ => .unlockBelow _ _ _ _ _
  | unlockAccountWithRecoveryKey rk ks =>
    refine reports_of_range (fun e => Iff.rfl) ?_
    split
    · exact .fail id
    · exact .bind (.normalizeRecoveryKey _) fun _ => .bind (.unwrapKey _ _ _) fun _ => .ok _
  | unlockAccountViaBiometric w env ks =>
    refine reports_of_range (fun e => Iff.rfl) ?_
    split
    · exact .fail id
    · exact .bind (.tryFromSlice _) fun _ => .bind (.unwrapKey _ _ _) fun _ => .ok _
  | decryptItem x id v =>
    exact reports_of_range (fun e => Iff.rfl) (.bind (.unwrapKey _ _ _) fun _ => .openBlob _ _ _)
  | rewrapItemKey v v' x id pos =>
    refine reports_of_range (fun e => by rw [← Draws.lift_bind]; rfl) (.draws (.lift (.unwrapKey _ _ _)) fun k _ => ?_)
    exact .draws (.wrapKey _ _ _ _) fun _ _ => .ok _
  | unwrapWithVault x v => exact absurd rfl h.1
  | decryptSharedItem x k v => exact absurd rfl h.2

/-- A reader that knows one version only reports one side. -/
theorem fails_of_one (S : Suite β) {r : Reader β} (h : ¬ Ranged r.type) (v : UInt16) :
    (r.Fails S (.unsupportedVersion v) ↔ v = r.version ∧ v ≠ r.type.newest) ∧ ¬ r.Fails S (.schemaTooOld v) ∧
      r.type.oldest = r.type.newest := by
  cases r with
  | unwrapWithVault x w =>
    have hq : Quiet (openBlob S w.kek x.envelope (identityAad w.accountId) >>= fun p =>
        if h : p.length = x25519SecretKeyLen + ed25519SeedLen then
          pure (Identity.fromSeeds S ⟨p.take x25519SecretKeyLen, by simp [h, x25519SecretKeyLen, ed25519SeedLen]⟩
            ⟨p.drop x25519SecretKeyLen, by simp [h, x25519SecretKeyLen, ed25519SeedLen]⟩)
        else .error (.invalidArgument "identity plaintext length must be 64 bytes")) := by
      refine .bind (.openBlob _ _ _) fun p => ?_
      split
      · exact .ok _
      · exact .fail id
    obtain ⟨hnew, hold⟩ := onlyVersion_fails wrappedIdentityVersion x.schemaVersion v hq
    exact ⟨hnew, hold, rfl⟩
  | decryptSharedItem x k w =>
    have hq : Quiet (openBlob S k x.blob (sharedItemAad w)) := .openBlob _ _ _
    obtain ⟨hnew, hold⟩ := onlyVersion_fails sharedItemVersion x.version v hq
    exact ⟨hnew, hold, rfl⟩
  | _ =>
    refine absurd ⟨?_, ?_⟩ h
    · intro h'
      cases h'
    · intro h'
      cases h'

/-- The rule holds of every record whose reader compares with a range, and of the others
    from the oldest readable version on. -/
theorem reports_iff (r : Reader β) : Reports S r ↔ Ranged r.type ∨ r.type.oldest ≤ r.version := by
  by_cases hr : Ranged r.type
  · exact ⟨fun _ => Or.inl hr, fun _ => ranged_reports r hr⟩
  · constructor
    · intro h
      refine Or.inr (UInt16.not_lt.mp fun hlt => ?_)
      obtain ⟨hf, -, hone⟩ := fails_of_one S hr r.version
      have hne : r.version ≠ r.type.newest := hone ▸ UInt16.ne_of_lt hlt
      have hnew := ((h.newer _).mp (hf.mpr ⟨rfl, hne⟩)).2
      exact UInt16.lt_asymm (hone ▸ hlt) hnew
    · intro h
      have hle : r.type.oldest ≤ r.version := h.resolve_left hr
      constructor
      · intro v
        obtain ⟨hf, -, hone⟩ := fails_of_one S hr v
        rw [hf]
        constructor
        · intro h
          obtain ⟨hv, hne⟩ := h
          rw [← hv, hone] at hle
          exact ⟨hv, UInt16.lt_of_le_of_ne hle (Ne.symm hne)⟩
        · intro h
          obtain ⟨hv, hlt⟩ := h
          exact ⟨hv, (UInt16.ne_of_lt hlt).symm⟩
      · intro v
        constructor
        · intro h'
          exact absurd h' (fails_of_one S hr v).2.1
        · intro h
          obtain ⟨hv, hlt⟩ := h
          exact absurd hlt (UInt16.not_lt.mpr (hv ▸ hle))

/-- An identity of the first release. -/
def olderIdentity : WrappedIdentity Term :=
  { schemaVersion := 1, envelope := { nonce := .replicate 24 0, ciphertext := [] } }

theorem an_older_identity :
    unwrapWithVault demo.suite olderIdentity demoVault.1.unlocked = .error (.unsupportedVersion 1) ∧
      ¬ Reports demo.suite (.unwrapWithVault olderIdentity demoVault.1.unlocked) := by
  refine ⟨rfl, fun h => ?_⟩
  exact absurd ((h.newer 1).mp rfl).2 (by decide)

end RootkeyCrypto
