/-
  RootkeyCrypto.Account.Baseline — KDF parameters below the client's minimum.

  `validate` refuses parameters that are below the minimum in memory, time or lanes, or
  whose salt is all zero (`Weak`), and a keyset that carries such parameters is not to be
  unlocked, whoever wrote it. An `UnlockPath` is one of the six functions that unlock a
  keyset, with everything it is given. Two of them start from the master password and
  validate the parameters on the way; four start from a key, follow the stored ciphertexts
  from there (`Unwraps`), and read the parameters nowhere (`unlocks_withKdf`).

  Proved, over every suite, every path and every content of the records:
  - `baseline_iff`: a path refuses weak parameters exactly when it starts from the password,
    the parameters are not weak, or what is stored does not open from its key anyway; and
    whatever the crate writes validates (`Written`).
  - `a_weak_vault`: a vault whose stored memory cost was set to 8 KiB, unlocked with the
    fingerprint.
-/

import RootkeyCrypto.Core.Export
import RootkeyCrypto.Core.Recovery

namespace RootkeyCrypto

open Lib

/-! ## Weak parameters -/

def KdfParams.Weak (p : KdfParams) : Prop :=
  p.memoryKib < minMemoryKib ∨ p.timeCost < minTimeCost ∨ p.parallelism < minParallelism ∨ ∀ b ∈ p.salt.toList, b = 0

theorem KdfParams.validate_iff {p : KdfParams} : p.validate = .ok () ↔ ¬ p.Weak := by
  have hsalt : p.salt.toList.all (· == 0) = true ↔ ∀ b ∈ p.salt.toList, b = 0 := by
    simp only [List.all_eq_true, beq_iff_eq]
  unfold validate Weak
  split
  · rename_i hnum
    refine ⟨fun h => (by cases h), fun h => absurd ?_ h⟩
    rcases hnum with hm | ht | hp
    · exact Or.inl hm
    · exact Or.inr (Or.inl ht)
    · exact Or.inr (Or.inr (Or.inl hp))
  · rename_i hnum
    rw [not_or, not_or] at hnum
    split
    · rename_i hzero
      exact ⟨fun h => (by cases h), fun h => absurd (Or.inr (Or.inr (Or.inr (hsalt.mp hzero)))) h⟩
    · rename_i hzero
      rw [hsalt] at hzero
      refine ⟨fun _ => ?_, fun _ => rfl⟩
      rintro (hm | ht | hp | hs)
      · exact hnum.1 hm
      · exact hnum.2.1 ht
      · exact hnum.2.2 hp
      · exact hzero hs

variable {β : Type} (S : Suite β)

/-! ## Paths -/

/-- A way to unlock a keyset, and what it is given. -/
inductive UnlockPath (β : Type) where
  | unlockVault (password : String) (keyset : EncryptedKeySet β)
  | unlockViaBiometric (wrapperKey : Arr β 32) (envelope : BiometricEnvelope β) (keyset : EncryptedKeySet β)
  | unlockAccount (password : String) (keyset : AccountKeySet β)
  | unlockAccountWithRecoveryKey (recoveryKey : String) (keyset : AccountKeySet β)
  | unlockAccountViaBiometric (wrapperKey : Arr β 32) (envelope : AccountBiometricEnvelope β)
      (keyset : AccountKeySet β)
  | unlockAccountWithArk (ark : Arr β 32) (keyset : AccountKeySet β)

/-- The call returns a value. -/
def Returns {α : Type} (x : Except CryptoError α) : Prop := ∃ a, x = .ok a

/-- From a key, each stored key opens the next. -/
def Unwraps (k : SymmetricKey β) : List (WrappedKey β × List UInt8) → Prop
  | [] => True
  | (wrapped, aad) :: rest => ∃ key, unwrapKey S k wrapped aad = .ok key ∧ Unwraps key rest

/-- What is stored under a vault's KEK. -/
def belowKek (accountId vaultId : Id) (wrappedVmk wrappedIkek : WrappedKey β) : List (WrappedKey β × List UInt8) :=
  [(wrappedVmk, aadForVmk accountId vaultId), (wrappedIkek, aadForIkek vaultId)]

namespace UnlockPath

/-- The parameters of the keyset. -/
def kdf : UnlockPath β → KdfParams
  | unlockVault _ keyset => keyset.kdf
  | unlockViaBiometric _ _ keyset => keyset.kdf
  | unlockAccount _ keyset => keyset.kdf
  | unlockAccountWithRecoveryKey _ keyset => keyset.kdf
  | unlockAccountViaBiometric _ _ keyset => keyset.kdf
  | unlockAccountWithArk _ keyset => keyset.kdf

/-- The same, with other parameters written into the keyset. -/
def withKdf (kdf : KdfParams) : UnlockPath β → UnlockPath β
  | unlockVault pw ks => unlockVault pw { ks with kdf := kdf }
  | unlockViaBiometric w env ks => unlockViaBiometric w env { ks with kdf := kdf }
  | unlockAccount pw ks => unlockAccount pw { ks with kdf := kdf }
  | unlockAccountWithRecoveryKey rk ks => unlockAccountWithRecoveryKey rk { ks with kdf := kdf }
  | unlockAccountViaBiometric w env ks => unlockAccountViaBiometric w env { ks with kdf := kdf }
  | unlockAccountWithArk ark ks => unlockAccountWithArk ark { ks with kdf := kdf }

/-- The path returns an unlocked handle. -/
def Unlocks : UnlockPath β → Prop
  | unlockVault pw ks => Returns (RootkeyCrypto.unlockVault S pw ks)
  | unlockViaBiometric w env ks => Returns (RootkeyCrypto.unlockViaBiometric S w env ks)
  | unlockAccount pw ks => Returns (RootkeyCrypto.unlockAccount S pw ks)
  | unlockAccountWithRecoveryKey rk ks => Returns (RootkeyCrypto.unlockAccountWithRecoveryKey S rk ks)
  | unlockAccountViaBiometric w env ks => Returns (RootkeyCrypto.unlockAccountViaBiometric S w env ks)
  | unlockAccountWithArk ark ks => Returns (RootkeyCrypto.unlockAccountWithArk S ark ks)

/-- The path starts from the master password. -/
def FromPassword : UnlockPath β → Prop
  | unlockVault _ _ | unlockAccount _ _ => True
  | _ => False

/-- The path starts from a key, and what is stored opens from there. -/
def OpensFromKey : UnlockPath β → Prop
  | unlockVault _ _ | unlockAccount _ _ => False
  | unlockViaBiometric w env ks =>
    checkVersion keysetFormatVersion keysetMinReadableVersion env.version = .ok () ∧ env.vaultId = ks.vaultId ∧
      Unwraps S w ((env.wrappedKek, aadForBiometric ks.vaultId) ::
        belowKek ks.accountId ks.vaultId ks.wrappedVmk ks.wrappedIkek)
  | unlockAccountWithRecoveryKey rk ks =>
    checkVersion accountFormatVersion accountMinReadableVersion ks.version = .ok () ∧
      ∃ w raw, ks.wrappedArkRecovery = some w ∧ normalizeRecoveryKey rk = .ok raw ∧
        Unwraps S (recoveryKekFrom S raw ks.accountId) [(w, aadForRecovery ks.accountId)]
  | unlockAccountViaBiometric w env ks =>
    checkVersion accountFormatVersion accountMinReadableVersion env.version = .ok () ∧ env.accountId = ks.accountId ∧
      Unwraps S w [(env.wrappedArk, aadForAccountBiometric ks.accountId)]
  | unlockAccountWithArk ark ks =>
    ∃ entry, ks.vaults.head? = some entry ∧
      Unwraps S ark [(entry.wrappedKek, aadForVaultKek ks.accountId entry.vaultId)]

/-- Weak parameters are refused. -/
def RefusesWeak (p : UnlockPath β) : Prop := p.kdf.Weak → ¬ p.Unlocks S

end UnlockPath

/-- The parameters of a keyset, or of a bundle, that a call wrote. -/
inductive Written (S : Suite β) : KdfParams → Prop
  | createVaultKeys {pw r n n'} (h : createVaultKeys S pw n = .ok (r, n')) : Written S r.encrypted.kdf
  | createAccount {pw r n n'} (h : createAccount S pw n = .ok (r, n')) : Written S r.encrypted.kdf
  | changeMasterPassword {old new ks next n n'} (h : changeMasterPassword S old new ks n = .ok (next, n')) :
      Written S next.kdf
  | changeAccountPassword {old new ks next n n'} (h : changeAccountPassword S old new ks n = .ok (next, n')) :
      Written S next.kdf
  | resetPasswordWithRecoveryKey {rk new ks next n n'}
      (h : resetPasswordWithRecoveryKey S rk new ks n = .ok (next, n')) : Written S next.kdf
  | rotateAccountRootKey {pw ks next a n n'} (h : rotateAccountRootKey S pw ks n = .ok ((next, a), n')) :
      Written S next.kdf
  | rekeyAccount {old new ks slots r n n'} (h : rekeyAccount S old new ks slots n = .ok (r, n')) :
      Written S r.encrypted.kdf
  | sealWithPassword {pw p b n n'} (h : sealWithPassword S pw p n = .ok (b, n')) : Written S b.kdf

variable {S}

/-! ## Chains -/

section Chains

variable {α γ : Type}

theorem returns_ok (a : α) : Returns (.ok a) := ⟨a, rfl⟩

theorem returns_bind {x : Except CryptoError α} {f : α → Except CryptoError γ} :
    Returns (x >>= f) ↔ ∃ a, x = .ok a ∧ Returns (f a) := by
  constructor
  · intro h
    obtain ⟨c, hc⟩ := h
    obtain ⟨a, ha, hf⟩ := except_bind_ok.mp hc
    exact ⟨a, ha, c, hf⟩
  · intro h
    obtain ⟨a, ha, c, hf⟩ := h
    exact ⟨c, except_bind_ok.mpr ⟨a, ha, hf⟩⟩

theorem returns_check {x : Except CryptoError Unit} {f : Unit → Except CryptoError γ} :
    Returns (x >>= f) ↔ x = .ok () ∧ Returns (f ()) := by
  rw [returns_bind]
  exact ⟨fun ⟨_, h⟩ => h, fun h => ⟨(), h⟩⟩

/-- One step of a chain, when the rest of the chain is the rest of the call. -/
theorem returns_unwrap {k : SymmetricKey β} {w : WrappedKey β} {a : List UInt8}
    {f : SymmetricKey β → Except CryptoError γ} {rest : List (WrappedKey β × List UInt8)}
    (hf : ∀ key, Returns (f key) ↔ Unwraps S key rest) :
    Returns (unwrapKey S k w a >>= f) ↔ Unwraps S k ((w, a) :: rest) := by
  rw [returns_bind]
  constructor
  · intro h
    obtain ⟨key, hkey, h⟩ := h
    exact ⟨key, hkey, (hf key).mp h⟩
  · intro h
    obtain ⟨key, hkey, h⟩ := h
    exact ⟨key, hkey, (hf key).mpr h⟩

/-- The last step. -/
theorem returns_last {k : SymmetricKey β} {w : WrappedKey β} {a : List UInt8} {f : SymmetricKey β → γ} :
    Returns (unwrapKey S k w a >>= fun key => pure (f key)) ↔ Unwraps S k [(w, a)] :=
  returns_unwrap fun key => ⟨fun _ => trivial, fun _ => returns_ok (f key)⟩

theorem returns_below {accountId vaultId : Id} {kek : KeyEncryptionKey β} {wv wi : WrappedKey β} :
    Returns (unlockBelow S accountId vaultId kek wv wi) ↔ Unwraps S kek (belowKek accountId vaultId wv wi) :=
  returns_unwrap fun _ => returns_last

end Chains

/-! ## Which paths look -/

namespace UnlockPath

/-- From the password the parameters are validated. -/
theorem password_validates {p : UnlockPath β} (hp : p.FromPassword) (h : p.Unlocks S) : p.kdf.validate = .ok () := by
  cases p with
  | unlockVault pw ks =>
    obtain ⟨-, h⟩ := returns_check.mp h
    exact (returns_check.mp h).1
  | unlockAccount pw ks =>
    obtain ⟨-, h⟩ := returns_check.mp h
    exact (returns_check.mp h).1
  | _ => exact hp.elim

/-- From a key the parameters are not read. -/
theorem unlocks_withKdf {p : UnlockPath β} (hp : ¬ p.FromPassword) (kdf : KdfParams) :
    (p.withKdf kdf).Unlocks S ↔ p.Unlocks S := by
  cases p with
  | unlockVault => exact absurd trivial hp
  | unlockAccount => exact absurd trivial hp
  | _ => exact Iff.rfl

/-- From a key a path unlocks what opens from the key. -/
theorem unlocks_iff {p : UnlockPath β} (hp : ¬ p.FromPassword) : p.Unlocks S ↔ p.OpensFromKey S := by
  cases p with
  | unlockVault => exact absurd trivial hp
  | unlockAccount => exact absurd trivial hp
  | unlockViaBiometric w env ks =>
    refine Iff.trans returns_check (and_congr_right fun _ => ?_)
    by_cases hid : env.vaultId = ks.vaultId
    · rw [if_neg (not_not.mpr hid), tryFromSlice_toList]
      exact Iff.trans (returns_unwrap fun _ => returns_below) ⟨fun h => ⟨hid, h⟩, fun h => h.2⟩
    · rw [if_pos hid]
      exact ⟨fun ⟨_, h⟩ => (by cases h), fun h => absurd h.1 hid⟩
  | unlockAccountWithRecoveryKey rk ks =>
    refine Iff.trans returns_check (and_congr_right fun _ => ?_)
    cases hw : ks.wrappedArkRecovery with
    | none => exact ⟨fun ⟨_, h⟩ => (by cases h), fun ⟨_, _, h, _⟩ => (by cases h)⟩
    | some w =>
      refine Iff.trans returns_bind ⟨?_, ?_⟩
      · intro h
        obtain ⟨raw, hraw, h⟩ := h
        exact ⟨w, raw, rfl, hraw, returns_last.mp h⟩
      · intro h
        obtain ⟨w', raw, hw', hraw, h⟩ := h
        cases hw'
        exact ⟨raw, hraw, returns_last.mpr h⟩
  | unlockAccountViaBiometric w env ks =>
    refine Iff.trans returns_check (and_congr_right fun _ => ?_)
    by_cases hid : env.accountId = ks.accountId
    · rw [if_neg (not_not.mpr hid), tryFromSlice_toList]
      exact Iff.trans returns_last ⟨fun h => ⟨hid, h⟩, fun h => h.2⟩
    · rw [if_pos hid]
      exact ⟨fun ⟨_, h⟩ => (by cases h), fun h => absurd h.1 hid⟩
  | unlockAccountWithArk ark ks =>
    show Returns (tryFromSlice ark.toList >>= _) ↔ ∃ entry, _
    rw [tryFromSlice_toList, returns_bind]
    cases he : ks.vaults.head? with
    | none => exact ⟨fun ⟨_, _, _, h⟩ => (by cases h), fun ⟨_, h, _⟩ => (by cases h)⟩
    | some entry =>
      constructor
      · intro h
        obtain ⟨ark', hark, h⟩ := h
        cases hark
        exact ⟨entry, rfl, returns_last.mp h⟩
      · intro h
        obtain ⟨entry', he', h⟩ := h
        cases he'
        exact ⟨ark, rfl, returns_last.mpr h⟩

/-- A path lets weak parameters through exactly when it starts from a key that opens what is stored. -/
theorem refusesWeak_iff (p : UnlockPath β) :
    p.RefusesWeak S ↔ ¬ p.kdf.Weak ∨ p.FromPassword ∨ ¬ p.OpensFromKey S := by
  by_cases hp : p.FromPassword
  · refine ⟨fun _ => Or.inr (Or.inl hp), fun _ hweak hun => ?_⟩
    exact KdfParams.validate_iff.mp (password_validates hp hun) hweak
  · rw [RefusesWeak, unlocks_iff hp]
    constructor
    · intro h
      by_cases hweak : p.kdf.Weak
      · exact Or.inr (Or.inr (h hweak))
      · exact Or.inl hweak
    · rintro (h | h | h) hweak
      · exact absurd hweak h
      · exact absurd h hp
      · exact h

end UnlockPath

/-! ## What is written -/

/-- Every call that writes parameters derives a key from them. -/
theorem Written.derives {kdf : KdfParams} (h : Written S kdf) : ∃ pw muk, deriveMuk S pw kdf = .ok muk := by
  cases h with
  | createVaultKeys h =>
    obtain ⟨-, ⟨muk, hmuk, -⟩, -⟩ := createVaultKeys_ok h
    exact ⟨_, muk, hmuk⟩
  | createAccount h =>
    obtain ⟨kdf, muk, wa, henc, hmuk, -⟩ := createAccount_ok h
    rw [henc]
    exact ⟨_, muk, hmuk⟩
  | changeMasterPassword h =>
    obtain ⟨_, muk, -, hmuk, -⟩ := changeMasterPassword_ok h
    exact ⟨_, muk, hmuk⟩
  | changeAccountPassword h =>
    obtain ⟨_, muk, -, hmuk, -⟩ := changeAccountPassword_ok h
    exact ⟨_, muk, hmuk⟩
  | resetPasswordWithRecoveryKey h =>
    obtain ⟨_, muk, -, hmuk, -⟩ := resetPasswordWithRecoveryKey_ok h
    exact ⟨_, muk, hmuk⟩
  | rotateAccountRootKey h =>
    obtain ⟨muk, hmuk⟩ := rotateAccountRootKey_derives h
    exact ⟨_, muk, hmuk⟩
  | rekeyAccount h =>
    obtain ⟨_, muk, -, -, -, hmuk, -⟩ := rekeyAccount_ok h
    exact ⟨_, muk, hmuk⟩
  | sealWithPassword h =>
    obtain ⟨-, -, muk, hmuk, -⟩ := sealWithPassword_ok h
    exact ⟨_, muk, hmuk⟩

theorem Written.validates {kdf : KdfParams} (h : Written S kdf) : kdf.validate = .ok () := by
  obtain ⟨_, _, hmuk⟩ := h.derives
  exact (deriveMuk_ok.mp hmuk).2.1

/-- Weak parameters are refused unless what is stored opens from a key, and are never written. -/
theorem baseline_iff : (∀ p : UnlockPath β, p.RefusesWeak S ↔ ¬ p.kdf.Weak ∨ p.FromPassword ∨ ¬ p.OpensFromKey S) ∧
    ∀ kdf, Written S kdf → kdf.validate = .ok () :=
  ⟨UnlockPath.refusesWeak_iff, fun _ h => h.validates⟩

/-- A new account's keyset was written by it. -/
theorem baseline_iff_account : demoAccount.1.encrypted.kdf.validate = .ok () :=
  baseline_iff.2 _ (Written.createAccount demoAccount_created)

/-- A new vault with the fingerprint set up. -/
def demoBiometric : BiometricUnlockSetup Term × Nat :=
  okVal (enableBiometricUnlock demo.suite demoVault.1.unlocked demoVault.2) (by decide +kernel)

theorem demoBiometric_enabled : enableBiometricUnlock demo.suite demoVault.1.unlocked demoVault.2 =
    .ok (demoBiometric.1, demoBiometric.2) := okVal_eq _

theorem demoBiometric_unlocks : (UnlockPath.unlockViaBiometric demoBiometric.1.wrapperKey demoBiometric.1.envelope
    demoVault.1.encrypted).Unlocks demo.suite := by
  obtain ⟨-, ⟨_, -, hh⟩, -⟩ := createVaultKeys_ok demoVault_created
  obtain ⟨hver, hid, hw, -⟩ := enableBiometricUnlock_ok demoBiometric_enabled
  refine ⟨demoVault.1.unlocked, (unlockViaBiometric_ok demo.suite_ideal).mpr ⟨?_, ?_, hh.account, hh.vault, ?_, hh.below⟩⟩
  · rw [hver]
    exact keyset_readable
  · rw [hid]
    exact hh.vault
  · rw [← hh.vault]
    exact hw

/-- Its stored memory cost is set to 8 KiB, and the fingerprint still opens it. -/
theorem a_weak_vault : ¬ (UnlockPath.unlockViaBiometric demoBiometric.1.wrapperKey demoBiometric.1.envelope
    { demoVault.1.encrypted with kdf := { demoVault.1.encrypted.kdf with memoryKib := 8 } }).RefusesWeak
      demo.suite := by
  intro h
  refine h (Or.inl (by decide)) ?_
  have hkey : ¬ (UnlockPath.unlockViaBiometric demoBiometric.1.wrapperKey demoBiometric.1.envelope
    demoVault.1.encrypted).FromPassword := fun h => h
  exact (UnlockPath.unlocks_withKdf hkey _).mpr demoBiometric_unlocks

end RootkeyCrypto
