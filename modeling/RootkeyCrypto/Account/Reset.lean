/-
  RootkeyCrypto.Account.Reset — resetting a forgotten password with the recovery key.

  `reset_password_with_recovery_key` wraps, under the new password, whatever root key the
  recovery wrapping holds, and drops the password's own wrapping. The keyset has two
  wrappings of a root key, by password and by recovery key, and nothing compares them:
  `setup_recovery_key` wraps the root key of the handle it is given, which may be one from
  before a `rotate_account_root_key`.

  `reset_opens_vaults_iff`: the new password opens every vault the old one opened exactly
  when the account has no vault or both wrappings hold the same root key. `setup_reads`:
  what a recovery key opens is the handle it was set up with, so the second condition is
  that this handle was a fresh one. With a stale one the only wrapping of the live root
  key is gone (`stale_recovery_loses_vaults`).
-/

import RootkeyCrypto.Core.Recovery
import RootkeyCrypto.Lib.Symbolic

namespace RootkeyCrypto.Reset

open Lib

variable {β : Type} {S : Suite β}

/-- The KEK of an entry of the account, under a root key. -/
def entryKek (S : Suite β) (accountId : Id) (ark : AccountRootKey β) (e : AccountVaultEntry β) :
    Except CryptoError (KeyEncryptionKey β) :=
  unwrapKey S ark e.wrappedKek (aadForVaultKek accountId e.vaultId)

/-- The root key unwraps every entry of the keyset. -/
def OpensAll (S : Suite β) (ks : AccountKeySet β) (a : UnlockedAccount β) : Prop :=
  ∀ e ∈ ks.vaults, ∃ kek, entryKek S ks.accountId a.ark e = .ok kek

/-- The new password opens every entry of the new keyset, to the KEK it had. -/
def KeepsVaults (S : Suite β) (a : UnlockedAccount β) (new : String) (next : AccountKeySet β) : Prop :=
  ∃ a', unlockAccount S new next = .ok a' ∧ ∀ e ∈ next.vaults, ∃ kek,
    entryKek S next.accountId a'.ark e = .ok kek ∧ entryKek S next.accountId a.ark e = .ok kek

/-- A reset leaves the account open to the new password, with the recovery key's root key. -/
theorem reset_unlocks (hS : S.Ideal) {rk new : String} {ks next : AccountKeySet β} {n n' : Nat}
    (h : resetPasswordWithRecoveryKey S rk new ks n = .ok (next, n')) :
    ∃ r, unlockAccountWithRecoveryKey S rk ks = .ok r ∧ unlockAccount S new next = .ok r ∧
      next.accountId = ks.accountId ∧ next.vaults = ks.vaults := by
  obtain ⟨r, muk, hr, hmuk, hw, hks, -⟩ := resetPasswordWithRecoveryKey_ok h
  obtain ⟨hver, ha, -⟩ := (unlockAccountWithRecoveryKey_ok hS).mp hr
  refine ⟨r, hr, (unlockAccount_ok hS).mpr ?_, by rw [hks], by rw [hks]⟩
  rw [hks]
  exact ⟨hver, ha, muk, hmuk, hw⟩

/-- The recovery key shown by `setup_recovery_key` opens the handle it was set up with. -/
theorem setup_reads (hS : S.Ideal) {s : UnlockedAccount β} {ks : AccountKeySet β} {shown : String} {w : WrappedKey β}
    {n n' : Nat} (h : setupRecoveryKey S s n = .ok ((shown, w), n')) (ha : s.accountId = ks.accountId)
    (hver : checkVersion accountFormatVersion accountMinReadableVersion ks.version = .ok ()) :
    unlockAccountWithRecoveryKey S shown { ks with wrappedArkRecovery := some w } = .ok s := by
  obtain ⟨raw, hraw, hw, -⟩ := setupRecoveryKey_ok h
  rw [ha] at hw
  exact (unlockAccountWithRecoveryKey_ok hS).mpr ⟨hver, ha, w, raw, rfl, hraw, hw⟩

/-- A reset keeps the vaults exactly when there are none, or the recovery key opens the
    root key that the password opens. -/
theorem reset_opens_vaults_iff (hS : S.Ideal) {pw rk new : String} {ks next : AccountKeySet β} {a : UnlockedAccount β}
    {n n' : Nat} (_hpw : unlockAccount S pw ks = .ok a) (hall : OpensAll S ks a)
    (h : resetPasswordWithRecoveryKey S rk new ks n = .ok (next, n')) :
    KeepsVaults S a new next ↔
      ks.vaults = [] ∨ ∃ r, unlockAccountWithRecoveryKey S rk ks = .ok r ∧ r.ark = a.ark := by
  obtain ⟨r, hr, hnew, hid, hvaults⟩ := reset_unlocks hS h
  constructor
  · rintro ⟨a', ha', hkeep⟩
    cases hnew.symm.trans ha'
    cases hks : ks.vaults with
    | nil => exact Or.inl rfl
    | cons e es =>
      -- One entry is wrapped under one root key.
      obtain ⟨kek, hk, hk'⟩ := hkeep e (by rw [hvaults, hks]; exact List.mem_cons_self)
      rw [entryKek, unwrapKey_ok hS] at hk hk'
      exact Or.inr ⟨r, hr, (hk.unique hS hk').1⟩
  · intro hc
    refine ⟨r, hnew, fun e he => ?_⟩
    rw [hvaults] at he
    rcases hc with hnil | ⟨r', hr', hark⟩
    · rw [hnil] at he
      cases he
    · cases hr.symm.trans hr'
      obtain ⟨kek, hk⟩ := hall e he
      rw [hid, hark]
      exact ⟨kek, hk, hk⟩

/-! ## Traces -/

def demoRecovery : (String × WrappedKey Term) × Nat :=
  okVal (setupRecoveryKey demo.suite demoAccount.1.unlocked demoMount.2) (by decide +kernel)

def demoCurrent : AccountKeySet Term := { demoKeyset with wrappedArkRecovery := some demoRecovery.1.2 }

def demoReset : AccountKeySet Term × Nat :=
  okVal (resetPasswordWithRecoveryKey demo.suite demoRecovery.1.1 "b" demoCurrent demoRecovery.2) (by decide +kernel)

/-- Set up with a fresh handle: the reset keeps the vault. -/
theorem reset_opens_vaults_fresh : KeepsVaults demo.suite demoAccount.1.unlocked "b" demoReset.1 := by
  have hpw : unlockAccount demo.suite "a" demoCurrent = .ok demoAccount.1.unlocked := by decide +kernel
  have hall : OpensAll demo.suite demoCurrent demoAccount.1.unlocked :=
    List.forall_mem_singleton.mpr ⟨demoMount.1.unlocked.kek, by decide +kernel⟩
  have h : resetPasswordWithRecoveryKey demo.suite demoRecovery.1.1 "b" demoCurrent demoRecovery.2 =
      .ok (demoReset.1, demoReset.2) := okVal_eq _
  have hs : setupRecoveryKey demo.suite demoAccount.1.unlocked demoMount.2 =
      .ok ((demoRecovery.1.1, demoRecovery.1.2), demoRecovery.2) := okVal_eq _
  have hr : unlockAccountWithRecoveryKey demo.suite demoRecovery.1.1 demoCurrent = .ok demoAccount.1.unlocked :=
    setup_reads demo.suite_ideal hs rfl (by decide +kernel)
  exact (reset_opens_vaults_iff demo.suite_ideal hpw hall h).mpr (Or.inr ⟨_, hr, rfl⟩)

/-- The root key is rotated, and then the handle of the creation sets up a recovery key. -/
def demoRotated : (AccountKeySet Term × UnlockedAccount Term) × Nat :=
  okVal (rotateAccountRootKey demo.suite "a" demoKeyset demoMount.2) (by decide +kernel)

def demoStale : (String × WrappedKey Term) × Nat :=
  okVal (setupRecoveryKey demo.suite demoAccount.1.unlocked demoRotated.2) (by decide +kernel)

def demoStaleCurrent : AccountKeySet Term := { demoRotated.1.1 with wrappedArkRecovery := some demoStale.1.2 }

def demoLost : AccountKeySet Term × Nat :=
  okVal (resetPasswordWithRecoveryKey demo.suite demoStale.1.1 "b" demoStaleCurrent demoStale.2) (by decide +kernel)

/-- The password opened the vault, the reset succeeds, and the new password does not. -/
theorem stale_recovery_loses_vaults :
    unlockAccount demo.suite "a" demoStaleCurrent = .ok demoRotated.1.2 ∧
      OpensAll demo.suite demoStaleCurrent demoRotated.1.2 ∧
      resetPasswordWithRecoveryKey demo.suite demoStale.1.1 "b" demoStaleCurrent demoStale.2 =
        .ok (demoLost.1, demoLost.2) ∧
      ¬ KeepsVaults demo.suite demoRotated.1.2 "b" demoLost.1 := by
  have hvault : demoStaleCurrent.vaults ≠ [] := by decide +kernel
  have hall : ∀ e ∈ demoStaleCurrent.vaults,
      entryKek demo.suite demoStaleCurrent.accountId demoRotated.1.2.ark e = .ok demoMount.1.unlocked.kek := by
    decide +kernel
  -- The root key of the stale handle opens no entry.
  have hnone : ∀ e ∈ demoStaleCurrent.vaults,
      entryKek demo.suite demoStaleCurrent.accountId demoAccount.1.unlocked.ark e = .error .decryptFailed := by
    decide +kernel
  have hs : setupRecoveryKey demo.suite demoAccount.1.unlocked demoRotated.2 =
      .ok ((demoStale.1.1, demoStale.1.2), demoStale.2) := okVal_eq _
  have hreset : resetPasswordWithRecoveryKey demo.suite demoStale.1.1 "b" demoStaleCurrent demoStale.2 =
      .ok (demoLost.1, demoLost.2) := okVal_eq _
  have hread : unlockAccountWithRecoveryKey demo.suite demoStale.1.1 demoStaleCurrent = .ok demoAccount.1.unlocked :=
    setup_reads demo.suite_ideal hs (by decide +kernel) (by decide +kernel)
  refine ⟨by decide +kernel, fun e he => ⟨_, hall e he⟩, hreset, ?_⟩
  intro hkeeps
  obtain ⟨a', ha', hkeep⟩ := hkeeps
  obtain ⟨r, hr, hnew, hid, hvaults⟩ := reset_unlocks demo.suite_ideal hreset
  cases hread.symm.trans hr
  cases hnew.symm.trans ha'
  rw [hvaults, hid] at hkeep
  obtain ⟨e, he⟩ := List.exists_mem_of_ne_nil _ hvault
  obtain ⟨kek, hk, -⟩ := hkeep e he
  cases (hnone e he).symm.trans hk

end RootkeyCrypto.Reset
