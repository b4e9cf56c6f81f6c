/-
  RootkeyCrypto.Account.RootKey — a root key rotation re-wraps every entry or none.

  The entries are arbitrary: any number, in any order, some of them damaged, of another
  account or of one vault twice. `Carried` is what one entry's re-wrap keeps, `Rotated` what
  a rotation that succeeds gives.

  Proved, over every password, keyset and outcome of the draws:
  - `rotation_all_or_nothing`: a rotation succeeds only with all of it, and one entry that
    the old root key does not open fails the whole call.
-/

import RootkeyCrypto.Core.Account

namespace RootkeyCrypto.RootKey

open Lib

variable {β : Type} (S : Suite β)

/-- The KEK of an entry, under a root key. -/
def openEntry (account : UnlockedAccount β) (e : AccountVaultEntry β) : Except CryptoError (KeyEncryptionKey β) :=
  unwrapKey S account.ark e.wrappedKek (aadForVaultKek account.accountId e.vaultId)

/-- The same KEK for the same vault, so the same handle from every slot. -/
structure Carried (old session : UnlockedAccount β) (e e' : AccountVaultEntry β) : Prop where
  vault : e'.vaultId = e.vaultId
  kek : ∃ kek, openEntry S old e = .ok kek ∧ openEntry S session e' = .ok kek
  opens : ∀ slot, unlockAccountVault S session e' slot = unlockAccountVault S old e slot

/-- The rotated keyset and its session. -/
structure Rotated (pw : String) (current : AccountKeySet β) (old : UnlockedAccount β) (next : AccountKeySet β)
    (session : UnlockedAccount β) : Prop where
  before : unlockAccount S pw current = .ok old
  after : unlockAccount S pw next = .ok session
  entries : List.Forall₂ (Carried S old session) current.vaults next.vaults
  length : next.vaults.length = current.vaults.length
  ids : next.vaults.map (·.vaultId) = current.vaults.map (·.vaultId)
  recovery : next.wrappedArkRecovery = none
  accountId : next.accountId = current.accountId ∧ session.accountId = old.accountId
  version : next.version = current.version
  createdAt : next.createdAt = current.createdAt

variable {S}

theorem Rewrapped.carried (hS : S.Ideal) {old session : UnlockedAccount β} {e e' : AccountVaultEntry β}
    (ha : session.accountId = old.accountId) (h : Rewrapped S old.accountId old.ark session.ark e e') :
    Carried S old session e e' := by
  obtain ⟨hv, kek, hk, hk'⟩ := h
  have hopen : unwrapKey S old.ark e.wrappedKek (aadForVaultKek old.accountId e.vaultId) = .ok kek :=
    (unwrapKey_ok hS).mpr hk
  have hopen' : unwrapKey S session.ark e'.wrappedKek (aadForVaultKek session.accountId e'.vaultId) = .ok kek := by
    rw [ha, hv]
    exact (unwrapKey_ok hS).mpr hk'
  refine ⟨hv, ⟨kek, hopen, hopen'⟩, ?_⟩
  intro slot
  unfold unlockAccountVault
  rw [hopen, hopen', ha, hv]

/-- Nothing wrapped under one root key unwraps under another. -/
theorem Rewrapped.closed (hS : S.Ideal) {accountId : Id} {ark ark' : AccountRootKey β} {e e' : AccountVaultEntry β}
    (h : Rewrapped S accountId ark ark' e e') (hne : ark ≠ ark') (aad : List UInt8) :
    unwrapKey S ark e'.wrappedKek aad = .error .decryptFailed := by
  obtain ⟨-, kek, -, hk'⟩ := h
  exact unwrapKey_other hS hk' (Or.inl hne)

theorem rotated_of_ok (hS : S.Ideal) {pw : String} {ks next : AccountKeySet β} {session : UnlockedAccount β}
    {n n' : Nat} (h : rotateAccountRootKey S pw ks n = .ok ((next, session), n')) :
    ∃ old, Rotated S pw ks old next session ∧ (S.osKey n ≠ some old.ark →
      ∀ e' ∈ next.vaults, ∀ aad, unwrapKey S old.ark e'.wrappedKek aad = .error .decryptFailed) := by
  obtain ⟨old, muk, ha, hid', hark, hmuk, hw, hall, hks, -⟩ := rotateAccountRootKey_ok hS h
  obtain ⟨hver, hid, -⟩ := (unlockAccount_ok hS).mp ha
  have hids : session.accountId = old.accountId := hid'.trans hid.symm
  have hentries : List.Forall₂ (Carried S old session) ks.vaults next.vaults := by
    rw [← hid] at hall
    exact hall.imp fun _ _ he => Rewrapped.carried hS hids he
  have hafter : unlockAccount S pw next = .ok session := by
    rw [unlockAccount_ok hS, hks]
    exact ⟨hver, hid', muk, hmuk, hw⟩
  refine ⟨old, ?_, ?_⟩
  · constructor
    · exact ha
    · exact hafter
    · exact hentries
    · exact hentries.length_eq.symm
    · exact paired_map hentries fun _ _ hc => hc.vault
    · rw [hks]
    · exact ⟨by rw [hks], hids⟩
    · rw [hks]
    · rw [hks]
  · intro hne e' he' aad
    have hark' : old.ark ≠ session.ark := by
      intro heq
      rw [heq] at hne
      exact hne hark
    obtain ⟨e, -, he⟩ := paired_right hall he'
    exact Rewrapped.closed hS he hark' aad

/-- A rotation gives a keyset in which every entry is re-wrapped and, the new root key not
    being the old one, none opens under the old one; if one entry of the current keyset
    does not open, or the password does not, it gives an error. -/
theorem rotation_all_or_nothing (hS : S.Ideal) (pw : String) (ks : AccountKeySet β) (n : Nat) :
    (∀ next session n', rotateAccountRootKey S pw ks n = .ok ((next, session), n') →
      ∃ old, Rotated S pw ks old next session ∧ (S.osKey n ≠ some old.ark →
        ∀ e' ∈ next.vaults, ∀ aad, unwrapKey S old.ark e'.wrappedKek aad = .error .decryptFailed)) ∧
      ((¬ ∃ old, unlockAccount S pw ks = .ok old ∧ ∀ e ∈ ks.vaults, ∃ kek, openEntry S old e = .ok kek) →
        ∃ err, rotateAccountRootKey S pw ks n = .error err) := by
  refine ⟨fun next session n' h => rotated_of_ok hS h, fun hno => ?_⟩
  cases hrun : rotateAccountRootKey S pw ks n with
  | error err => exact ⟨err, rfl⟩
  | ok r =>
    obtain ⟨⟨next, session⟩, n'⟩ := r
    obtain ⟨old, hr, -⟩ := rotated_of_ok hS hrun
    refine absurd ⟨old, hr.before, fun e he => ?_⟩ hno
    obtain ⟨e', -, hc⟩ := paired_left hr.entries he
    obtain ⟨kek, hk, -⟩ := hc.kek
    exact ⟨kek, hk⟩

/-! ## Traces -/

/-- The keyset that names a vault twice, rotated. -/
def demoRotation : (AccountKeySet Term × UnlockedAccount Term) × Nat :=
  okVal (rotateAccountRootKey demo.suite "a" demoTwice demoMount.2) (by decide +kernel)

/-- With an entry under the name of another vault. -/
def demoForeign : AccountKeySet Term :=
  { demoTwice with vaults := demoTwice.vaults ++ [{ demoMount.1.entry with vaultId := .replicate 16 0 }] }

/-- Both entries are re-wrapped and neither opens under the old root key; with the third
    nothing is. -/
theorem rotation_all_or_nothing_twice :
    (∃ old, Rotated demo.suite "a" demoTwice old demoRotation.1.1 demoRotation.1.2 ∧
      demoRotation.1.1.vaults.length = 2 ∧ ∀ e' ∈ demoRotation.1.1.vaults, ∀ aad,
        unwrapKey demo.suite old.ark e'.wrappedKek aad = .error .decryptFailed) ∧
      ∃ err, rotateAccountRootKey demo.suite "a" demoForeign demoMount.2 = .error err := by
  have h : rotateAccountRootKey demo.suite "a" demoTwice demoMount.2 =
      .ok ((demoRotation.1.1, demoRotation.1.2), demoRotation.2) := okVal_eq _
  have ha : unlockAccount demo.suite "a" demoTwice = .ok demoAccount.1.unlocked := by decide +kernel
  have ha' : unlockAccount demo.suite "a" demoForeign = .ok demoAccount.1.unlocked := by decide +kernel
  constructor
  · obtain ⟨old, hr, hclosed⟩ := (rotation_all_or_nothing demo.suite_ideal "a" demoTwice demoMount.2).1 _ _ _ h
    have hold : old = demoAccount.1.unlocked := unlockAccount_unique demo.suite_ideal hr.before ha
    refine ⟨old, hr, hr.length, hclosed ?_⟩
    rw [hold]
    decide +kernel
  · refine (rotation_all_or_nothing demo.suite_ideal "a" demoForeign demoMount.2).2 ?_
    intro hex
    obtain ⟨old, hold, hall⟩ := hex
    rw [unlockAccount_unique demo.suite_ideal hold ha'] at hall
    obtain ⟨kek, hk⟩ := hall { demoMount.1.entry with vaultId := .replicate 16 0 } (by decide +kernel)
    have hno : openEntry demo.suite demoAccount.1.unlocked { demoMount.1.entry with vaultId := .replicate 16 0 } =
        .error .decryptFailed := by
      decide +kernel
    rw [hno] at hk
    cases hk

end RootkeyCrypto.RootKey
