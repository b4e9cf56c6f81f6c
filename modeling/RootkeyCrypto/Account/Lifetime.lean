/-
  RootkeyCrypto.Account.Lifetime — one account from its creation on.

  A run starts with `create_account` and goes on with new vaults (created or attached; the
  entry replaces one of the same vault), password changes, recovery keys set up and used,
  root key rotations and biometric envelopes, in any order, each given the stored keyset
  and a handle opened from it. A handle opens by password, recovery key, handed-over root
  key, or an envelope enabled since the last rotation; the rotation's caller deletes older
  ones, as its comment asks.

  `Inv st a`: one root key lies behind the password's wrapping, the recovery wrapping,
  every envelope and every entry, and no vault that was mounted is without an entry.
  `step_inv` is its preservation, `handle_same` that whatever opens from the stored keyset
  is that handle, and `account_coherent` what follows: four ways in, one account, every
  vault opens to the keys it was created with, and no other password does anything.
-/

import RootkeyCrypto.Account.Reset
import RootkeyCrypto.Core.SharedAccount

namespace RootkeyCrypto.AccountLifetime

open Lib

variable {β : Type} {S : Suite β}

structure St (β : Type) where
  pos : Nat
  stored : AccountKeySet β
  password : String
  /-- The recovery key shown last, while its wrapping is stored. -/
  recovery : Option String
  /-- Envelopes enabled since the last rotation of the root key. -/
  biometrics : List (AccountBiometricSetup β)
  /-- Per vault: the newest slot, and the handle it was created with. -/
  slots : Id → Option (VaultKeySlot β × UnlockedVault β)

/-- The handle opens from the stored keyset. -/
inductive Handle (S : Suite β) (st : St β) : UnlockedAccount β → Prop
  | password {pw a} (h : unlockAccount S pw st.stored = .ok a) : Handle S st a
  | recovery {rk a} (h : unlockAccountWithRecoveryKey S rk st.stored = .ok a) : Handle S st a
  | biometric {w b a} (hb : b ∈ st.biometrics) (h : unlockAccountViaBiometric S w b.envelope st.stored = .ok a) :
      Handle S st a
  | ark {k a} (h : unlockAccountWithArk S k st.stored = .ok a) : Handle S st a

/-- A new vault is stored: its entry in the keyset, its slot in the vault's directory. -/
def mounted (st : St β) (n' : Nat) (r : VaultUnderAccount β) (es : List (AccountVaultEntry β)) : St β :=
  { st with pos := n', stored := { st.stored with vaults := es },
            slots := fun id => if id = r.entry.vaultId then some (r.slot, r.unlocked) else st.slots id }

/-- A step, and whether it replaces the root key. -/
inductive Step (S : Suite β) : Bool → St β → St β → Prop
  | create {st : St β} {a r es n n'} (ha : Handle S st a) (hn : st.pos ≤ n)
      (h : createVaultUnderAccount S a n = .ok (r, n')) (hes : Stores st.stored.vaults es r.entry) :
      Step S false st (mounted st n' r es)
  | attach {st : St β} {a id k r es n n'} (ha : Handle S st a) (hn : st.pos ≤ n)
      (h : attachSharedVaultUnderAccount S a id k n = .ok (r, n')) (hes : Stores st.stored.vaults es r.entry) :
      Step S false st (mounted st n' r es)
  | changePassword {st : St β} {old new ks n n'} (hn : st.pos ≤ n)
      (h : changeAccountPassword S old new st.stored n = .ok (ks, n')) :
      Step S false st { st with pos := n', stored := ks, password := new }
  | setupRecovery {st : St β} {a shown w n n'} (ha : Handle S st a) (hn : st.pos ≤ n)
      (h : setupRecoveryKey S a n = .ok ((shown, w), n')) :
      Step S false st
        { st with pos := n', stored := { st.stored with wrappedArkRecovery := some w }, recovery := some shown }
  | resetPassword {st : St β} {rk new ks n n'} (hn : st.pos ≤ n)
      (h : resetPasswordWithRecoveryKey S rk new st.stored n = .ok (ks, n')) :
      Step S false st { st with pos := n', stored := ks, password := new }
  | rotateRoot {st : St β} {pw ks a n n'} (hn : st.pos ≤ n)
      (h : rotateAccountRootKey S pw st.stored n = .ok ((ks, a), n')) :
      Step S true st { st with pos := n', stored := ks, password := pw, recovery := none, biometrics := [] }
  | enableBiometric {st : St β} {a b n n'} (ha : Handle S st a) (hn : st.pos ≤ n)
      (h : enableAccountBiometric S a n = .ok (b, n')) :
      Step S false st { st with pos := n', biometrics := b :: st.biometrics }

inductive Run (S : Suite β) : St β → Prop
  | create {pw r n n'} (h : createAccount S pw n = .ok (r, n')) :
      Run S ⟨n', r.encrypted, pw, none, [], fun _ => none⟩
  | step {rotated} {a b : St β} (ha : Run S a) (h : Step S rotated a b) : Run S b

/-! ## The invariant -/

/-- One root key behind everything stored. -/
structure Inv (S : Suite β) (st : St β) (a : UnlockedAccount β) : Prop where
  opens : unlockAccount S st.password st.stored = .ok a
  /-- A stored recovery wrapping is of this root key and of the key shown last. -/
  recovery : match st.recovery with
    | some shown => unlockAccountWithRecoveryKey S shown st.stored = .ok a
    | none => st.stored.wrappedArkRecovery = none
  biometrics : ∀ b ∈ st.biometrics, unlockAccountViaBiometric S b.wrapperKey b.envelope st.stored = .ok a
  vaults : ∀ e ∈ st.stored.vaults, ∃ s v, st.slots e.vaultId = some (s, v) ∧ unlockAccountVault S a e s = .ok v
  entries : ∀ id s v, st.slots id = some (s, v) → ∃ e ∈ st.stored.vaults, e.vaultId = id

theorem Inv.accountId (hS : S.Ideal) {st : St β} {a : UnlockedAccount β} (hi : Inv S st a) :
    a.accountId = st.stored.accountId :=
  ((unlockAccount_ok hS).mp hi.opens).2.1

theorem Inv.readable (hS : S.Ideal) {st : St β} {a : UnlockedAccount β} (hi : Inv S st a) :
    checkVersion accountFormatVersion accountMinReadableVersion st.stored.version = .ok () :=
  ((unlockAccount_ok hS).mp hi.opens).1

/-- Whatever opens from the stored keyset is the account. -/
theorem handle_same (hS : S.Ideal) {st : St β} {a h : UnlockedAccount β} (hi : Inv S st a) (hh : Handle S st h) :
    h = a := by
  have hid := hi.accountId hS
  cases hh with
  | password h => exact unlockAccount_unique hS h hi.opens
  | recovery h =>
    obtain ⟨-, ha, w, _, hrec, -, hw⟩ := (unlockAccountWithRecoveryKey_ok hS).mp h
    have hr := hi.recovery
    cases hrec' : st.recovery with
    | none => rw [hrec', hrec] at hr; cases hr
    | some shown =>
      rw [hrec'] at hr
      obtain ⟨-, -, w', _, hrec'', -, hw'⟩ := (unlockAccountWithRecoveryKey_ok hS).mp hr
      cases hrec.symm.trans hrec''
      exact UnlockedAccount.ext (ha.trans hid.symm) (hw.unique hS hw').2.2
  | biometric hb h =>
    obtain ⟨-, -, ha, hw⟩ := (unlockAccountViaBiometric_ok hS).mp h
    obtain ⟨-, -, -, hw'⟩ := (unlockAccountViaBiometric_ok hS).mp (hi.biometrics _ hb)
    exact UnlockedAccount.ext (ha.trans hid.symm) (hw.unique hS hw').2.2
  | ark h =>
    obtain ⟨ha, hk, e, kek, he, hw⟩ := (unlockAccountWithArk_ok hS).mp h
    obtain ⟨s, v, -, hv⟩ := hi.vaults e (List.mem_of_head? he)
    have hm := ((unlockAccountVault_ok hS).mp hv).2
    refine UnlockedAccount.ext (ha.trans hid.symm) ?_
    rw [hk]
    exact (hw.unique hS hm.kek).1

/-- Another wrapping by password, the rest unchanged, keeps the invariant. -/
theorem inv_password (hS : S.Ideal) {st : St β} {a : UnlockedAccount β} {new : String} {ks : AccountKeySet β}
    {muk : MasterUnlockKey β} {n' : Nat} (hi : Inv S st a) (hmuk : deriveMuk S new ks.kdf = .ok muk)
    (hw : Wraps S muk a.ark (aadForArk st.stored.accountId ks.kdf) ks.wrappedArk)
    (hks : ks = { st.stored with kdf := ks.kdf, wrappedArk := ks.wrappedArk }) :
    Inv S { st with pos := n', stored := ks, password := new } a := by
  rw [hks]
  have hrec := hi.recovery
  refine ⟨(unlockAccount_ok hS).mpr ⟨hi.readable hS, hi.accountId hS, muk, hmuk, hw⟩, ?_, hi.biometrics, hi.vaults,
    hi.entries⟩
  cases hr : st.recovery with
  | none => rw [hr] at hrec; exact hrec
  | some shown => rw [hr] at hrec; exact hrec

/-- A vault mounted under the account keeps the invariant. -/
theorem inv_mounted (hS : S.Ideal) {st : St β} {a : UnlockedAccount β} {r : VaultUnderAccount β}
    {es : List (AccountVaultEntry β)} {n' : Nat} (hi : Inv S st a) (hver : r.slot.version = accountFormatVersion)
    (hm : Mounts S a r.entry r.slot r.unlocked) (hes : Stores st.stored.vaults es r.entry) :
    Inv S (mounted st n' r es) a := by
  have hrec := hi.recovery
  refine ⟨hi.opens, ?_, hi.biometrics, fun e he => ?_, fun id s v hs => ?_⟩
  · show match st.recovery with | some shown => _ | none => _
    cases hr : st.recovery with
    | none => rw [hr] at hrec; exact hrec
    | some shown => rw [hr] at hrec; exact hrec
  · rcases hes.mem.mp he with rfl | ⟨he, hne⟩
    · exact ⟨r.slot, r.unlocked, if_pos rfl, (unlockAccountVault_ok hS).mpr ⟨hver ▸ account_readable, hm⟩⟩
    · obtain ⟨s, v, hs, hv⟩ := hi.vaults e he
      exact ⟨s, v, (if_neg hne).trans hs, hv⟩
  · change (if id = r.entry.vaultId then some (r.slot, r.unlocked) else st.slots id) = some (s, v) at hs
    by_cases hid : id = r.entry.vaultId
    · exact ⟨r.entry, hes.mem.mpr (Or.inl rfl), hid.symm⟩
    · obtain ⟨e, he, rfl⟩ := hi.entries id s v ((if_neg hid).symm.trans hs)
      exact ⟨e, hes.mem.mpr (Or.inr ⟨he, hid⟩), rfl⟩

/-- A step keeps the invariant, and the root key unless it is the rotation, which draws one. -/
theorem step_inv (hS : S.Ideal) {rotated : Bool} {st st' : St β} {a : UnlockedAccount β} (hi : Inv S st a)
    (hs : Step S rotated st st') :
    ∃ a', Inv S st' a' ∧ a'.accountId = a.accountId ∧ Replaced S st.pos st'.pos rotated a.ark a'.ark := by
  have hid := hi.accountId hS
  cases hs with
  | create ha _ h hes =>
    cases handle_same hS hi ha
    obtain ⟨hver, hm, -⟩ := createVaultUnderAccount_ok h
    exact ⟨a, inv_mounted hS hi hver hm hes, rfl, rfl⟩
  | attach ha _ h hes =>
    cases handle_same hS hi ha
    obtain ⟨hver, hm, -⟩ := wrapUnderAccount_ok h
    exact ⟨a, inv_mounted hS hi hver hm hes, rfl, rfl⟩
  | changePassword _ h =>
    obtain ⟨h', muk, ha, hmuk, hw, hks, -⟩ := changeAccountPassword_ok h
    cases handle_same hS hi (.password ha)
    exact ⟨a, inv_password hS hi hmuk hw hks, rfl, rfl⟩
  | resetPassword _ h =>
    obtain ⟨h', muk, ha, hmuk, hw, hks, -⟩ := resetPasswordWithRecoveryKey_ok h
    cases handle_same hS hi (.recovery ha)
    exact ⟨a, inv_password hS hi hmuk hw hks, rfl, rfl⟩
  | setupRecovery ha _ h =>
    cases handle_same hS hi ha
    obtain ⟨raw, hraw, hw, -⟩ := setupRecoveryKey_ok h
    refine ⟨a, ⟨hi.opens, ?_, hi.biometrics, hi.vaults, hi.entries⟩, rfl, rfl⟩
    rw [hid] at hw
    exact (unlockAccountWithRecoveryKey_ok hS).mpr ⟨hi.readable hS, hid, _, raw, rfl, hraw, hw⟩
  | @rotateRoot _ pw ks a' n n' hn h =>
    obtain ⟨_, _, -, -, hark, -, -, -, hks, hlt⟩ := rotateAccountRootKey_ok hS h
    obtain ⟨h', ha, hopens, hid', hall⟩ := rotateAccountRootKey_opens hS h
    cases handle_same hS hi (.password ha)
    refine ⟨a', ⟨hopens, ?_, fun b hb => (by cases hb), fun e' he' => ?_, fun id s v hs => ?_⟩, hid', n, hn, hlt, hark⟩
    · show ks.wrappedArkRecovery = none
      rw [hks]
    · obtain ⟨e, he, hr⟩ := paired_right hall he'
      obtain ⟨s, v, hs, hopen⟩ := hi.vaults e he
      obtain ⟨hver, hm⟩ := (unlockAccountVault_ok hS).mp hopen
      exact ⟨s, v, by rw [hr.1]; exact hs, (unlockAccountVault_ok hS).mpr ⟨hver, hm.rewrapped hS hid' hr⟩⟩
    · obtain ⟨e, he, rfl⟩ := hi.entries id s v hs
      obtain ⟨e', he', hr⟩ := paired_left hall he
      exact ⟨e', he', hr.1⟩
  | enableBiometric ha _ h =>
    cases handle_same hS hi ha
    obtain ⟨hver, hid', hw, -⟩ := enableAccountBiometric_ok h
    refine ⟨a, ⟨hi.opens, hi.recovery, fun b hb => ?_, hi.vaults, hi.entries⟩, rfl, rfl⟩
    rcases List.mem_cons.mp hb with rfl | hb
    · exact (unlockAccountViaBiometric_ok hS).mpr ⟨hver ▸ account_readable, hid'.trans hid, hid, hid ▸ hw⟩
    · exact hi.biometrics b hb

theorem run_inv (hS : S.Ideal) {st : St β} (h : Run S st) : ∃ a, Inv S st a := by
  induction h with
  | @create _ r _ _ h =>
    obtain ⟨kdf, muk, wa, henc, hmuk, hw, -⟩ := createAccount_ok h
    refine ⟨r.unlocked, (unlockAccount_ok hS).mpr ?_, ?_, fun b hb => (by cases hb), fun e he => ?_,
      fun id s v hs => (by cases hs)⟩
    · rw [henc]
      exact ⟨account_readable, rfl, muk, hmuk, hw⟩
    · simp only [henc]
    · rw [henc] at he
      cases he
  | step _ hs ih =>
    obtain ⟨a, hi⟩ := ih
    obtain ⟨a', hi', -⟩ := step_inv hS hi hs
    exact ⟨a', hi'⟩

/-! ## What holds of every run -/

/-- Four ways in and one account; every vault opens; no other password does. -/
structure Coherent (S : Suite β) (st : St β) (a : UnlockedAccount β) : Prop where
  password : ∀ pw, S.nfkd pw = S.nfkd st.password → unlockAccount S pw st.stored = .ok a
  recovery : ∀ rk, st.recovery = some rk → unlockAccountWithRecoveryKey S rk st.stored = .ok a
  biometric : ∀ b ∈ st.biometrics, unlockAccountViaBiometric S b.wrapperKey b.envelope st.stored = .ok a
  ark : st.stored.vaults ≠ [] → unlockAccountWithArk S a.exportArkForHandoff st.stored = .ok a
  derived : ∀ h, Handle S st h → h.accountId = a.accountId ∧ h.ark = a.ark ∧
    h.aiInboxKeypair S = a.aiInboxKeypair S ∧ h.relayAuthKey S = a.relayAuthKey S
  vaults : ∀ e ∈ st.stored.vaults, ∃ s v, st.slots e.vaultId = some (s, v) ∧ unlockAccountVault S a e s = .ok v
  /-- No vault is lost: each that was mounted has an entry, which opens. -/
  mounted : ∀ id s v, st.slots id = some (s, v) → ∃ e ∈ st.stored.vaults, e.vaultId = id ∧ unlockAccountVault S a e s = .ok v
  others : ∀ pw, pw ≠ "" → S.nfkd pw ≠ S.nfkd st.password → unlockAccount S pw st.stored = .error .decryptFailed

theorem account_coherent (hS : S.Ideal) {st : St β} (h : Run S st) : ∃ a, Coherent S st a := by
  obtain ⟨a, hi⟩ := run_inv hS h
  refine ⟨a, ?_, ?_, hi.biometrics, ?_, ?_, hi.vaults, ?_, fun pw h0 hne => unlockAccount_other hS hi.opens h0 hne⟩
  · intro pw hpw
    obtain ⟨hver, hid, muk, hmuk, hw⟩ := (unlockAccount_ok hS).mp hi.opens
    exact (unlockAccount_ok hS).mpr ⟨hver, hid, muk, deriveMuk_congr hS hpw hmuk, hw⟩
  · intro rk hrk
    have hr := hi.recovery
    rw [hrk] at hr
    exact hr
  · intro hne
    cases hv : st.stored.vaults with
    | nil => exact absurd hv hne
    | cons e es =>
      obtain ⟨s, v, -, hopen⟩ := hi.vaults e (by rw [hv]; exact List.mem_cons_self)
      have hm := ((unlockAccountVault_ok hS).mp hopen).2
      have hid := hi.accountId hS
      exact (unlockAccountWithArk_ok hS).mpr ⟨hid, rfl, e, v.kek, by rw [hv]; rfl, hid ▸ hm.kek⟩
  · intro h hh
    rw [handle_same hS hi hh]
    exact ⟨rfl, rfl, rfl, rfl⟩
  · intro id s v hs
    obtain ⟨e, he, rfl⟩ := hi.entries id s v hs
    obtain ⟨s', v', hs', hopen⟩ := hi.vaults e he
    cases hs.symm.trans hs'
    exact ⟨e, he, rfl, hopen⟩

/-! ## A trace -/

def demoStart : St Term := ⟨demoAccount.2, demoAccount.1.encrypted, "a", none, [], fun _ => none⟩

/-- Its first vault, the root key rotated, a recovery key set up, the password reset with
    it, an envelope made. -/
def demoFirst : St Term := mounted demoStart demoMount.2 demoMount.1 [demoMount.1.entry]

def demoNext : St Term :=
  { demoFirst with
    pos := Reset.demoRotated.2, stored := Reset.demoRotated.1.1, password := "a", recovery := none, biometrics := [] }

def demoShown : (String × WrappedKey Term) × Nat :=
  okVal (setupRecoveryKey demo.suite Reset.demoRotated.1.2 demoNext.pos) (by decide +kernel)

def demoWritten : St Term :=
  { demoNext with
    pos := demoShown.2, stored := { demoNext.stored with wrappedArkRecovery := some demoShown.1.2 },
    recovery := some demoShown.1.1 }

def demoReset : AccountKeySet Term × Nat :=
  okVal (resetPasswordWithRecoveryKey demo.suite demoShown.1.1 "b" demoWritten.stored demoWritten.pos) (by decide +kernel)

def demoForgotten : St Term := { demoWritten with pos := demoReset.2, stored := demoReset.1, password := "b" }

def demoEnvelope : AccountBiometricSetup Term × Nat :=
  okVal (enableAccountBiometric demo.suite Reset.demoRotated.1.2 demoForgotten.pos) (by decide +kernel)

theorem demoStart_handle : Handle demo.suite demoStart demoAccount.1.unlocked := by
  have hopen : unlockAccount demo.suite "a" demoStart.stored = .ok demoAccount.1.unlocked := by decide +kernel
  exact .password hopen

theorem demoFirst_run : Run demo.suite demoFirst :=
  Run.step (.create demoAccount_created) (.create demoStart_handle (Nat.le_refl _) demoMount_created (.refl _))

theorem demoNext_step : Step demo.suite true demoFirst demoNext := .rotateRoot (Nat.le_refl _) (okVal_eq _)

theorem demoNext_handle : Handle demo.suite demoNext Reset.demoRotated.1.2 := by
  have hopen : unlockAccount demo.suite "a" demoNext.stored = .ok Reset.demoRotated.1.2 := by decide +kernel
  exact .password hopen

theorem demoForgotten_run : Run demo.suite demoForgotten := by
  have hshown : setupRecoveryKey demo.suite Reset.demoRotated.1.2 demoNext.pos =
      .ok ((demoShown.1.1, demoShown.1.2), demoShown.2) := okVal_eq _
  have hwritten : Run demo.suite demoWritten :=
    (demoFirst_run.step demoNext_step).step (.setupRecovery demoNext_handle (Nat.le_refl _) hshown)
  have hreset : resetPasswordWithRecoveryKey demo.suite demoShown.1.1 "b" demoWritten.stored demoWritten.pos =
      .ok (demoReset.1, demoReset.2) := okVal_eq _
  exact hwritten.step (.resetPassword (Nat.le_refl _) hreset)

def demoLast : St Term :=
  { demoForgotten with pos := demoEnvelope.2, biometrics := demoEnvelope.1 :: demoForgotten.biometrics }

theorem demoLast_run : Run demo.suite demoLast := by
  have hopen : unlockAccount demo.suite "b" demoForgotten.stored = .ok Reset.demoRotated.1.2 := by decide +kernel
  have henvelope : enableAccountBiometric demo.suite Reset.demoRotated.1.2 demoForgotten.pos =
      .ok (demoEnvelope.1, demoEnvelope.2) := okVal_eq _
  exact demoForgotten_run.step (.enableBiometric (.password hopen) (Nat.le_refl _) henvelope)

/-- Every way in leads to the one account, which opens the vault. -/
theorem account_coherent_first_vault : ∃ a, Coherent demo.suite demoLast a :=
  account_coherent demo.suite_ideal demoLast_run

end RootkeyCrypto.AccountLifetime
