/-
  RootkeyCrypto.World.Identity — an identity outlives every change of its vault's keys.

  The identity's envelope is stored beside the vault and no operation re-wraps it. It is
  sealed under the vault's KEK, so it survives what keeps the KEK: of one vault, a password
  change and both rotations (`VaultRun`); of an account, a password change, a reset, a
  rotation of the root key and of a shared vault's keys (`AccountRun`). A run starts with a
  vault that was created or with any stored one, every step is given what is stored and a
  handle opened from it, and every handle opened or returned on the way is remembered.

  `Anchored`: the stored VMK is wrapped under the KEK of every handle of the run. It is kept
  by every step, so all handles of a run have one KEK.

  Proved, over every reachable world, run, identity and handle:
  - `identity_survives`: whatever handle of the run wrapped it, each of them opens the
    identity; no handle of another vault does, nor the new handle of a re-key or a
    reattachment, whose KEK is new.
-/

import RootkeyCrypto.Core.Identity
import RootkeyCrypto.World.Provenance

namespace RootkeyCrypto.IdentityRun

open Lib Worlds

variable {β : Type} {S : Suite β} {Env : β → Prop}

/-- The envelope opens, to the two seeds in their places and the same fingerprint. -/
def Recovers (x : WrappedIdentity β) (u : UnlockedVault β) (identity : Identity S) : Prop :=
  ∃ found, unwrapWithVault S x u = .ok found ∧ found.x25519.secret = identity.x25519.secret ∧
    found.ed25519.seed = identity.ed25519.seed ∧ ∀ F, found.fingerprint F = identity.fingerprint F

/-! ## One vault -/

/-- The stored keyset and the handles so far. -/
structure VaultSt (β : Type) where
  stored : EncryptedKeySet β
  handles : List (UnlockedVault β)

inductive VaultHandle (S : Suite β) (ks : EncryptedKeySet β) : UnlockedVault β → Prop
  | password {pw v} (h : unlockVault S pw ks = .ok v) : VaultHandle S ks v
  | biometric {k e v} (h : unlockViaBiometric S k e ks = .ok v) : VaultHandle S ks v

inductive VaultStep (S : Suite β) (st : VaultSt β) : VaultSt β → Prop
  | unlock {v} (hv : VaultHandle S st.stored v) : VaultStep S st { st with handles := v :: st.handles }
  | changeMasterPassword {old new ks n n'} (h : changeMasterPassword S old new st.stored n = .ok (ks, n')) :
      VaultStep S st { st with stored := ks }
  | rotateVaultKey {v seed ks v' seed' n n'} (hv : VaultHandle S st.stored v)
      (h : rotateVaultKey S v st.stored seed n = .ok ((ks, v', seed'), n')) :
      VaultStep S st { stored := ks, handles := v' :: st.handles }
  | rotateIkek {v ks v' n n'} (hv : VaultHandle S st.stored v)
      (h : rotateIkek S v st.stored n = .ok ((ks, v'), n')) :
      VaultStep S st { stored := ks, handles := v' :: st.handles }

inductive VaultRun (S : Suite β) : VaultSt β → Prop
  | create {pw r n n'} (h : createVaultKeys S pw n = .ok (r, n')) : VaultRun S ⟨r.encrypted, [r.unlocked]⟩
  | stored (ks : EncryptedKeySet β) : VaultRun S ⟨ks, []⟩
  | step {a b : VaultSt β} (ha : VaultRun S a) (h : VaultStep S a b) : VaultRun S b

/-! ## One vault of an account -/

/-- The stored account, the vault's slot, and the vault's handles so far. -/
structure AccountSt (β : Type) where
  stored : AccountKeySet β
  slot : VaultKeySlot β
  handles : List (UnlockedVault β)

inductive AccountHandle (S : Suite β) (ks : AccountKeySet β) : UnlockedAccount β → Prop
  | password {pw a} (h : unlockAccount S pw ks = .ok a) : AccountHandle S ks a
  | recovery {rk a} (h : unlockAccountWithRecoveryKey S rk ks = .ok a) : AccountHandle S ks a
  | biometric {k e a} (h : unlockAccountViaBiometric S k e ks = .ok a) : AccountHandle S ks a
  | ark {k a} (h : unlockAccountWithArk S k ks = .ok a) : AccountHandle S ks a

/-- A handle of the vault, by any way into the account. -/
inductive MountHandle (S : Suite β) (st : AccountSt β) : UnlockedVault β → Prop
  | unlock {a e v} (ha : AccountHandle S st.stored a) (he : e ∈ st.stored.vaults)
      (h : unlockAccountVault S a e st.slot = .ok v) : MountHandle S st v

inductive AccountStep (S : Suite β) (st : AccountSt β) : AccountSt β → Prop
  | unlock {v} (hv : MountHandle S st v) : AccountStep S st { st with handles := v :: st.handles }
  | changeAccountPassword {old new ks n n'} (h : changeAccountPassword S old new st.stored n = .ok (ks, n')) :
      AccountStep S st { st with stored := ks }
  | setupRecoveryKey {a shown x n n'} (ha : AccountHandle S st.stored a)
      (h : setupRecoveryKey S a n = .ok ((shown, x), n')) :
      AccountStep S st { st with stored := { st.stored with wrappedArkRecovery := some x } }
  | resetPasswordWithRecoveryKey {rk new ks n n'}
      (h : resetPasswordWithRecoveryKey S rk new st.stored n = .ok (ks, n')) :
      AccountStep S st { st with stored := ks }
  | rotateAccountRootKey {pw ks a n n'} (h : rotateAccountRootKey S pw st.stored n = .ok ((ks, a), n')) :
      AccountStep S st { st with stored := ks }
  | rotateSharedVaultKeys {v k s v' n n'} (hv : MountHandle S st v)
      (h : rotateSharedVaultKeys S v k n = .ok ((s, v'), n')) :
      AccountStep S st { st with slot := s, handles := v' :: st.handles }

inductive AccountRun (S : Suite β) : AccountSt β → Prop
  | create {a r ks n n'} (h : createVaultUnderAccount S a n = .ok (r, n')) (he : r.entry ∈ ks.vaults) :
      AccountRun S ⟨ks, r.slot, [r.unlocked]⟩
  | attach {a id k r ks n n'} (h : attachSharedVaultUnderAccount S a id k n = .ok (r, n')) (he : r.entry ∈ ks.vaults) :
      AccountRun S ⟨ks, r.slot, [r.unlocked]⟩
  | stored (ks : AccountKeySet β) (slot : VaultKeySlot β) : AccountRun S ⟨ks, slot, []⟩
  | step {a b : AccountSt β} (ha : AccountRun S a) (h : AccountStep S a b) : AccountRun S b

/-! ## One KEK -/

/-- The stored VMK is wrapped under the handle's KEK, for its account and vault. -/
def UnderKek (S : Suite β) (wv : WrappedKey β) (v : UnlockedVault β) : Prop :=
  ∃ vmk, Wraps S v.kek vmk (aadForVmk v.accountId v.vaultId) wv

def Anchored (S : Suite β) (wv : WrappedKey β) (handles : List (UnlockedVault β)) : Prop :=
  ∀ v ∈ handles, UnderKek S wv v

/-- What the wrapping of the VMK fixes. -/
theorem UnderKek.same (hS : S.Ideal) {wv : WrappedKey β} {u v : UnlockedVault β} (hu : UnderKek S wv u)
    (hv : UnderKek S wv v) : u.kek = v.kek ∧ u.accountId = v.accountId ∧ u.vaultId = v.vaultId := by
  obtain ⟨_, hu⟩ := hu
  obtain ⟨_, hv⟩ := hv
  obtain ⟨hk, hctx, -⟩ := hu.unique hS hv
  have hc : Context.vmk u.accountId u.vaultId = .vmk v.accountId v.vaultId := Context.bytes_inj.mp hctx
  simp only [Context.vmk.injEq] at hc
  exact ⟨hk, hc.1, hc.2⟩

theorem Below.underKek {v : UnlockedVault β} {wv wi : WrappedKey β} (h : Below S v wv wi) : UnderKek S wv v :=
  ⟨v.vmk, h.vmk⟩

theorem Anchored.cons {wv : WrappedKey β} {v : UnlockedVault β} {vs : List (UnlockedVault β)} (hv : UnderKek S wv v)
    (h : Anchored S wv vs) : Anchored S wv (v :: vs) :=
  List.forall_mem_cons.mpr ⟨hv, h⟩

/-- The VMK wrapped anew under the KEK of one of the handles is under that of all. -/
theorem Anchored.moved (hS : S.Ideal) {wv wv' : WrappedKey β} {v v' : UnlockedVault β} {vs : List (UnlockedVault β)}
    (h : Anchored S wv vs) (hv : UnderKek S wv v) (hv' : UnderKek S wv' v') (hk : v'.kek = v.kek)
    (ha : v'.accountId = v.accountId) (hid : v'.vaultId = v.vaultId) : Anchored S wv' (v' :: vs) := by
  refine Anchored.cons hv' fun u hu => ?_
  obtain ⟨hku, hau, hiu⟩ := (h u hu).same hS hv
  obtain ⟨vmk, hw⟩ := hv'
  rw [hk, ha, hid] at hw
  refine ⟨vmk, ?_⟩
  rw [hku, hau, hiu]
  exact hw

theorem VaultHandle.underKek (hS : S.Ideal) {ks : EncryptedKeySet β} {v : UnlockedVault β} (h : VaultHandle S ks v) :
    UnderKek S ks.wrappedVmk v := by
  cases h with
  | password h =>
    obtain ⟨-, _, -, hh⟩ := (unlockVault_ok hS).mp h
    exact Below.underKek hh.below
  | biometric h =>
    obtain ⟨-, -, -, -, -, hb⟩ := (unlockViaBiometric_ok hS).mp h
    exact Below.underKek hb

theorem MountHandle.underKek (hS : S.Ideal) {st : AccountSt β} {v : UnlockedVault β} (h : MountHandle S st v) :
    UnderKek S st.slot.wrappedVmk v := by
  cases h with
  | unlock _ _ h => exact Below.underKek ((unlockAccountVault_ok hS).mp h).2.below

theorem vaultStep_anchored (hS : S.Ideal) {st st' : VaultSt β} (h : VaultStep S st st')
    (ha : Anchored S st.stored.wrappedVmk st.handles) : Anchored S st'.stored.wrappedVmk st'.handles := by
  cases h with
  | unlock hv => exact ha.cons (hv.underKek hS)
  | changeMasterPassword h =>
    obtain ⟨_, _, -, -, -, hks, -⟩ := changeMasterPassword_ok h
    rw [hks]
    exact ha
  | rotateVaultKey hv h =>
    obtain ⟨-, -, hv', -, hb, -⟩ := rotateVaultKey_ok h
    exact ha.moved hS (hv.underKek hS) (Below.underKek hb) (by rw [hv']) (by rw [hv']) (by rw [hv'])
  | rotateIkek hv h =>
    obtain ⟨-, -, hv', hks, -⟩ := rotateIkek_ok h
    rw [hks, hv']
    exact ha.cons (hv.underKek hS)

theorem vaultRun_anchored (hS : S.Ideal) {st : VaultSt β} (h : VaultRun S st) :
    Anchored S st.stored.wrappedVmk st.handles := by
  induction h with
  | create h =>
    obtain ⟨-, ⟨_, -, hh⟩, -⟩ := createVaultKeys_ok h
    exact List.forall_mem_singleton.mpr (Below.underKek hh.below)
  | stored ks =>
    intro v hv
    cases hv
  | step _ h ih => exact vaultStep_anchored hS h ih

/-- The account's keyset is not what holds the VMK: only a rotation of the slot moves it. -/
theorem accountStep_anchored (hS : S.Ideal) {st st' : AccountSt β} (h : AccountStep S st st')
    (ha : Anchored S st.slot.wrappedVmk st.handles) : Anchored S st'.slot.wrappedVmk st'.handles := by
  cases h with
  | unlock hv => exact ha.cons (hv.underKek hS)
  | changeAccountPassword => exact ha
  | setupRecoveryKey => exact ha
  | resetPasswordWithRecoveryKey => exact ha
  | rotateAccountRootKey => exact ha
  | rotateSharedVaultKeys hv h =>
    obtain ⟨-, -, -, hv', hb, -⟩ := rotateSharedVaultKeys_ok h
    exact ha.moved hS (hv.underKek hS) (Below.underKek hb) (by rw [hv']) (by rw [hv']) (by rw [hv'])

theorem accountRun_anchored (hS : S.Ideal) {st : AccountSt β} (h : AccountRun S st) :
    Anchored S st.slot.wrappedVmk st.handles := by
  induction h with
  | create h =>
    obtain ⟨-, hm, -⟩ := createVaultUnderAccount_ok h
    exact List.forall_mem_singleton.mpr (Below.underKek hm.below)
  | attach h =>
    obtain ⟨-, hm, -⟩ := wrapUnderAccount_ok h
    exact List.forall_mem_singleton.mpr (Below.underKek hm.below)
  | stored ks slot =>
    intro v hv
    cases hv
  | step _ h ih => exact accountStep_anchored hS h ih

/-! ## Who opens the identity -/

theorem recovers_of_same (hS : S.Ideal) {identity : Identity S} {x : WrappedIdentity β} {v u : UnlockedVault β}
    {n n' : Nat} (hx : wrapWithVault identity v n = .ok (x, n')) (hk : u.kek = v.kek)
    (ha : u.accountId = v.accountId) : Recovers x u identity :=
  ⟨identity, wrapWithVault_opens hS hx hk ha, rfl, rfl, fun _ => rfl⟩

theorem Anchored.recovers (hS : S.Ideal) {wv : WrappedKey β} {vs : List (UnlockedVault β)} (h : Anchored S wv vs)
    {identity : Identity S} {x : WrappedIdentity β} {v u : UnlockedVault β} {n n' : Nat}
    (hx : wrapWithVault identity v n = .ok (x, n')) (hv : v ∈ vs) (hu : u ∈ vs) : Recovers x u identity := by
  obtain ⟨hk, ha, -⟩ := (h u hu).same hS (h v hv)
  exact recovers_of_same hS hx hk ha

/-- A re-key of the run's account: no new handle opens the identity; the old handle of the
    run's own slot does. -/
theorem rekeyed_identity (hS : S.Ideal) {w : World β} (hr : Reach S Env w) {identity : Identity S}
    {x : WrappedIdentity β} {v : UnlockedVault β} {n n' : Nat} (hv : w.Vault v)
    (hx : wrapWithVault identity v n = .ok (x, n')) {st : AccountSt β} (hrun : AccountRun S st) (hvst : v ∈ st.handles)
    {old new : String} {slots : List (VaultKeySlot β)} {r : RekeyedAccount β} {m m' : Nat} (hm : w.pos ≤ m)
    (h : rekeyAccount S old new st.stored slots m = .ok (r, m')) :
    List.Forall₂ (fun slot y => unwrapWithVault S x y.new = .error .decryptFailed ∧
      (slot = st.slot → Recovers x y.old identity)) slots r.vaults := by
  obtain ⟨a, _, ha, -, -, -, -, -, hall, -⟩ := rekeyAccount_ok h
  refine hall.imp fun slot y hy => ⟨?_, ?_⟩
  · exact unwrapWithVault_other hS hx (drawn_distinct hS (vault_drawn hS hr hv) hy.fresh.1 (by omega)).symm
  · intro hslot
    obtain ⟨e, he, -, hopen⟩ := hy.old
    rw [hslot] at hopen
    -- The old handle is one more handle of the run.
    have hmount : MountHandle S st y.old := .unlock (.password ha) he hopen
    have hanch := (accountRun_anchored hS hrun).cons (hmount.underKek hS)
    exact hanch.recovers hS hx (List.mem_cons_of_mem _ hvst) List.mem_cons_self

/-- An identity wrapped with one handle of a run opens with every handle of the run; not
    with a handle of another vault, and not with one whose KEK is drawn later: the new
    handle of a re-key or of a reattachment. -/
theorem identity_survives (hS : S.Ideal) {w : World β} (hr : Reach S Env w) {v : UnlockedVault β} (hv : w.Vault v)
    {identity : Identity S} {x : WrappedIdentity β} {n n' : Nat} (hx : wrapWithVault identity v n = .ok (x, n')) :
    (∀ st, VaultRun S st → v ∈ st.handles → ∀ u ∈ st.handles, Recovers x u identity) ∧
      (∀ st, AccountRun S st → v ∈ st.handles → ∀ u ∈ st.handles, Recovers x u identity) ∧
      (∀ u, w.Vault u → u.accountId ≠ v.accountId ∨ u.vaultId ≠ v.vaultId →
        unwrapWithVault S x u = .error .decryptFailed) ∧
      (∀ st, AccountRun S st → v ∈ st.handles → ∀ old new slots r m m', w.pos ≤ m →
        rekeyAccount S old new st.stored slots m = .ok (r, m') →
          List.Forall₂ (fun slot y => unwrapWithVault S x y.new = .error .decryptFailed ∧
            (slot = st.slot → Recovers x y.old identity)) slots r.vaults) ∧
      ∀ a u r m m', w.pos ≤ m → reattachVaultUnderAccount S a u m = .ok (r, m') →
        unwrapWithVault S x r.unlocked = .error .decryptFailed := by
  refine ⟨?_, ?_, ?_, ?_, ?_⟩
  · intro st hrun hvst u hu
    exact (vaultRun_anchored hS hrun).recovers hS hx hvst hu
  · intro st hrun hvst u hu
    exact (accountRun_anchored hS hrun).recovers hS hx hvst hu
  · intro u hu hne
    refine unwrapWithVault_other hS hx fun hk => ?_
    obtain ⟨ha, hid⟩ := one_home hS hr hu hv hk
    rcases hne with hne | hne
    · exact hne ha
    · exact hne hid
  · intro st hrun hvst old new slots r m m' hm h
    exact rekeyed_identity hS hr hv hx hrun hvst hm h
  · intro a u r m m' hm h
    obtain ⟨-, -, -, -, -, hkek, hlt⟩ := wrapUnderAccount_ok h
    have hnew : Drawn S m m' r.unlocked.kek := ⟨m, Nat.le_refl _, hlt, hkek⟩
    exact unwrapWithVault_other hS hx (drawn_distinct hS (vault_drawn hS hr hv) hnew hm).symm

/-! ## A trace -/

/-- An identity, wrapped with the handle of a new vault. -/
def demoIdentity : Identity demo.suite × Nat := okVal (Identity.generate demo.suite demoVault.2) (by decide +kernel)

def demoWrappedIdentity : WrappedIdentity Term × Nat :=
  okVal (wrapWithVault demoIdentity.1 demoVault.1.unlocked demoIdentity.2) (by decide +kernel)

/-- The vault's IKEK is rotated. -/
def demoTurned : (EncryptedKeySet Term × UnlockedVault Term) × Nat :=
  okVal (rotateIkek demo.suite demoVault.1.unlocked demoVault.1.encrypted demoWrappedIdentity.2) (by decide +kernel)

/-- The handle of the rotation opens the identity. -/
theorem identity_survives_rotation : Recovers demoWrappedIdentity.1 demoTurned.1.2 demoIdentity.1 := by
  have hm : deriveMuk demo.suite "a" demoVault.1.encrypted.kdf = .ok demoMuk := by decide +kernel
  have h0 : Reach demo.suite (fun _ => True) (⟨0, {}⟩ : World Term) := .init 0
  have hr := h0.call (Nat.le_refl _) (.createVaultKeys demoVault_created hm)
  have hx : wrapWithVault demoIdentity.1 demoVault.1.unlocked demoIdentity.2 =
      .ok (demoWrappedIdentity.1, demoWrappedIdentity.2) := okVal_eq _
  have hrot : rotateIkek demo.suite demoVault.1.unlocked demoVault.1.encrypted demoWrappedIdentity.2 =
      .ok ((demoTurned.1.1, demoTurned.1.2), demoTurned.2) := okVal_eq _
  have hopen : unlockVault demo.suite "a" demoVault.1.encrypted = .ok demoVault.1.unlocked := by decide +kernel
  have hrun : VaultRun demo.suite ⟨demoTurned.1.1, [demoTurned.1.2, demoVault.1.unlocked]⟩ :=
    .step (.create demoVault_created) (.rotateIkek (.password hopen) hrot)
  exact (identity_survives demo.suite_ideal hr (Or.inl List.mem_cons_self) hx).1 _ hrun
    (List.mem_cons_of_mem _ List.mem_cons_self) _ List.mem_cons_self

end RootkeyCrypto.IdentityRun
