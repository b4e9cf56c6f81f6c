/-
  RootkeyCrypto.Vault.Sessions — several sessions on one vault.

  Each session holds a handle it got at some point of the run, by unlocking, from a
  biometric envelope or from a rotation, and may apply `rotate_vault_key` or `rotate_ikek`
  to whatever keyset is stored now; the result replaces it. The calls take the ids of
  handle and keyset together and nothing else, so a handle that another session's
  rotation has left behind is accepted:
  - `rotateVaultKey_opens_iff`: the result opens to the returned handle whatever the age of
    the handle, but its IKEK is the handle's. A handle from before a `rotate_ikek` brings
    the replaced IKEK back (`stale_rotate_vault_key_revives_ikek`).
  - `rotateIkek_opens_iff`: the result opens only when the handle's VMK is the stored one.
    From before a `rotate_vault_key`, nobody opens the vault again
    (`rotateIkek_locks`, `stale_rotate_ikek_locks_vault`).

  `rotations_of_current`: in a run where every rotation is made with the stored VMK and
  IKEK in hand, each leaves a keyset that opens, with the current password, to the handle
  it returned, and no `rotate_ikek` is undone.
-/

import RootkeyCrypto.Core.Vault
import RootkeyCrypto.Lib.Symbolic

namespace RootkeyCrypto.Sessions

open Lib

variable {β : Type} {S : Suite β}

/-! ## One rotation -/

theorem rotateVaultKey_opens_iff (hS : S.Ideal) {pw : String} {ks ks' : EncryptedKeySet β} {cur v v' : UnlockedVault β}
    {seed seed' : Option (WrappedKey β)} {n n' : Nat} (hcur : unlockVault S pw ks = .ok cur)
    (h : rotateVaultKey S v ks seed n = .ok ((ks', v', seed'), n')) :
    unlockVault S pw ks' = .ok v' ↔ v.kek = cur.kek := by
  obtain ⟨hver, muk, hmuk, hh⟩ := (unlockVault_ok hS).mp hcur
  obtain ⟨ha, hv, hv', hks', hb, -⟩ := rotateVaultKey_ok h
  rw [unlockVault_ok hS, hks', hv']
  rw [hv'] at hb
  constructor
  · rintro ⟨-, muk', -, hh'⟩
    exact (hh'.kek.unique hS hh.kek).2.2
  · intro hk
    exact ⟨hver, muk, hmuk, ha.symm, hv.symm, hk ▸ hh.kek, hb⟩

theorem rotateIkek_opens_iff (hS : S.Ideal) {pw : String} {ks ks' : EncryptedKeySet β} {cur v v' : UnlockedVault β}
    {n n' : Nat} (hcur : unlockVault S pw ks = .ok cur) (h : rotateIkek S v ks n = .ok ((ks', v'), n')) :
    unlockVault S pw ks' = .ok v' ↔ v.kek = cur.kek ∧ v.vmk = cur.vmk := by
  obtain ⟨hver, muk, hmuk, hh⟩ := (unlockVault_ok hS).mp hcur
  obtain ⟨ha, hv, hv', hks', hw, -⟩ := rotateIkek_ok h
  rw [unlockVault_ok hS, hks', hv']
  constructor
  · rintro ⟨-, muk', -, hh'⟩
    exact ⟨(hh'.kek.unique hS hh.kek).2.2, (hh'.below.vmk.unique hS hh.below.vmk).2.2⟩
  · rintro ⟨hk, hm⟩
    refine ⟨hver, muk, hmuk, ha.symm, hv.symm, hk ▸ hh.kek, ?_, hw⟩
    show Wraps S v.kek v.vmk (aadForVmk v.accountId v.vaultId) ks.wrappedVmk
    rw [hk, hm, ← ha, ← hv, ← hh.account, ← hh.vault]
    exact hh.below.vmk

/-- Made with another VMK than the stored one, a new IKEK leaves a keyset no password opens. -/
theorem rotateIkek_locks (hS : S.Ideal) {pw pw' : String} {ks ks' : EncryptedKeySet β} {cur v v' : UnlockedVault β}
    {n n' : Nat} (hcur : unlockVault S pw ks = .ok cur) (h : rotateIkek S v ks n = .ok ((ks', v'), n'))
    (hm : v.vmk ≠ cur.vmk) (u : UnlockedVault β) : unlockVault S pw' ks' ≠ .ok u := by
  intro hu
  obtain ⟨-, _, -, hh⟩ := (unlockVault_ok hS).mp hcur
  obtain ⟨-, _, -, hh'⟩ := (unlockVault_ok hS).mp hu
  obtain ⟨-, -, -, hks', hw, -⟩ := rotateIkek_ok h
  rw [hks'] at hh'
  exact hm (((hw.unique hS hh'.below.ikek).1).trans (hh'.below.vmk.unique hS hh.below.vmk).2.2)

/-! ## Runs -/

structure St (β : Type) where
  pos : Nat
  /-- What is stored. -/
  stored : EncryptedKeySet β
  password : String
  /-- Every handle some session got so far. -/
  handles : List (UnlockedVault β)
  /-- The IKEK the newest `rotate_ikek` drew, or the first one. -/
  newest : ItemKekKey β

/-- What a step did: a rotation says which handle it used and which it returned. -/
inductive Event (β : Type) where
  | created
  | unlocked (v : UnlockedVault β)
  | password
  | rotated (used returned : UnlockedVault β)

inductive Step (S : Suite β) : St β → Event β → St β → Prop
  | unlock {a : St β} {pw v} (h : unlockVault S pw a.stored = .ok v) :
      Step S a (.unlocked v) { a with handles := v :: a.handles }
  | biometric {a : St β} {w e v} (h : unlockViaBiometric S w e a.stored = .ok v) :
      Step S a (.unlocked v) { a with handles := v :: a.handles }
  | changePassword {a : St β} {old new ks n n'} (hn : a.pos ≤ n)
      (h : changeMasterPassword S old new a.stored n = .ok (ks, n')) :
      Step S a .password { a with pos := n', stored := ks, password := new }
  | vaultKey {a : St β} {v seed ks v' seed' n n'} (hv : v ∈ a.handles) (hn : a.pos ≤ n)
      (h : rotateVaultKey S v a.stored seed n = .ok ((ks, v', seed'), n')) :
      Step S a (.rotated v v') { a with pos := n', stored := ks, handles := v' :: a.handles }
  | ikek {a : St β} {v ks v' n n'} (hv : v ∈ a.handles) (hn : a.pos ≤ n)
      (h : rotateIkek S v a.stored n = .ok ((ks, v'), n')) :
      Step S a (.rotated v v') { a with pos := n', stored := ks, handles := v' :: a.handles, newest := v'.ikek }

/-- Runs from a new vault whose steps all meet a condition. -/
inductive Run (S : Suite β) (Cond : St β → Event β → Prop) : St β → Prop
  | create {pw r n n'} (h : createVaultKeys S pw n = .ok (r, n')) :
      Run S Cond ⟨n', r.encrypted, pw, [r.unlocked], r.unlocked.ikek⟩
  | step {a : St β} {e : Event β} {b : St β} (ha : Run S Cond a) (h : Step S a e b) (he : Cond a e) : Run S Cond b

/-- A rotation uses the VMK and the IKEK that the stored keyset opens to. -/
def Current (S : Suite β) (a : St β) : Event β → Prop
  | .rotated v _ => ∃ cur, unlockVault S a.password a.stored = .ok cur ∧ v.vmk = cur.vmk ∧ v.ikek = cur.ikek
  | _ => True

/-- The stored keyset opens, to the newest IKEK, and every handle has its ids and KEK. -/
structure Inv (S : Suite β) (a : St β) (cur : UnlockedVault β) : Prop where
  opens : unlockVault S a.password a.stored = .ok cur
  newest : cur.ikek = a.newest
  handles : ∀ v ∈ a.handles, v.accountId = cur.accountId ∧ v.vaultId = cur.vaultId ∧ v.kek = cur.kek

/-- Whatever opens the stored keys opens them to the same handle. -/
theorem Inv.same (hS : S.Ideal) {a : St β} {cur v : UnlockedVault β} (hi : Inv S a cur)
    (ha : v.accountId = a.stored.accountId) (hv : v.vaultId = a.stored.vaultId)
    (hb : Below S v a.stored.wrappedVmk a.stored.wrappedIkek) : v = cur := by
  obtain ⟨-, muk, -, hh⟩ := (unlockVault_ok hS).mp hi.opens
  obtain ⟨hk, hm, hik⟩ := hb.unique hS hh.below
  exact UnlockedVault.ext (ha.trans hh.account.symm) (hv.trans hh.vault.symm) hk hm hik

theorem inv_unlocked {a : St β} {cur : UnlockedVault β} (hi : Inv S a cur) :
    Inv S { a with handles := cur :: a.handles } cur :=
  ⟨hi.opens, hi.newest, List.forall_mem_cons.mpr ⟨⟨rfl, rfl, rfl⟩, hi.handles⟩⟩

/-- A rotation keeps the invariant when the result opens to the returned handle, which has
    the ids and the KEK of the used one. -/
theorem inv_rotated {a b : St β} {cur v v' : UnlockedVault β} (hi : Inv S a cur) (hv : v ∈ a.handles)
    (hid : v'.accountId = v.accountId ∧ v'.vaultId = v.vaultId ∧ v'.kek = v.kek) (hb : b.handles = v' :: a.handles)
    (hopen : unlockVault S b.password b.stored = .ok v') (hnew : v'.ikek = b.newest) : Inv S b v' := by
  obtain ⟨h1, h2, h3⟩ := hi.handles v hv
  refine ⟨hopen, hnew, ?_⟩
  rw [hb, List.forall_mem_cons]
  refine ⟨⟨rfl, rfl, rfl⟩, fun u hu => ?_⟩
  obtain ⟨h1', h2', h3'⟩ := hi.handles u hu
  rw [hid.1, hid.2.1, hid.2.2, h1, h2, h3]
  exact ⟨h1', h2', h3'⟩

/-- What the stored keyset opens to after a step. -/
def after (cur : UnlockedVault β) : Event β → UnlockedVault β
  | .rotated _ v' => v'
  | _ => cur

theorem step_inv (hS : S.Ideal) {a b : St β} {e : Event β} {cur : UnlockedVault β} (hi : Inv S a cur)
    (hs : Step S a e b) (he : Current S a e) : Inv S b (after cur e) := by
  cases hs with
  | unlock h =>
    obtain ⟨-, muk, -, hh⟩ := (unlockVault_ok hS).mp h
    cases hi.same hS hh.account hh.vault hh.below
    exact inv_unlocked hi
  | biometric h =>
    obtain ⟨-, -, ha, hv, -, hb⟩ := (unlockViaBiometric_ok hS).mp h
    cases hi.same hS ha hv hb
    exact inv_unlocked hi
  | changePassword hn h =>
    obtain ⟨v, muk, hv, hmuk, hw, hks, -⟩ := changeMasterPassword_ok h
    obtain ⟨hver, _, -, hh⟩ := (unlockVault_ok hS).mp hv
    cases hi.same hS hh.account hh.vault hh.below
    refine ⟨(unlockVault_ok hS).mpr ?_, hi.newest, hi.handles⟩
    rw [hks]
    exact ⟨hver, muk, hmuk, hh.account, hh.vault, hw, hh.below⟩
  | @vaultKey v _ _ v' _ _ _ hv hn h =>
    obtain ⟨cur', hcur', -, hik⟩ := he
    cases hcur'.symm.trans hi.opens
    obtain ⟨-, -, hv', -⟩ := rotateVaultKey_ok h
    refine inv_rotated hi hv (by rw [hv']; exact ⟨rfl, rfl, rfl⟩) rfl
      ((rotateVaultKey_opens_iff hS hi.opens h).mpr (hi.handles v hv).2.2) ?_
    rw [hv']
    exact hik.trans hi.newest
  | @ikek v _ v' _ _ hv hn h =>
    obtain ⟨cur', hcur', hm, -⟩ := he
    cases hcur'.symm.trans hi.opens
    obtain ⟨-, -, hv', -⟩ := rotateIkek_ok h
    exact inv_rotated hi hv (by rw [hv']; exact ⟨rfl, rfl, rfl⟩) rfl
      ((rotateIkek_opens_iff hS hi.opens h).mpr ⟨(hi.handles v hv).2.2, hm⟩) rfl

theorem run_inv (hS : S.Ideal) {a : St β} (h : Run S (Current S) a) : ∃ cur, Inv S a cur := by
  induction h with
  | create h =>
    obtain ⟨hver, ⟨muk, hmuk, hh⟩, -⟩ := createVaultKeys_ok h
    exact ⟨_, (unlockVault_ok hS).mpr ⟨hver ▸ keyset_readable, muk, hmuk, hh⟩, rfl, by simp⟩
  | @step a e b _ hs he ih =>
    obtain ⟨cur, hi⟩ := ih
    exact ⟨_, step_inv hS hi hs he⟩

/-- While every rotation uses the stored VMK and IKEK: the stored keyset opens to the
    newest IKEK, and each rotation's result opens to the handle it returned. -/
theorem rotations_of_current (hS : S.Ideal) {a : St β} (h : Run S (Current S) a) :
    (∃ cur, unlockVault S a.password a.stored = .ok cur ∧ cur.ikek = a.newest) ∧
      ∀ v v' b, Step S a (.rotated v v') b → Current S a (.rotated v v') →
        unlockVault S b.password b.stored = .ok v' ∧ v'.ikek = b.newest := by
  obtain ⟨cur, hi⟩ := run_inv hS h
  refine ⟨⟨cur, hi.opens, hi.newest⟩, fun v v' b hs hc => ?_⟩
  have hb : Inv S b v' := step_inv hS hi hs hc
  exact ⟨hb.opens, hb.newest⟩

/-! ## Traces -/

/-- After the creation. -/
def demoStart : St Term :=
  ⟨demoVault.2, demoVault.1.encrypted, "a", [demoVault.1.unlocked], demoVault.1.unlocked.ikek⟩

/-- One session rotates the VMK with the handle of the creation. -/
def demoVmk : (EncryptedKeySet Term × UnlockedVault Term × Option (WrappedKey Term)) × Nat :=
  okVal (rotateVaultKey demo.suite demoVault.1.unlocked demoStart.stored none demoStart.pos) (by decide +kernel)

def demoVmkSt : St Term :=
  { demoStart with pos := demoVmk.2, stored := demoVmk.1.1, handles := demoVmk.1.2.1 :: demoStart.handles }

/-- Another session, still holding the handle of the creation, rotates the IKEK. -/
def demoLocked : (EncryptedKeySet Term × UnlockedVault Term) × Nat :=
  okVal (rotateIkek demo.suite demoVault.1.unlocked demoVmkSt.stored demoVmkSt.pos) (by decide +kernel)

def demoLockedSt : St Term :=
  { demoVmkSt with pos := demoLocked.2, stored := demoLocked.1.1, handles := demoLocked.1.2 :: demoVmkSt.handles,
                   newest := demoLocked.1.2.ikek }

theorem demo_start (Cond : St Term → Event Term → Prop) : Run demo.suite Cond demoStart :=
  .create demoVault_created

theorem demo_vmk : Step demo.suite demoStart (.rotated demoVault.1.unlocked demoVmk.1.2.1) demoVmkSt := by
  have h : rotateVaultKey demo.suite demoVault.1.unlocked demoStart.stored none demoStart.pos =
      .ok ((demoVmk.1.1, demoVmk.1.2.1, demoVmk.1.2.2), demoVmk.2) := okVal_eq _
  exact .vaultKey List.mem_cons_self (Nat.le_refl _) h

/-- The first rotation of that trace used the stored VMK and IKEK. -/
theorem rotations_of_current_vmk : unlockVault demo.suite demoVmkSt.password demoVmkSt.stored = .ok demoVmk.1.2.1 ∧
    demoVmk.1.2.1.ikek = demoVmkSt.newest :=
  (rotations_of_current demo.suite_ideal (demo_start _)).2 _ _ _ demo_vmk
    ⟨demoVault.1.unlocked, by decide +kernel, rfl, rfl⟩

/-- The second did not: it succeeds, and the password no longer opens what it leaves. -/
theorem stale_rotate_ikek_locks_vault :
    Run demo.suite (fun _ _ => True) demoVmkSt ∧
      Step demo.suite demoVmkSt (.rotated demoVault.1.unlocked demoLocked.1.2) demoLockedSt ∧
      unlockVault demo.suite demoLockedSt.password demoLockedSt.stored = .error .decryptFailed := by
  have h : rotateIkek demo.suite demoVault.1.unlocked demoVmkSt.stored demoVmkSt.pos =
      .ok ((demoLocked.1.1, demoLocked.1.2), demoLocked.2) := okVal_eq _
  exact ⟨(demo_start _).step demo_vmk trivial, .ikek (List.mem_cons_of_mem _ List.mem_cons_self) (Nat.le_refl _) h,
    by decide +kernel⟩

/-- One session rotates the IKEK; another, with the handle of the creation, the VMK. -/
def demoIkek : (EncryptedKeySet Term × UnlockedVault Term) × Nat :=
  okVal (rotateIkek demo.suite demoVault.1.unlocked demoStart.stored demoStart.pos) (by decide +kernel)

def demoRevived : (EncryptedKeySet Term × UnlockedVault Term × Option (WrappedKey Term)) × Nat :=
  okVal (rotateVaultKey demo.suite demoVault.1.unlocked demoIkek.1.1 none demoIkek.2) (by decide +kernel)

/-- What is stored opens, to the IKEK that was replaced. -/
theorem stale_rotate_vault_key_revives_ikek :
    unlockVault demo.suite "a" demoRevived.1.1 = .ok demoRevived.1.2.1 ∧
      demoRevived.1.2.1.ikek = demoVault.1.unlocked.ikek ∧ demoRevived.1.2.1.ikek ≠ demoIkek.1.2.ikek := by
  decide +kernel

end RootkeyCrypto.Sessions
