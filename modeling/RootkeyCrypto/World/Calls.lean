/-
  RootkeyCrypto.World.Calls — any number of accounts and vaults, and every call that wraps,
  unwraps or draws their keys.

  A `World` remembers every key that was wrapped, for what, under which key and with which
  result (`Rec`), every handle, root key and wrapper key a call returned, and every item
  payload. A call takes handles and accounts the world has, and keysets, entries, slots and
  envelopes put together from wrapped keys the world has, with whatever ids, parameters
  and versions; passwords, item plaintexts, signing seeds and shared vault keys come from
  outside, from a set `Env` of bytes. Keysets made for one vault or account may thus be
  handed in for another, old ones for new ones.

  `reach_sound`: every remembered wrapping is one, and every IKEK was wrapped in a call
  that made a handle of that vault holding it with the VMK it was wrapped under. `reach_only`: no
  key comes from anywhere but outside, the RNG and BLAKE3 over these.
-/

import RootkeyCrypto.Core.Recovery
import RootkeyCrypto.Core.SharedAccount

namespace RootkeyCrypto.Worlds

open Lib

variable {β : Type}

/-- A key was wrapped: for what, under which key, which key, the result. -/
structure Rec (β : Type) where
  ctx : Context
  key : SymmetricKey β
  plain : SymmetricKey β
  out : WrappedKey β

/-- An item payload and what it holds. -/
structure Payload (β : Type) where
  plain : List β
  out : SealedBlob β

/-- What one call adds. -/
structure Made (β : Type) where
  wrapped : List (Rec β) := []
  /-- Handles of keys that the call made or wrapped anew. -/
  born : List (UnlockedVault β) := []
  /-- Handles of keys that the call unwrapped. -/
  opened : List (UnlockedVault β) := []
  accounts : List (UnlockedAccount β) := []
  /-- Wrapper keys and signing seeds. -/
  keys : List (SymmetricKey β) := []
  payloads : List (Payload β) := []

structure World (β : Type) where
  pos : Nat
  all : Made β

namespace World

/-- The wrapped key was made in the world. -/
def Has (w : World β) (x : WrappedKey β) : Prop := ∃ r ∈ w.all.wrapped, r.out = x

def HasKeyset (w : World β) (ks : EncryptedKeySet β) : Prop :=
  w.Has ks.wrappedKek ∧ w.Has ks.wrappedVmk ∧ w.Has ks.wrappedIkek

def HasAccount (w : World β) (ks : AccountKeySet β) : Prop :=
  w.Has ks.wrappedArk ∧ (∀ x ∈ ks.wrappedArkRecovery, w.Has x) ∧ ∀ e ∈ ks.vaults, w.Has e.wrappedKek

def HasSlot (w : World β) (s : VaultKeySlot β) : Prop := w.Has s.wrappedVmk ∧ w.Has s.wrappedIkek

/-- Some call returned the handle. -/
def Vault (w : World β) (v : UnlockedVault β) : Prop := v ∈ w.all.born ∨ v ∈ w.all.opened

def add (w : World β) (n' : Nat) (m : Made β) : World β where
  pos := n'
  all := { wrapped := m.wrapped ++ w.all.wrapped, born := m.born ++ w.all.born, opened := m.opened ++ w.all.opened,
           accounts := m.accounts ++ w.all.accounts, keys := m.keys ++ w.all.keys,
           payloads := m.payloads ++ w.all.payloads }

end World

/-- The two wrapped keys below a KEK. -/
def belowRecs (v : UnlockedVault β) (wv wi : WrappedKey β) : List (Rec β) :=
  [⟨.vmk v.accountId v.vaultId, v.kek, v.vmk, wv⟩, ⟨.ikek v.vaultId, v.vmk, v.ikek, wi⟩]

/-- The three wrapped keys of a vault under an account. -/
def mountRecs (a : UnlockedAccount β) (e : AccountVaultEntry β) (s : VaultKeySlot β) (v : UnlockedVault β) :
    List (Rec β) :=
  ⟨.vaultKek a.accountId e.vaultId, a.ark, v.kek, e.wrappedKek⟩ :: belowRecs v s.wrappedVmk s.wrappedIkek

/-- The entry's KEK, as wrapped under a root key. -/
def EntryRec (S : Suite β) (accountId : Id) (ark : AccountRootKey β) (e : AccountVaultEntry β) (r : Rec β) : Prop :=
  ∃ kek, unwrapKey S ark e.wrappedKek (aadForVaultKek accountId e.vaultId) = .ok kek ∧
    r = ⟨.vaultKek accountId e.vaultId, ark, kek, e.wrappedKek⟩

/-- All bytes of the key are in the set. -/
def Bytes (P : β → Prop) (k : SymmetricKey β) : Prop := ∀ b ∈ k.toList, P b

inductive Call (S : Suite β) (Env : β → Prop) (w : World β) (n n' : Nat) : Made β → Prop
  -- One vault.
  | createVaultKeys {pw r muk} (h : createVaultKeys S pw n = .ok (r, n'))
      (hm : deriveMuk S pw r.encrypted.kdf = .ok muk) :
      Call S Env w n n'
        { wrapped := ⟨.kek r.encrypted.accountId r.encrypted.vaultId r.encrypted.kdf, muk, r.unlocked.kek,
            r.encrypted.wrappedKek⟩ :: belowRecs r.unlocked r.encrypted.wrappedVmk r.encrypted.wrappedIkek
          born := [r.unlocked] }
  | unlockVault {pw ks v} (hks : w.HasKeyset ks) (h : unlockVault S pw ks = .ok v) (hn : n' = n) :
      Call S Env w n n' { opened := [v] }
  | unlockViaBiometric {k e ks v} (he : w.Has e.wrappedKek) (hv : w.Has ks.wrappedVmk) (hi : w.Has ks.wrappedIkek)
      (h : unlockViaBiometric S k e ks = .ok v) (hn : n' = n) : Call S Env w n n' { opened := [v] }
  | changeMasterPassword {old new ks next v muk} (hks : w.HasKeyset ks)
      (h : changeMasterPassword S old new ks n = .ok (next, n')) (hv : unlockVault S old ks = .ok v)
      (hm : deriveMuk S new next.kdf = .ok muk) :
      Call S Env w n n' { wrapped := [⟨.kek ks.accountId ks.vaultId next.kdf, muk, v.kek, next.wrappedKek⟩] }
  | rotateVaultKey {v ks ks' v'} (hv : w.Vault v) (h : rotateVaultKey S v ks none n = .ok ((ks', v', none), n')) :
      Call S Env w n n' { wrapped := belowRecs v' ks'.wrappedVmk ks'.wrappedIkek, born := [v'] }
  | rotateVaultKeySeed {v ks x ks' v' x' s} (hv : w.Vault v) (hx : w.Has x)
      (h : rotateVaultKey S v ks (some x) n = .ok ((ks', v', some x'), n'))
      (hs : unwrapSigningSeed S v x = .ok s) :
      Call S Env w n n'
        { wrapped := ⟨.signingSeed v.vaultId, v'.vmk, s, x'⟩ :: belowRecs v' ks'.wrappedVmk ks'.wrappedIkek
          born := [v'] }
  | rotateIkek {v ks ks' v'} (hv : w.Vault v) (h : rotateIkek S v ks n = .ok ((ks', v'), n')) :
      Call S Env w n n' { wrapped := [⟨.ikek v.vaultId, v.vmk, v'.ikek, ks'.wrappedIkek⟩], born := [v'] }
  | enableBiometricUnlock {v r} (hv : w.Vault v) (h : enableBiometricUnlock S v n = .ok (r, n')) :
      Call S Env w n n'
        { wrapped := [⟨.biometric v.vaultId, r.wrapperKey, v.kek, r.envelope.wrappedKek⟩], keys := [r.wrapperKey] }
  | wrapSigningSeed {v seed x} (hv : w.Vault v) (hs : Bytes Env seed)
      (h : wrapSigningSeed S v seed n = .ok (x, n')) :
      Call S Env w n n' { wrapped := [⟨.signingSeed v.vaultId, v.vmk, seed, x⟩] }
  | unwrapSigningSeed {v x s} (hv : w.Vault v) (hx : w.Has x) (h : unwrapSigningSeed S v x = .ok s) (hn : n' = n) :
      Call S Env w n n' { keys := [s] }
  -- Items.
  | encryptItem {p id v e k} (hv : w.Vault v) (hp : ∀ b ∈ p, Env b) (h : encryptItem S p id v n = .ok (e, n'))
      (hk : S.osKey n = some k) :
      Call S Env w n n'
        { wrapped := [⟨.itemKey v.vaultId id, v.ikek, k, e.wrappedItemKey⟩], payloads := [⟨p, e.blob⟩] }
  | rewrapItemKey {v v' e id e' k} (hv : w.Vault v) (hv' : w.Vault v') (he : w.Has e.wrappedItemKey)
      (h : rewrapItemKey S v v' e id n = .ok (e', n'))
      (hk : unwrapKey S v.ikek e.wrappedItemKey (aadForItemKey v.vaultId id) = .ok k) :
      Call S Env w n n' { wrapped := [⟨.itemKey v'.vaultId id, v'.ikek, k, e'.wrappedItemKey⟩] }
  -- One account.
  | createAccount {pw r muk} (h : createAccount S pw n = .ok (r, n')) (hm : deriveMuk S pw r.encrypted.kdf = .ok muk) :
      Call S Env w n n'
        { wrapped := [⟨.ark r.unlocked.accountId r.encrypted.kdf, muk, r.unlocked.ark, r.encrypted.wrappedArk⟩]
          accounts := [r.unlocked] }
  | unlockAccount {pw ks a} (hks : w.Has ks.wrappedArk) (h : unlockAccount S pw ks = .ok a) (hn : n' = n) :
      Call S Env w n n' { accounts := [a] }
  | unlockAccountWithRecoveryKey {rk ks a} (hks : ∀ x ∈ ks.wrappedArkRecovery, w.Has x)
      (h : unlockAccountWithRecoveryKey S rk ks = .ok a) (hn : n' = n) : Call S Env w n n' { accounts := [a] }
  | unlockAccountViaBiometric {k e ks a} (he : w.Has e.wrappedArk) (h : unlockAccountViaBiometric S k e ks = .ok a)
      (hn : n' = n) : Call S Env w n n' { accounts := [a] }
  | unlockAccountWithArk {ark ks a} (hark : Bytes Env ark) (h : unlockAccountWithArk S ark ks = .ok a) (hn : n' = n) :
      Call S Env w n n' { accounts := [a] }
  | changeAccountPassword {old new ks next a muk} (hks : w.Has ks.wrappedArk)
      (h : changeAccountPassword S old new ks n = .ok (next, n')) (ha : unlockAccount S old ks = .ok a)
      (hm : deriveMuk S new next.kdf = .ok muk) :
      Call S Env w n n' { wrapped := [⟨.ark ks.accountId next.kdf, muk, a.ark, next.wrappedArk⟩] }
  | resetPasswordWithRecoveryKey {rk new ks next a muk} (hks : ∀ x ∈ ks.wrappedArkRecovery, w.Has x)
      (h : resetPasswordWithRecoveryKey S rk new ks n = .ok (next, n'))
      (ha : unlockAccountWithRecoveryKey S rk ks = .ok a) (hm : deriveMuk S new next.kdf = .ok muk) :
      Call S Env w n n' { wrapped := [⟨.ark ks.accountId next.kdf, muk, a.ark, next.wrappedArk⟩] }
  | setupRecoveryKey {a shown x raw} (ha : a ∈ w.all.accounts) (h : setupRecoveryKey S a n = .ok ((shown, x), n'))
      (hraw : normalizeRecoveryKey shown = .ok raw) :
      Call S Env w n n' { wrapped := [⟨.recovery a.accountId, recoveryKekFrom S raw a.accountId, a.ark, x⟩] }
  | enableAccountBiometric {a r} (ha : a ∈ w.all.accounts) (h : enableAccountBiometric S a n = .ok (r, n')) :
      Call S Env w n n'
        { wrapped := [⟨.accountBiometric a.accountId, r.wrapperKey, a.ark, r.envelope.wrappedArk⟩]
          keys := [r.wrapperKey] }
  | rotateAccountRootKey {pw ks next a muk rs} (hks : w.HasAccount ks)
      (h : rotateAccountRootKey S pw ks n = .ok ((next, a), n')) (hm : deriveMuk S pw next.kdf = .ok muk)
      (hrs : List.Forall₂ (EntryRec S ks.accountId a.ark) next.vaults rs) :
      Call S Env w n n'
        { wrapped := ⟨.ark ks.accountId next.kdf, muk, a.ark, next.wrappedArk⟩ :: rs, accounts := [a] }
  | rekeyAccount {old new ks slots r muk} (hks : w.HasAccount ks) (hs : ∀ s ∈ slots, w.HasSlot s)
      (h : rekeyAccount S old new ks slots n = .ok (r, n')) (hm : deriveMuk S new r.encrypted.kdf = .ok muk) :
      Call S Env w n n'
        { wrapped := ⟨.ark ks.accountId r.encrypted.kdf, muk, r.unlocked.ark, r.encrypted.wrappedArk⟩ ::
            r.vaults.flatMap fun x => mountRecs r.unlocked x.entry x.slot x.new
          born := r.vaults.map (·.new), opened := r.vaults.map (·.old), accounts := [r.unlocked] }
  -- Vaults of an account.
  | unlockAccountVault {a e s v} (ha : a ∈ w.all.accounts) (he : w.Has e.wrappedKek) (hs : w.HasSlot s)
      (h : unlockAccountVault S a e s = .ok v) (hn : n' = n) : Call S Env w n n' { opened := [v] }
  | createVaultUnderAccount {a r} (ha : a ∈ w.all.accounts) (h : createVaultUnderAccount S a n = .ok (r, n')) :
      Call S Env w n n' { wrapped := mountRecs a r.entry r.slot r.unlocked, born := [r.unlocked] }
  | attachSharedVaultUnderAccount {a id k r} (ha : a ∈ w.all.accounts) (hk : Bytes Env k)
      (h : attachSharedVaultUnderAccount S a id k n = .ok (r, n')) :
      Call S Env w n n' { wrapped := mountRecs a r.entry r.slot r.unlocked, born := [r.unlocked] }
  | rotateSharedVaultKeys {v k s v'} (hv : w.Vault v) (hk : Bytes Env k)
      (h : rotateSharedVaultKeys S v k n = .ok ((s, v'), n')) :
      Call S Env w n n' { wrapped := belowRecs v' s.wrappedVmk s.wrappedIkek, born := [v'] }
  | reattachVaultUnderAccount {a v r} (ha : a ∈ w.all.accounts) (hv : w.Vault v)
      (h : reattachVaultUnderAccount S a v n = .ok (r, n')) :
      Call S Env w n n' { wrapped := mountRecs a r.entry r.slot r.unlocked, born := [r.unlocked] }

inductive Reach (S : Suite β) (Env : β → Prop) : World β → Prop
  | init (n : Nat) : Reach S Env ⟨n, {}⟩
  | call {w : World β} {n n' m} (hw : Reach S Env w) (hn : w.pos ≤ n) (h : Call S Env w n n' m) :
      Reach S Env (w.add n' m)

/-! ## What was wrapped was wrapped -/

/-- Every record is a wrapping; an IKEK was wrapped for a handle made at the same time. -/
structure Sound (S : Suite β) (m : Made β) : Prop where
  wraps : ∀ r ∈ m.wrapped, Wraps S r.key r.plain r.ctx.bytes r.out
  pairs : ∀ r ∈ m.wrapped, ∀ id, r.ctx = .ikek id → ∃ v ∈ m.born, v.vaultId = id ∧ v.vmk = r.key ∧ v.ikek = r.plain
  payloads : ∀ x ∈ m.payloads, ∃ k a, Seals S k x.plain a x.out

variable {S : Suite β} {Env : β → Prop}

theorem sound_none {m : Made β} (h : m.wrapped = []) (h' : m.payloads = []) : Sound S m := by
  refine ⟨?_, ?_, ?_⟩ <;> simp [h, h']

/-- One wrapped key of another kind than an IKEK. -/
theorem sound_one {m : Made β} {r : Rec β} (h : m.wrapped = [r]) (hw : Wraps S r.key r.plain r.ctx.bytes r.out)
    (hr : ∀ id, r.ctx ≠ .ikek id) (h' : m.payloads = []) : Sound S m := by
  refine ⟨?_, ?_, by simp [h']⟩
  · rw [h]
    exact List.forall_mem_singleton.mpr hw
  · rw [h]
    exact List.forall_mem_singleton.mpr fun id hid => absurd hid (hr id)

theorem below_wraps {v : UnlockedVault β} {wv wi : WrappedKey β} (h : Below S v wv wi) :
    ∀ r ∈ belowRecs v wv wi, Wraps S r.key r.plain r.ctx.bytes r.out :=
  List.forall_mem_cons.mpr ⟨h.vmk, List.forall_mem_singleton.mpr h.ikek⟩

theorem below_pairs (v : UnlockedVault β) (wv wi : WrappedKey β) :
    ∀ r ∈ belowRecs v wv wi, ∀ id, r.ctx = .ikek id → v.vaultId = id ∧ v.vmk = r.key ∧ v.ikek = r.plain := by
  refine List.forall_mem_cons.mpr ⟨fun id h => (by cases h), List.forall_mem_singleton.mpr fun id h => ?_⟩
  cases h
  exact ⟨rfl, rfl, rfl⟩

/-- A handle with the two wrapped keys below its KEK, and one more wrapped key. -/
theorem sound_below (rs : List (Rec β)) {m : Made β} {v : UnlockedVault β} {wv wi : WrappedKey β}
    (h : m.wrapped = rs ++ belowRecs v wv wi) (hv : m.born = [v]) (hb : Below S v wv wi)
    (hrs : ∀ r ∈ rs, Wraps S r.key r.plain r.ctx.bytes r.out ∧ ∀ id, r.ctx ≠ .ikek id) (h' : m.payloads = []) :
    Sound S m := by
  refine ⟨?_, ?_, by simp [h']⟩
  · rw [h]
    exact List.forall_mem_append.mpr ⟨fun r hr => (hrs r hr).1, below_wraps hb⟩
  · rw [h, hv]
    refine List.forall_mem_append.mpr ⟨fun r hr id hid => absurd hid ((hrs r hr).2 id), fun r hr id hid => ?_⟩
    exact ⟨v, List.mem_cons_self, below_pairs v wv wi r hr id hid⟩

theorem mount_wraps {a : UnlockedAccount β} {e : AccountVaultEntry β} {s : VaultKeySlot β} {v : UnlockedVault β}
    (h : Mounts S a e s v) : ∀ r ∈ mountRecs a e s v, Wraps S r.key r.plain r.ctx.bytes r.out :=
  List.forall_mem_cons.mpr ⟨h.kek, below_wraps h.below⟩

theorem mount_pairs (a : UnlockedAccount β) (e : AccountVaultEntry β) (s : VaultKeySlot β) (v : UnlockedVault β) :
    ∀ r ∈ mountRecs a e s v, ∀ id, r.ctx = .ikek id → v.vaultId = id ∧ v.vmk = r.key ∧ v.ikek = r.plain :=
  List.forall_mem_cons.mpr ⟨fun id h => (by cases h), below_pairs v _ _⟩

theorem sound_mount {a : UnlockedAccount β} {r : VaultUnderAccount β} (h : Mounts S a r.entry r.slot r.unlocked) :
    Sound S { wrapped := mountRecs a r.entry r.slot r.unlocked, born := [r.unlocked] } :=
  ⟨mount_wraps h, fun x hx id hid => ⟨_, List.mem_cons_self, mount_pairs _ _ _ _ x hx id hid⟩,
    fun x hx => (by cases hx)⟩

theorem call_sound (hS : S.Ideal) {w : World β} {n n' : Nat} {m : Made β} (h : Call S Env w n n' m) : Sound S m := by
  cases h with
  | createVaultKeys h hm =>
    obtain ⟨-, ⟨muk, hmuk, hh⟩, -⟩ := createVaultKeys_ok h
    cases hm.symm.trans hmuk
    exact sound_below [_] rfl rfl hh.below (List.forall_mem_singleton.mpr ⟨hh.kek, fun id => (by simp)⟩) rfl
  | unlockVault => exact sound_none rfl rfl
  | unlockViaBiometric => exact sound_none rfl rfl
  | changeMasterPassword _ h hv hm =>
    obtain ⟨v, muk, hv', hmuk, hw, -⟩ := changeMasterPassword_ok h
    cases hv.symm.trans hv'
    cases hm.symm.trans hmuk
    exact sound_one rfl hw (fun id => (by simp)) rfl
  | rotateVaultKey _ h =>
    obtain ⟨-, -, -, -, hb, -⟩ := rotateVaultKey_ok h
    exact sound_below [] rfl rfl hb (fun r hr => (by cases hr)) rfl
  | rotateVaultKeySeed _ _ h hs =>
    obtain ⟨-, -, hv, -, hb, hseed, -⟩ := rotateVaultKey_ok h
    obtain ⟨s, hs', hw⟩ := hseed
    cases hs.symm.trans hs'
    rw [hv] at hw
    exact sound_below [_] rfl rfl hb (List.forall_mem_singleton.mpr ⟨hw, fun id => (by simp)⟩) rfl
  | @rotateIkek v ks ks' v' _ h =>
    obtain ⟨-, -, hv, -, hw, -⟩ := rotateIkek_ok h
    refine ⟨List.forall_mem_singleton.mpr hw, List.forall_mem_singleton.mpr fun id hid => ?_, fun x hx => (by cases hx)⟩
    refine ⟨v', List.mem_cons_self, ?_⟩
    cases hid
    rw [hv]
    exact ⟨rfl, rfl, rfl⟩
  | enableBiometricUnlock _ h =>
    obtain ⟨-, -, hw, -⟩ := enableBiometricUnlock_ok h
    exact sound_one rfl hw (fun id => (by simp)) rfl
  | wrapSigningSeed _ _ h => exact sound_one rfl (wrapSigningSeed_ok h).1 (fun id => (by simp)) rfl
  | unwrapSigningSeed => exact sound_none rfl rfl
  | encryptItem _ _ h hk =>
    obtain ⟨-, -, k, hk', hw, hb⟩ := encryptItem_ok h
    cases hk.symm.trans hk'
    exact ⟨List.forall_mem_singleton.mpr hw, List.forall_mem_singleton.mpr fun id hid => (by cases hid),
      List.forall_mem_singleton.mpr ⟨_, _, hb⟩⟩
  | rewrapItemKey _ _ _ h hk =>
    obtain ⟨-, -, -, k, hw, hw'⟩ := rewrapItemKey_ok hS h
    cases hk.symm.trans ((unwrapKey_ok hS).mpr hw)
    exact sound_one rfl hw' (fun id => (by simp)) rfl
  | createAccount h hm =>
    obtain ⟨kdf, muk, wa, henc, hmuk, hw, -⟩ := createAccount_ok h
    rw [henc] at hm
    cases hm.symm.trans hmuk
    exact sound_one rfl (by rw [henc]; exact hw) (fun id => (by simp)) rfl
  | unlockAccount => exact sound_none rfl rfl
  | unlockAccountWithRecoveryKey => exact sound_none rfl rfl
  | unlockAccountViaBiometric => exact sound_none rfl rfl
  | unlockAccountWithArk => exact sound_none rfl rfl
  | changeAccountPassword _ h ha hm =>
    obtain ⟨a, muk, ha', hmuk, hw, -⟩ := changeAccountPassword_ok h
    cases ha.symm.trans ha'
    cases hm.symm.trans hmuk
    exact sound_one rfl hw (fun id => (by simp)) rfl
  | resetPasswordWithRecoveryKey _ h ha hm =>
    obtain ⟨a, muk, ha', hmuk, hw, -⟩ := resetPasswordWithRecoveryKey_ok h
    cases ha.symm.trans ha'
    cases hm.symm.trans hmuk
    exact sound_one rfl hw (fun id => (by simp)) rfl
  | setupRecoveryKey _ h hraw =>
    obtain ⟨raw, hraw', hw, -⟩ := setupRecoveryKey_ok h
    cases hraw.symm.trans hraw'
    exact sound_one rfl hw (fun id => (by simp)) rfl
  | enableAccountBiometric _ h =>
    obtain ⟨-, -, hw, -⟩ := enableAccountBiometric_ok h
    exact sound_one rfl hw (fun id => (by simp)) rfl
  | @rotateAccountRootKey _ _ _ _ _ rs _ h hm hrs =>
    obtain ⟨_, muk, -, -, -, hmuk, hw, -⟩ := rotateAccountRootKey_ok hS h
    cases hm.symm.trans hmuk
    have hall : ∀ r ∈ rs, Wraps S r.key r.plain r.ctx.bytes r.out ∧ ∀ id, r.ctx ≠ .ikek id := by
      intro r hr
      obtain ⟨e, -, kek, hk, rfl⟩ := paired_right hrs hr
      exact ⟨(unwrapKey_ok hS).mp hk, fun id => (by simp)⟩
    refine ⟨List.forall_mem_cons.mpr ⟨hw, fun r hr => (hall r hr).1⟩,
      List.forall_mem_cons.mpr ⟨fun id hid => (by cases hid), fun r hr id hid => absurd hid ((hall r hr).2 id)⟩,
      fun x hx => (by cases hx)⟩
  | @rekeyAccount _ _ _ _ r _ _ _ h hm =>
    obtain ⟨_, muk, -, -, -, hmuk, hw, -, hall, -⟩ := rekeyAccount_ok h
    cases hm.symm.trans hmuk
    have hmount : ∀ x ∈ r.vaults, Mounts S r.unlocked x.entry x.slot x.new := by
      intro x hx
      obtain ⟨s, -, hr⟩ := paired_right hall hx
      exact hr.mounts
    refine ⟨List.forall_mem_cons.mpr ⟨hw, fun y hy => ?_⟩,
      List.forall_mem_cons.mpr ⟨fun id hid => (by cases hid), fun y hy id hid => ?_⟩, fun x hx => (by cases hx)⟩
    · obtain ⟨x, hx, hy⟩ := List.mem_flatMap.mp hy
      exact mount_wraps (hmount x hx) y hy
    · obtain ⟨x, hx, hy⟩ := List.mem_flatMap.mp hy
      exact ⟨x.new, List.mem_map_of_mem hx, mount_pairs _ _ _ _ y hy id hid⟩
  | unlockAccountVault => exact sound_none rfl rfl
  | createVaultUnderAccount _ h => exact sound_mount (createVaultUnderAccount_ok h).2.1
  | attachSharedVaultUnderAccount _ _ h => exact sound_mount (wrapUnderAccount_ok h).2.1
  | rotateSharedVaultKeys _ _ h =>
    obtain ⟨-, -, -, -, hb, -⟩ := rotateSharedVaultKeys_ok h
    exact sound_below [] rfl rfl hb (fun r hr => (by cases hr)) rfl
  | reattachVaultUnderAccount _ _ h => exact sound_mount (wrapUnderAccount_ok h).2.1

theorem Sound.add {w : World β} {n' : Nat} {m : Made β} (hw : Sound S w.all) (hm : Sound S m) :
    Sound S (w.add n' m).all := by
  refine ⟨List.forall_mem_append.mpr ⟨hm.wraps, hw.wraps⟩, List.forall_mem_append.mpr ⟨?_, ?_⟩,
    List.forall_mem_append.mpr ⟨hm.payloads, hw.payloads⟩⟩
  · intro r hr id hid
    obtain ⟨v, hv, h⟩ := hm.pairs r hr id hid
    exact ⟨v, List.mem_append_left _ hv, h⟩
  · intro r hr id hid
    obtain ⟨v, hv, h⟩ := hw.pairs r hr id hid
    exact ⟨v, List.mem_append_right _ hv, h⟩

theorem reach_sound (hS : S.Ideal) {w : World β} (h : Reach S Env w) : Sound S w.all := by
  induction h with
  | init n => exact sound_none rfl rfl
  | call _ _ hc ih => exact ih.add (call_sound hS hc)

/-! ## Where keys come from -/

/-- A set of bytes with what comes from outside, the ordinary bytes and the keys drawn
    before a position, closed under BLAKE3. -/
structure Source (S : Suite β) (Env Q : β → Prop) (N : Nat) : Prop where
  env : ∀ b, Env b → Q b
  lit : ∀ x, Q (S.lit x)
  drawn : ∀ i k, i < N → S.osKey i = some k → Bytes Q k
  blake : ∀ c m, (∀ b ∈ m, Q b) → Bytes Q (S.blake3 c m)

structure VaultBytes (Q : β → Prop) (v : UnlockedVault β) : Prop where
  kek : Bytes Q v.kek
  vmk : Bytes Q v.vmk
  ikek : Bytes Q v.ikek

/-- Every key and every plaintext is of these bytes. -/
structure Only (Q : β → Prop) (m : Made β) : Prop where
  wrapped : ∀ r ∈ m.wrapped, Bytes Q r.plain
  born : ∀ v ∈ m.born, VaultBytes Q v
  opened : ∀ v ∈ m.opened, VaultBytes Q v
  accounts : ∀ a ∈ m.accounts, Bytes Q a.ark
  keys : ∀ k ∈ m.keys, Bytes Q k
  payloads : ∀ x ∈ m.payloads, ∀ b ∈ x.plain, Q b

variable {Q : β → Prop} {N : Nat}

theorem Source.of_drawn (hQ : Source S Env Q N) {n n' : Nat} (hn : n' ≤ N) {k : SymmetricKey β} (h : Drawn S n n' k) :
    Bytes Q k := by
  obtain ⟨i, -, hi, hk⟩ := h
  exact hQ.drawn i k (by omega) hk

theorem Source.of_env (hQ : Source S Env Q N) {k : SymmetricKey β} (h : Bytes Env k) : Bytes Q k :=
  fun b hb => hQ.env b (h b hb)

theorem Source.of_shared (hQ : Source S Env Q N) {k : Arr β 32} (h : Bytes Env k) (id : Id) :
    Bytes Q (deriveSharedVaultKeys S k id).1 ∧ Bytes Q (deriveSharedVaultKeys S k id).2 := by
  have hm : ∀ b ∈ sharedMaterial S k id, Q b := by
    refine List.forall_mem_append.mpr ⟨hQ.of_env h, fun b hb => ?_⟩
    obtain ⟨x, -, rfl⟩ := List.mem_map.mp hb
    exact hQ.lit x
  exact ⟨hQ.blake _ _ hm, hQ.blake _ _ hm⟩

/-- What a wrapped key of the world opens to is of these bytes. -/
theorem has_plain (hS : S.Ideal) {w : World β} (hw : Sound S w.all) (ho : Only Q w.all) {x : WrappedKey β}
    {k p : SymmetricKey β} {a : List UInt8} (hx : w.Has x) (h : Wraps S k p a x) : Bytes Q p := by
  obtain ⟨r, hr, rfl⟩ := hx
  obtain ⟨-, -, rfl⟩ := (hw.wraps r hr).unique hS h
  exact ho.wrapped r hr

theorem vault_bytes {w : World β} (ho : Only Q w.all) {v : UnlockedVault β} (hv : w.Vault v) : VaultBytes Q v := by
  rcases hv with hv | hv
  · exact ho.born v hv
  · exact ho.opened v hv

theorem below_bytes (hS : S.Ideal) {w : World β} (hw : Sound S w.all) (ho : Only Q w.all) {v : UnlockedVault β}
    {wv wi : WrappedKey β} (hk : Bytes Q v.kek) (hv : w.Has wv) (hi : w.Has wi) (h : Below S v wv wi) : VaultBytes Q v :=
  ⟨hk, has_plain hS hw ho hv h.vmk, has_plain hS hw ho hi h.ikek⟩

theorem mount_bytes (hS : S.Ideal) {w : World β} (hw : Sound S w.all) (ho : Only Q w.all) {a : UnlockedAccount β}
    {e : AccountVaultEntry β} {s : VaultKeySlot β} {v : UnlockedVault β} (he : w.Has e.wrappedKek) (hs : w.HasSlot s)
    (h : Mounts S a e s v) : VaultBytes Q v :=
  below_bytes hS hw ho (has_plain hS hw ho he h.kek) hs.1 hs.2 h.below

theorem below_only {v : UnlockedVault β} (h : VaultBytes Q v) (wv wi : WrappedKey β) :
    ∀ r ∈ belowRecs v wv wi, Bytes Q r.plain :=
  List.forall_mem_cons.mpr ⟨h.vmk, List.forall_mem_singleton.mpr h.ikek⟩

theorem mount_only {v : UnlockedVault β} (h : VaultBytes Q v) (a : UnlockedAccount β) (e : AccountVaultEntry β)
    (s : VaultKeySlot β) : ∀ r ∈ mountRecs a e s v, Bytes Q r.plain :=
  List.forall_mem_cons.mpr ⟨h.kek, below_only h _ _⟩

theorem only_opened {v : UnlockedVault β} (h : VaultBytes Q v) : Only Q { opened := [v] } := by
  refine ⟨?_, ?_, List.forall_mem_singleton.mpr h, ?_, ?_, ?_⟩ <;> exact fun x hx => (by cases hx)

theorem only_account {a : UnlockedAccount β} (h : Bytes Q a.ark) : Only Q { accounts := [a] } := by
  refine ⟨?_, ?_, ?_, List.forall_mem_singleton.mpr h, ?_, ?_⟩ <;> exact fun x hx => (by cases hx)

/-- Wrapped keys, and the handles made with them. -/
theorem only_born {rs : List (Rec β)} {vs : List (UnlockedVault β)} (hr : ∀ r ∈ rs, Bytes Q r.plain)
    (hv : ∀ v ∈ vs, VaultBytes Q v) : Only Q { wrapped := rs, born := vs } := by
  refine ⟨hr, hv, ?_, ?_, ?_, ?_⟩ <;> exact fun x hx => (by cases hx)

theorem only_wrapped {r : Rec β} (h : Bytes Q r.plain) : Only Q { wrapped := [r] } :=
  only_born (List.forall_mem_singleton.mpr h) fun v hv => (by cases hv)

theorem only_key {r : Rec β} {k : SymmetricKey β} (h : Bytes Q r.plain) (hk : Bytes Q k) :
    Only Q { wrapped := [r], keys := [k] } := by
  refine ⟨List.forall_mem_singleton.mpr h, ?_, ?_, ?_, List.forall_mem_singleton.mpr hk, ?_⟩ <;>
    exact fun x hx => (by cases hx)

theorem only_mount {a : UnlockedAccount β} {r : VaultUnderAccount β} (h : VaultBytes Q r.unlocked) :
    Only Q { wrapped := mountRecs a r.entry r.slot r.unlocked, born := [r.unlocked] } :=
  only_born (mount_only h _ _ _) (List.forall_mem_singleton.mpr h)

theorem unlockVault_bytes (hS : S.Ideal) {w : World β} (hw : Sound S w.all) (ho : Only Q w.all) {pw : String}
    {ks : EncryptedKeySet β} {v : UnlockedVault β} (hks : w.HasKeyset ks) (h : unlockVault S pw ks = .ok v) :
    VaultBytes Q v := by
  obtain ⟨-, _, -, hh⟩ := (unlockVault_ok hS).mp h
  exact below_bytes hS hw ho (has_plain hS hw ho hks.1 hh.kek) hks.2.1 hks.2.2 hh.below

theorem unlockAccount_bytes (hS : S.Ideal) {w : World β} (hw : Sound S w.all) (ho : Only Q w.all) {pw : String}
    {ks : AccountKeySet β} {a : UnlockedAccount β} (hks : w.Has ks.wrappedArk) (h : unlockAccount S pw ks = .ok a) :
    Bytes Q a.ark := by
  obtain ⟨-, -, _, -, hw'⟩ := (unlockAccount_ok hS).mp h
  exact has_plain hS hw ho hks hw'

theorem recovery_bytes (hS : S.Ideal) {w : World β} (hw : Sound S w.all) (ho : Only Q w.all) {rk : String}
    {ks : AccountKeySet β} {a : UnlockedAccount β} (hks : ∀ x ∈ ks.wrappedArkRecovery, w.Has x)
    (h : unlockAccountWithRecoveryKey S rk ks = .ok a) : Bytes Q a.ark := by
  obtain ⟨-, -, x, _, hx, -, hw'⟩ := (unlockAccountWithRecoveryKey_ok hS).mp h
  exact has_plain hS hw ho (hks x hx) hw'

/-- A rotation of the vault key replaces one key of the handle by one drawn. -/
theorem rotateVaultKey_bytes (hQ : Source S Env Q N) {v v' : UnlockedVault β} {ks ks' : EncryptedKeySet β}
    {x x' : Option (WrappedKey β)} {n n' : Nat} (hN : n' ≤ N) (hv : VaultBytes Q v)
    (h : rotateVaultKey S v ks x n = .ok ((ks', v', x'), n')) : VaultBytes Q v' := by
  obtain ⟨-, -, hv', -, -, -, hk, hlt⟩ := rotateVaultKey_ok h
  rw [hv']
  exact ⟨hv.kek, hQ.drawn n _ (by omega) hk, hv.ikek⟩

/-- The handles a re-key returns: the old ones are those of the account, the new ones are drawn. -/
theorem rekeyAccount_bytes (hS : S.Ideal) {w : World β} (hQ : Source S Env Q N) (hw : Sound S w.all)
    (ho : Only Q w.all) {old new : String} {ks : AccountKeySet β} {slots : List (VaultKeySlot β)}
    {r : RekeyedAccount β} {n n' : Nat} (hN : n' ≤ N) (hks : w.HasAccount ks) (hs : ∀ s ∈ slots, w.HasSlot s)
    (h : rekeyAccount S old new ks slots n = .ok (r, n')) :
    ∀ x ∈ r.vaults, VaultBytes Q x.new ∧ VaultBytes Q x.old := by
  obtain ⟨a, _, -, -, -, -, -, -, hall, -⟩ := rekeyAccount_ok h
  intro x hx
  obtain ⟨s, hsl, hr⟩ := paired_right hall hx
  obtain ⟨e, he, -, hopen⟩ := hr.old
  exact ⟨⟨hQ.of_drawn hN hr.fresh.1, hQ.of_drawn hN hr.fresh.2.1, hQ.of_drawn hN hr.fresh.2.2⟩,
    mount_bytes hS hw ho (hks.2.2 e he) (hs s hsl) ((unlockAccountVault_ok hS).mp hopen).2⟩

theorem call_only (hS : S.Ideal) {w : World β} (hQ : Source S Env Q N) (hw : Sound S w.all) (ho : Only Q w.all)
    {n n' : Nat} {m : Made β} (hN : n' ≤ N) (h : Call S Env w n n' m) : Only Q m := by
  cases h with
  | createVaultKeys h hm =>
    obtain ⟨-, -, -, hk, hv, hi⟩ := createVaultKeys_ok h
    have hb : VaultBytes Q _ := ⟨hQ.of_drawn hN hk, hQ.of_drawn hN hv, hQ.of_drawn hN hi⟩
    exact only_born (List.forall_mem_cons.mpr ⟨hb.kek, below_only hb _ _⟩) (List.forall_mem_singleton.mpr hb)
  | unlockVault hks h => exact only_opened (unlockVault_bytes hS hw ho hks h)
  | unlockViaBiometric he hv hi h =>
    obtain ⟨-, -, -, -, hk, hb⟩ := (unlockViaBiometric_ok hS).mp h
    exact only_opened (below_bytes hS hw ho (has_plain hS hw ho he hk) hv hi hb)
  | changeMasterPassword hks h hv hm => exact only_wrapped (unlockVault_bytes hS hw ho hks hv).kek
  | rotateVaultKey hv h =>
    have hb := rotateVaultKey_bytes hQ hN (vault_bytes ho hv) h
    exact only_born (below_only hb _ _) (List.forall_mem_singleton.mpr hb)
  | rotateVaultKeySeed hv hx h hs =>
    have hb := rotateVaultKey_bytes hQ hN (vault_bytes ho hv) h
    have hs' := has_plain hS hw ho hx ((unwrapKey_ok hS).mp hs)
    exact only_born (List.forall_mem_cons.mpr ⟨hs', below_only hb _ _⟩) (List.forall_mem_singleton.mpr hb)
  | @rotateIkek v _ _ v' hv h =>
    obtain ⟨-, -, hv', -, -, hk, hlt⟩ := rotateIkek_ok h
    have hb := vault_bytes ho hv
    have hb' : VaultBytes Q v' := by
      rw [hv']
      exact ⟨hb.kek, hb.vmk, hQ.drawn n _ (by omega) hk⟩
    exact only_born (List.forall_mem_singleton.mpr hb'.ikek) (List.forall_mem_singleton.mpr hb')
  | enableBiometricUnlock hv h =>
    obtain ⟨-, -, -, -, hk⟩ := enableBiometricUnlock_ok h
    exact only_key (vault_bytes ho hv).kek (hQ.of_drawn hN hk)
  | wrapSigningSeed _ hs _ => exact only_wrapped (hQ.of_env hs)
  | unwrapSigningSeed _ hx h =>
    have hs := has_plain hS hw ho hx ((unwrapKey_ok hS).mp h)
    refine ⟨?_, ?_, ?_, ?_, List.forall_mem_singleton.mpr hs, ?_⟩ <;> exact fun x hx => (by cases hx)
  | encryptItem _ hp h hk =>
    obtain ⟨-, hlt, -⟩ := encryptItem_ok h
    refine ⟨List.forall_mem_singleton.mpr (hQ.drawn n _ (by omega) hk), ?_, ?_, ?_, ?_,
      List.forall_mem_singleton.mpr fun b hb => hQ.env b (hp b hb)⟩ <;> exact fun x hx => (by cases hx)
  | rewrapItemKey _ _ he _ hk => exact only_wrapped (has_plain hS hw ho he ((unwrapKey_ok hS).mp hk))
  | createAccount h _ =>
    obtain ⟨-, -, -, -, -, -, -, hark⟩ := createAccount_ok h
    have hb := hQ.of_drawn hN hark
    refine ⟨List.forall_mem_singleton.mpr hb, ?_, ?_, List.forall_mem_singleton.mpr hb, ?_, ?_⟩ <;>
      exact fun x hx => (by cases hx)
  | unlockAccount hks h => exact only_account (unlockAccount_bytes hS hw ho hks h)
  | unlockAccountWithRecoveryKey hks h => exact only_account (recovery_bytes hS hw ho hks h)
  | unlockAccountViaBiometric he h =>
    obtain ⟨-, -, -, hk⟩ := (unlockAccountViaBiometric_ok hS).mp h
    exact only_account (has_plain hS hw ho he hk)
  | unlockAccountWithArk hark h =>
    obtain ⟨-, ha, -⟩ := (unlockAccountWithArk_ok hS).mp h
    exact only_account (ha ▸ hQ.of_env hark)
  | changeAccountPassword hks _ ha _ => exact only_wrapped (unlockAccount_bytes hS hw ho hks ha)
  | resetPasswordWithRecoveryKey hks _ ha _ => exact only_wrapped (recovery_bytes hS hw ho hks ha)
  | setupRecoveryKey ha _ _ => exact only_wrapped (ho.accounts _ ha)
  | enableAccountBiometric ha h =>
    obtain ⟨-, -, -, -, hk⟩ := enableAccountBiometric_ok h
    exact only_key (ho.accounts _ ha) (hQ.of_drawn hN hk)
  | @rotateAccountRootKey _ ks next a _ rs hks h _ hrs =>
    obtain ⟨_, _, -, -, hark, -, -, hall, -, hlt⟩ := rotateAccountRootKey_ok hS h
    have hb : Bytes Q a.ark := hQ.drawn n _ (by omega) hark
    refine ⟨List.forall_mem_cons.mpr ⟨hb, fun r hr => ?_⟩, ?_, ?_, List.forall_mem_singleton.mpr hb, ?_, ?_⟩
    · -- An entry's KEK is the one its old wrapping holds.
      obtain ⟨e', he', kek, hk, rfl⟩ := paired_right hrs hr
      obtain ⟨e, he, hid, kek', hk', hk''⟩ := paired_right hall he'
      obtain ⟨-, -, rfl⟩ := ((unwrapKey_ok hS).mp hk).unique hS hk''
      exact has_plain hS hw ho (hks.2.2 e he) hk'
    all_goals exact fun x hx => (by cases hx)
  | @rekeyAccount _ _ _ _ r _ hks hs h _ =>
    have hvaults := rekeyAccount_bytes hS hQ hw ho hN hks hs h
    obtain ⟨-, _, -, -, hark, -, -, -, -, hlt⟩ := rekeyAccount_ok h
    have hb : Bytes Q r.unlocked.ark := hQ.drawn n _ (by omega) hark
    refine ⟨List.forall_mem_cons.mpr ⟨hb, fun y hy => ?_⟩, ?_, ?_, List.forall_mem_singleton.mpr hb, ?_, ?_⟩
    · obtain ⟨x, hx, hy⟩ := List.mem_flatMap.mp hy
      exact mount_only (hvaults x hx).1 _ _ _ y hy
    · intro v hv
      obtain ⟨x, hx, rfl⟩ := List.mem_map.mp hv
      exact (hvaults x hx).1
    · intro v hv
      obtain ⟨x, hx, rfl⟩ := List.mem_map.mp hv
      exact (hvaults x hx).2
    all_goals exact fun x hx => (by cases hx)
  | unlockAccountVault _ he hs h =>
    exact only_opened (mount_bytes hS hw ho he hs ((unlockAccountVault_ok hS).mp h).2)
  | createVaultUnderAccount _ h =>
    obtain ⟨-, -, -, hk, hv, hi⟩ := createVaultUnderAccount_ok h
    exact only_mount ⟨hQ.of_drawn hN hk, hQ.of_drawn hN hv, hQ.of_drawn hN hi⟩
  | attachSharedVaultUnderAccount _ hk h =>
    obtain ⟨-, -, -, hv, hi, hkek, hlt⟩ := wrapUnderAccount_ok h
    obtain ⟨hv', hi'⟩ := hQ.of_shared hk _
    exact only_mount ⟨hQ.drawn n _ (by omega) hkek, hv ▸ hv', hi ▸ hi'⟩
  | @rotateSharedVaultKeys v _ _ v' hv hk h =>
    obtain ⟨-, -, -, hv', -⟩ := rotateSharedVaultKeys_ok h
    obtain ⟨hvmk, hikek⟩ := hQ.of_shared hk v.vaultId
    have hb : VaultBytes Q v' := by
      rw [hv']
      exact ⟨(vault_bytes ho hv).kek, hvmk, hikek⟩
    exact only_born (below_only hb _ _) (List.forall_mem_singleton.mpr hb)
  | reattachVaultUnderAccount _ hv h =>
    obtain ⟨-, -, -, hvm, hi, hkek, hlt⟩ := wrapUnderAccount_ok h
    have hb := vault_bytes ho hv
    exact only_mount ⟨hQ.drawn n _ (by omega) hkek, hvm ▸ hb.vmk, hi ▸ hb.ikek⟩

/-- No call moves back on the tape. -/
theorem call_forward (hS : S.Ideal) {w : World β} {n n' : Nat} {m : Made β} (h : Call S Env w n n' m) : n ≤ n' := by
  cases h with
  | createVaultKeys h => exact Nat.le_of_lt (createVaultKeys_ok h).2.2.1
  | changeMasterPassword _ h =>
    obtain ⟨_, _, -, -, -, -, hlt⟩ := changeMasterPassword_ok h
    omega
  | rotateVaultKey _ h =>
    obtain ⟨-, -, -, -, -, -, -, hlt⟩ := rotateVaultKey_ok h
    omega
  | rotateVaultKeySeed _ _ h =>
    obtain ⟨-, -, -, -, -, -, -, hlt⟩ := rotateVaultKey_ok h
    omega
  | rotateIkek _ h =>
    obtain ⟨-, -, -, -, -, -, hlt⟩ := rotateIkek_ok h
    omega
  | enableBiometricUnlock _ h => exact Nat.le_of_lt (enableBiometricUnlock_ok h).2.2.2.1
  | wrapSigningSeed _ _ h => exact Nat.le_of_lt (wrapSigningSeed_ok h).2
  | encryptItem _ _ h => exact Nat.le_of_lt (encryptItem_ok h).2.1
  | rewrapItemKey _ _ _ h => exact Nat.le_of_lt (rewrapItemKey_ok hS h).2.2.1
  | createAccount h =>
    obtain ⟨_, _, _, -, -, -, hlt, -⟩ := createAccount_ok h
    omega
  | changeAccountPassword _ h =>
    obtain ⟨_, _, -, -, -, -, hlt⟩ := changeAccountPassword_ok h
    omega
  | resetPasswordWithRecoveryKey _ h =>
    obtain ⟨_, _, -, -, -, -, hlt⟩ := resetPasswordWithRecoveryKey_ok h
    omega
  | setupRecoveryKey _ h =>
    obtain ⟨_, -, -, hlt⟩ := setupRecoveryKey_ok h
    omega
  | enableAccountBiometric _ h => exact Nat.le_of_lt (enableAccountBiometric_ok h).2.2.2.1
  | rotateAccountRootKey _ h =>
    obtain ⟨_, _, -, -, -, -, -, -, -, hlt⟩ := rotateAccountRootKey_ok hS h
    omega
  | rekeyAccount _ _ h =>
    obtain ⟨_, _, -, -, -, -, -, -, -, hlt⟩ := rekeyAccount_ok h
    omega
  | createVaultUnderAccount _ h => exact Nat.le_of_lt (createVaultUnderAccount_ok h).2.2.1
  | attachSharedVaultUnderAccount _ _ h =>
    obtain ⟨-, -, -, -, -, -, hlt⟩ := wrapUnderAccount_ok h
    omega
  | rotateSharedVaultKeys _ _ h =>
    obtain ⟨-, -, -, -, -, hlt⟩ := rotateSharedVaultKeys_ok h
    omega
  | reattachVaultUnderAccount _ _ h =>
    obtain ⟨-, -, -, -, -, -, hlt⟩ := wrapUnderAccount_ok h
    omega
  | _ => omega

theorem Only.add {w : World β} {n' : Nat} {m : Made β} (hw : Only Q w.all) (hm : Only Q m) : Only Q (w.add n' m).all :=
  ⟨List.forall_mem_append.mpr ⟨hm.wrapped, hw.wrapped⟩, List.forall_mem_append.mpr ⟨hm.born, hw.born⟩,
    List.forall_mem_append.mpr ⟨hm.opened, hw.opened⟩, List.forall_mem_append.mpr ⟨hm.accounts, hw.accounts⟩,
    List.forall_mem_append.mpr ⟨hm.keys, hw.keys⟩, List.forall_mem_append.mpr ⟨hm.payloads, hw.payloads⟩⟩

/-- Keys come from outside, from the RNG and from BLAKE3 over these. -/
theorem reach_only (hS : S.Ideal) {w : World β} (h : Reach S Env w) (hQ : Source S Env Q N) (hN : w.pos ≤ N) :
    Only Q w.all := by
  induction h with
  | init n => refine ⟨?_, ?_, ?_, ?_, ?_, ?_⟩ <;> exact fun x hx => (by cases hx)
  | @call w n n' m hw hn hc ih =>
    have hle : n ≤ n' := call_forward hS hc
    have hN' : n' ≤ N := hN
    have ho := ih (by omega)
    exact ho.add (call_only hS hQ (reach_sound hS hw) ho hN' hc)

end RootkeyCrypto.Worlds
