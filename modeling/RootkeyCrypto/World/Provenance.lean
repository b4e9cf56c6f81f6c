/-
  RootkeyCrypto.World.Provenance — keysets an attacker puts together.

  Whoever controls the stored files may combine any layer of any vault, account, epoch or
  envelope and choose ids, parameters and versions. The chain of AADs binds each layer to
  what is above it: the wrapped VMK to the KEK, the account and the vault, the wrapped IKEK
  to the VMK and the vault. `opened_genuine`: whatever such a keyset opens to, each of its
  keys was wrapped for that very vault under the key above it, VMK and IKEK were together
  in one handle of that vault, and the KEK is the account's own.

  The envelope's AAD names the vault alone. That its KEK is not another account's follows
  from the VMK's AAD and from KEKs being drawn: one KEK never serves two accounts
  (`reach_homes`).
-/

import RootkeyCrypto.World.Homes
import RootkeyCrypto.Lib.Symbolic

namespace RootkeyCrypto.Worlds

open Lib

variable {β : Type} {S : Suite β} {Env : β → Prop}

/-! ## What opens -/

/-- The world has a handle of this account with this KEK. -/
def Owns (vs : List (UnlockedVault β)) (accountId : Id) (kek : KeyEncryptionKey β) : Prop :=
  ∃ u ∈ vs, u.accountId = accountId ∧ u.kek = kek

/-- A handle opened from pieces of the world: by password, wrapper key or account, with the
    opener's key and what its wrapping of the KEK is for. -/
inductive Opened (S : Suite β) (w : World β) : UnlockedVault β → Context → SymmetricKey β → Prop
  | password {pw ks v muk} (hks : w.HasKeyset ks) (hm : deriveMuk S pw ks.kdf = .ok muk)
      (h : unlockVault S pw ks = .ok v) : Opened S w v (.kek v.accountId v.vaultId ks.kdf) muk
  | biometric {k e ks v} (he : w.Has e.wrappedKek) (hv : w.Has ks.wrappedVmk) (hi : w.Has ks.wrappedIkek)
      (h : unlockViaBiometric S k e ks = .ok v) : Opened S w v (.biometric v.vaultId) k
  | account {a e s v} (he : w.Has e.wrappedKek) (hs : w.HasSlot s) (h : unlockAccountVault S a e s = .ok v) :
      Opened S w v (.vaultKek v.accountId v.vaultId) a.ark

/-- The key was wrapped for this, under that key. -/
def Wrapped (w : World β) (ctx : Context) (key plain : SymmetricKey β) : Prop :=
  ∃ r ∈ w.all.wrapped, r.ctx = ctx ∧ r.key = key ∧ r.plain = plain

structure Genuine (w : World β) (v : UnlockedVault β) (ctx : Context) (opener : SymmetricKey β) : Prop where
  kek : Wrapped w ctx opener v.kek
  vmk : Wrapped w (.vmk v.accountId v.vaultId) v.kek v.vmk
  ikek : Wrapped w (.ikek v.vaultId) v.vmk v.ikek
  /-- The vault had this VMK and this IKEK together. -/
  pair : ∃ u ∈ w.all.born, u.vaultId = v.vaultId ∧ u.vmk = v.vmk ∧ u.ikek = v.ikek
  /-- The KEK is the account's, and no other's. -/
  owner : Owns w.all.born v.accountId v.kek ∧ ∀ u, w.Vault u → u.kek = v.kek → u.accountId = v.accountId

/-- A wrapped key of the world that unwraps was wrapped for that, under that key. -/
theorem has_wrapped (hS : S.Ideal) {w : World β} (hw : Sound S w.all) {x : WrappedKey β} {k p : SymmetricKey β}
    {c : Context} (hx : w.Has x) (h : Wraps S k p c.bytes x) : Wrapped w c k p := by
  obtain ⟨r, hr, rfl⟩ := hx
  obtain ⟨hk, hc, hp⟩ := (hw.wraps r hr).unique hS h
  exact ⟨r, hr, Context.bytes_inj.mp hc, hk, hp⟩

theorem genuine_of_below (hS : S.Ideal) {w : World β} (h : Reach S Env w) {v : UnlockedVault β} {c : Context}
    {k : SymmetricKey β} {wv wi : WrappedKey β} (hk : Wrapped w c k v.kek) (hv : w.Has wv) (hi : w.Has wi)
    (hb : Below S v wv wi) : Genuine w v c k := by
  have hw := reach_sound hS h
  have hhomes := reach_homes hS (fun a _ => a) h
  have howns : Owns w.all.born v.accountId v.kek := hhomes.below hS hw hv hb
  have hikek : Wrapped w (.ikek v.vaultId) v.vmk v.ikek := has_wrapped hS hw hi hb.ikek
  refine ⟨hk, has_wrapped hS hw hv hb.vmk, hikek, ?_, howns, fun u hu hku => ?_⟩
  · obtain ⟨r, hr, hctx, hkey, hplain⟩ := hikek
    obtain ⟨u, hu, hid, hm, hik⟩ := hw.pairs r hr _ hctx
    exact ⟨u, hu, hid, hm.trans hkey, hik.trans hplain⟩
  · obtain ⟨x, hx, hxa, hxk⟩ := hhomes.vault hu
    obtain ⟨y, hy, hya, hyk⟩ := howns
    rw [← hxa, ← hya]
    exact hhomes.home x hx y hy (hxk.trans (hku.trans hyk.symm))

/-- What opens from pieces of the world is one vault's own chain of keys. -/
theorem opened_genuine (hS : S.Ideal) {w : World β} (h : Reach S Env w) {v : UnlockedVault β} {c : Context}
    {k : SymmetricKey β} (ho : Opened S w v c k) : Genuine w v c k := by
  have hw := reach_sound hS h
  cases ho with
  | password hks hm h' =>
    obtain ⟨-, muk, hmuk, hh⟩ := (unlockVault_ok hS).mp h'
    cases hm.symm.trans hmuk
    refine genuine_of_below hS h ?_ hks.2.1 hks.2.2 hh.below
    rw [hh.account, hh.vault]
    exact has_wrapped hS hw hks.1 hh.kek
  | biometric he hv hi h' =>
    obtain ⟨-, -, -, hid, hk, hb⟩ := (unlockViaBiometric_ok hS).mp h'
    refine genuine_of_below hS h ?_ hv hi hb
    rw [hid]
    exact has_wrapped hS hw he hk
  | account he hs h' =>
    obtain ⟨-, hm⟩ := (unlockAccountVault_ok hS).mp h'
    refine genuine_of_below hS h ?_ hs.1 hs.2 hm.below
    rw [hm.account, hm.vault]
    exact has_wrapped hS hw he hm.kek

/-! ## A trace -/

def demoMuk : SymmetricKey Term := .ofFn 32 (.argon defaultMemoryKib defaultTimeCost defaultParallelism
  demoVault.1.encrypted.kdf.salt.toList (asBytes "a"))

/-- Another password, then another IKEK. -/
def demoRepassed : EncryptedKeySet Term × Nat :=
  okVal (changeMasterPassword demo.suite "a" "b" demoVault.1.encrypted demoVault.2) (by decide +kernel)

def demoRekeyed : (EncryptedKeySet Term × UnlockedVault Term) × Nat :=
  okVal (rotateIkek demo.suite demoVault.1.unlocked demoRepassed.1 demoRepassed.2) (by decide +kernel)

/-- The keys of now, with the first password's wrapping of the KEK. -/
def demoMixed : EncryptedKeySet Term :=
  { demoRekeyed.1.1 with kdf := demoVault.1.encrypted.kdf, wrappedKek := demoVault.1.encrypted.wrappedKek }

/-- The first password opens the mixture, to the keys of now. -/
theorem opened_genuine_mixed : ∃ w, Reach demo.suite (fun _ => True) w ∧
    unlockVault demo.suite "a" demoMixed = .ok demoRekeyed.1.2 ∧
    Genuine w demoRekeyed.1.2 (.kek demoRekeyed.1.2.accountId demoRekeyed.1.2.vaultId demoMixed.kdf) demoMuk := by
  have hm : deriveMuk demo.suite "a" demoVault.1.encrypted.kdf = .ok demoMuk := by decide +kernel
  have hfirst : unlockVault demo.suite "a" demoVault.1.encrypted = .ok demoVault.1.unlocked := by decide +kernel
  have hopen : unlockVault demo.suite "a" demoMixed = .ok demoRekeyed.1.2 := by decide +kernel
  have hchange : changeMasterPassword demo.suite "a" "b" demoVault.1.encrypted demoVault.2 =
      .ok (demoRepassed.1, demoRepassed.2) := okVal_eq _
  have hrotate : rotateIkek demo.suite demoVault.1.unlocked demoRepassed.1 demoRepassed.2 =
      .ok ((demoRekeyed.1.1, demoRekeyed.1.2), demoRekeyed.2) := okVal_eq _
  obtain ⟨_, muk, -, hmuk, -⟩ := changeMasterPassword_ok hchange
  have h0 : Reach demo.suite (fun _ => True) (⟨0, {}⟩ : World Term) := .init 0
  have h1 := h0.call (Nat.le_refl _) (.createVaultKeys demoVault_created hm)
  have h2 := h1.call (Nat.le_refl _) (.changeMasterPassword ⟨⟨_, .head _, rfl⟩, ⟨_, .tail _ (.head _), rfl⟩,
    ⟨_, .tail _ (.tail _ (.head _)), rfl⟩⟩ hchange hfirst hmuk)
  have h3 := h2.call (Nat.le_refl _) (.rotateIkek (Or.inl List.mem_cons_self) hrotate)
  -- The KEK's wrapping and the VMK's are of the first call, the IKEK's is of the last.
  refine ⟨_, h3, hopen, opened_genuine demo.suite_ideal h3 (.password ⟨?_, ?_, ?_⟩ hm hopen)⟩
  · exact ⟨_, .tail _ (.tail _ (.head _)), rfl⟩
  · exact ⟨_, .tail _ (.tail _ (.tail _ (.head _))), rfl⟩
  · exact ⟨_, .head _, rfl⟩

end RootkeyCrypto.Worlds
