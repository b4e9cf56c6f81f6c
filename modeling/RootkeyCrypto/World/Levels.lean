/-
  RootkeyCrypto.World.Levels — every key of a world has one level.

  A key in use is drawn for one level (wrapper key, root key, KEK, VMK, IKEK, item key), or
  it is a shared vault's VMK or IKEK, derived from a key from outside, or a root key handed
  in from outside. `keyLevel` and `plainLevel` are the levels of the two keys of a wrapping, by its
  context; a wrapping key of no level is derived from a password or a recovery key, a
  wrapped one is a signing seed.

  `reach_levels`: in every world every wrapping is between keys of these levels. As what is
  wrapped is always of the level below, this is the order in which keys give each other away.
-/

import RootkeyCrypto.Core.Takings
import RootkeyCrypto.World.Calls

namespace RootkeyCrypto.Worlds

open Lib

inductive Level where
  | wrapper | root | kek | vmk | ikek | item
  deriving DecidableEq

/-- The level of what a context wraps. -/
def plainLevel : Context → Option Level
  | .ark .. | .recovery .. | .accountBiometric .. => some .root
  | .vaultKek .. | .kek .. | .biometric .. => some .kek
  | .vmk .. => some .vmk
  | .ikek .. => some .ikek
  | .itemKey .. => some .item
  | _ => none

/-- The level of the key it is wrapped with. -/
def keyLevel : Context → Option Level
  | .accountBiometric .. | .biometric .. => some .wrapper
  | .vaultKek .. => some .root
  | .vmk .. => some .kek
  | .ikek .. | .signingSeed .. => some .vmk
  | .itemKey .. => some .ikek
  | _ => none

variable {β : Type} {S : Suite β} {Env : β → Prop} {role role' : Nat → Option Level}

/-- The key is used at this level. -/
inductive Is (S : Suite β) (Env : β → Prop) (role : Nat → Option Level) : Level → SymmetricKey β → Prop
  | drawn {l k} (h : DrawnFor S role l k) : Is S Env role l k
  | sharedVmk {k} (id : Id) (h : Bytes Env k) : Is S Env role .vmk (deriveSharedVaultKeys S k id).1
  | sharedIkek {k} (id : Id) (h : Bytes Env k) : Is S Env role .ikek (deriveSharedVaultKeys S k id).2
  | handed {k} (h : Bytes Env k) : Is S Env role .root k

/-- Derived from a password or a recovery key. -/
inductive Typed (S : Suite β) : SymmetricKey β → Prop
  | password {pw kdf k} (h : deriveMuk S pw kdf = .ok k) : Typed S k
  | recovery (raw : String) (id : Id) : Typed S (recoveryKekFrom S raw id)

/-- Both keys of a wrapping are of the levels its context says. -/
structure Placed (S : Suite β) (Env : β → Prop) (role : Nat → Option Level) (c : Context) (key plain : SymmetricKey β) :
    Prop where
  key : match keyLevel c with
    | some l => Is S Env role l key
    | none => Typed S key
  plain : match plainLevel c with
    | some l => Is S Env role l plain
    | none => Bytes Env plain

structure VaultLevels (S : Suite β) (Env : β → Prop) (role : Nat → Option Level) (v : UnlockedVault β) : Prop where
  kek : Is S Env role .kek v.kek
  vmk : Is S Env role .vmk v.vmk
  ikek : Is S Env role .ikek v.ikek

structure Levels (S : Suite β) (Env : β → Prop) (role : Nat → Option Level) (m : Made β) : Prop where
  wrapped : ∀ r ∈ m.wrapped, Placed S Env role r.ctx r.key r.plain
  born : ∀ v ∈ m.born, VaultLevels S Env role v
  opened : ∀ v ∈ m.opened, VaultLevels S Env role v
  accounts : ∀ a ∈ m.accounts, Is S Env role .root a.ark
  keys : ∀ k ∈ m.keys, Is S Env role .wrapper k ∨ Bytes Env k
  payloads : ∀ x ∈ m.payloads, (∀ b ∈ x.plain, Env b) ∧ ∃ k a, Is S Env role .item k ∧ Seals S k x.plain a x.out

/-! ## A record grows -/

theorem Is.mono (hr : Extends role role') {l : Level} {k : SymmetricKey β} (h : Is S Env role l k) :
    Is S Env role' l k := by
  cases h with
  | drawn h => exact .drawn (h.mono hr)
  | sharedVmk id h => exact .sharedVmk id h
  | sharedIkek id h => exact .sharedIkek id h
  | handed h => exact .handed h

theorem Placed.mono (hr : Extends role role') {c : Context} {k p : SymmetricKey β} (h : Placed S Env role c k p) :
    Placed S Env role' c k p := by
  obtain ⟨hk, hp⟩ := h
  constructor
  · cases hc : keyLevel c with
    | none => rw [hc] at hk; exact hk
    | some l => rw [hc] at hk; exact hk.mono hr
  · cases hc : plainLevel c with
    | none => rw [hc] at hp; exact hp
    | some l => rw [hc] at hp; exact hp.mono hr

theorem VaultLevels.mono (hr : Extends role role') {v : UnlockedVault β} (h : VaultLevels S Env role v) :
    VaultLevels S Env role' v :=
  ⟨h.kek.mono hr, h.vmk.mono hr, h.ikek.mono hr⟩

theorem Levels.mono (hr : Extends role role') {m : Made β} (h : Levels S Env role m) : Levels S Env role' m := by
  refine ⟨fun r hr' => (h.wrapped r hr').mono hr, fun v hv => (h.born v hv).mono hr, fun v hv => (h.opened v hv).mono hr,
    fun a ha => (h.accounts a ha).mono hr, fun k hk => (h.keys k hk).imp_left fun h => h.mono hr, fun x hx => ?_⟩
  obtain ⟨henv, k, a, hk, hs⟩ := h.payloads x hx
  exact ⟨henv, k, a, hk.mono hr, hs⟩

/-- The keys a call takes are recorded with their levels. -/
theorem recorded (Env : β → Prop) {n n' : Nat} {l : List (Taking β)} (h : Takes S n n' l) (hb : Before role n)
    (ls : List (Level × SymmetricKey β)) (hls : l.filterMap keyOf = ls.map Prod.snd) :
    ∃ role', Extends role role' ∧ Before role' n' ∧ ∀ x ∈ ls, Is S Env role' x.1 x.2 := by
  have hkeys : Taken (fun p k => S.osKey p = some k) n n' (l.filterMap keyOf) :=
    h.filterMap fun p t k hg hk => by
      cases t with
      | key k' => cases hk; exact hg
      | bytes _ _ => cases hk
      | letter _ => cases hk
      | box _ _ _ => cases hk
  rw [hls] at hkeys
  obtain ⟨role', hext, hb', hall⟩ := hkeys.of_map.recorded hb
  exact ⟨role', hext, hb', fun x hx => .drawn (hall x hx)⟩

/-! ## What is opened keeps its level -/

/-- A piece of the world opened in some context was wrapped in it. -/
theorem has_placed (hS : S.Ideal) {w : World β} (hw : Sound S w.all) (hl : Levels S Env role w.all) {x : WrappedKey β}
    {c : Context} {k p : SymmetricKey β} (hx : w.Has x) (h : Wraps S k p c.bytes x) : Placed S Env role c k p := by
  obtain ⟨r, hr, rfl⟩ := hx
  obtain ⟨rfl, hc, rfl⟩ := h.unique hS (hw.wraps r hr)
  rw [Context.bytes_inj.mp hc]
  exact hl.wrapped r hr

theorem vault_levels {w : World β} (hl : Levels S Env role w.all) {v : UnlockedVault β} (hv : w.Vault v) :
    VaultLevels S Env role v := by
  rcases hv with hv | hv
  · exact hl.born v hv
  · exact hl.opened v hv

theorem below_levels (hS : S.Ideal) {w : World β} (hw : Sound S w.all) (hl : Levels S Env role w.all)
    {v : UnlockedVault β} {wv wi : WrappedKey β} (hk : Is S Env role .kek v.kek) (hv : w.Has wv) (hi : w.Has wi)
    (h : Below S v wv wi) : VaultLevels S Env role v :=
  ⟨hk, (has_placed hS hw hl (c := .vmk v.accountId v.vaultId) hv h.vmk).plain,
    (has_placed hS hw hl (c := .ikek v.vaultId) hi h.ikek).plain⟩

theorem mount_levels (hS : S.Ideal) {w : World β} (hw : Sound S w.all) (hl : Levels S Env role w.all)
    {a : UnlockedAccount β} {e : AccountVaultEntry β} {s : VaultKeySlot β} {v : UnlockedVault β}
    (he : w.Has e.wrappedKek) (hs : w.HasSlot s) (h : Mounts S a e s v) : VaultLevels S Env role v :=
  below_levels hS hw hl (has_placed hS hw hl (c := .vaultKek a.accountId e.vaultId) he h.kek).plain hs.1 hs.2 h.below

theorem unlockVault_levels (hS : S.Ideal) {w : World β} (hw : Sound S w.all) (hl : Levels S Env role w.all) {pw : String}
    {ks : EncryptedKeySet β} {v : UnlockedVault β} (hks : w.HasKeyset ks) (h : unlockVault S pw ks = .ok v) :
    VaultLevels S Env role v := by
  obtain ⟨-, _, -, hh⟩ := (unlockVault_ok hS).mp h
  exact below_levels hS hw hl (has_placed hS hw hl (c := .kek ks.accountId ks.vaultId ks.kdf) hks.1 hh.kek).plain
    hks.2.1 hks.2.2 hh.below

theorem unlockAccount_level (hS : S.Ideal) {w : World β} (hw : Sound S w.all) (hl : Levels S Env role w.all) {pw : String}
    {ks : AccountKeySet β} {a : UnlockedAccount β} (hks : w.Has ks.wrappedArk) (h : unlockAccount S pw ks = .ok a) :
    Is S Env role .root a.ark := by
  obtain ⟨-, -, _, -, hw'⟩ := (unlockAccount_ok hS).mp h
  exact (has_placed hS hw hl (c := .ark ks.accountId ks.kdf) hks hw').plain

theorem recovery_level (hS : S.Ideal) {w : World β} (hw : Sound S w.all) (hl : Levels S Env role w.all) {rk : String}
    {ks : AccountKeySet β} {a : UnlockedAccount β} (hks : ∀ x ∈ ks.wrappedArkRecovery, w.Has x)
    (h : unlockAccountWithRecoveryKey S rk ks = .ok a) : Is S Env role .root a.ark := by
  obtain ⟨-, -, x, _, hx, -, hw'⟩ := (unlockAccountWithRecoveryKey_ok hS).mp h
  exact (has_placed hS hw hl (c := .recovery ks.accountId) (hks x hx) hw').plain

/-! ## What is made -/

theorem below_placed {v : UnlockedVault β} (h : VaultLevels S Env role v) (wv wi : WrappedKey β) :
    ∀ r ∈ belowRecs v wv wi, Placed S Env role r.ctx r.key r.plain :=
  List.forall_mem_cons.mpr ⟨⟨h.kek, h.vmk⟩, List.forall_mem_singleton.mpr ⟨h.vmk, h.ikek⟩⟩

theorem mount_placed {a : UnlockedAccount β} (ha : Is S Env role .root a.ark) {v : UnlockedVault β}
    (h : VaultLevels S Env role v) (e : AccountVaultEntry β) (s : VaultKeySlot β) :
    ∀ r ∈ mountRecs a e s v, Placed S Env role r.ctx r.key r.plain :=
  List.forall_mem_cons.mpr ⟨⟨ha, h.kek⟩, below_placed h _ _⟩

theorem levels_opened {v : UnlockedVault β} (h : VaultLevels S Env role v) : Levels S Env role { opened := [v] } := by
  refine ⟨?_, ?_, List.forall_mem_singleton.mpr h, ?_, ?_, ?_⟩ <;> exact fun x hx => (by cases hx)

theorem levels_account {a : UnlockedAccount β} (h : Is S Env role .root a.ark) :
    Levels S Env role { accounts := [a] } := by
  refine ⟨?_, ?_, ?_, List.forall_mem_singleton.mpr h, ?_, ?_⟩ <;> exact fun x hx => (by cases hx)

theorem levels_born {rs : List (Rec β)} {vs : List (UnlockedVault β)}
    (hr : ∀ r ∈ rs, Placed S Env role r.ctx r.key r.plain) (hv : ∀ v ∈ vs, VaultLevels S Env role v) :
    Levels S Env role { wrapped := rs, born := vs } := by
  refine ⟨hr, hv, ?_, ?_, ?_, ?_⟩ <;> exact fun x hx => (by cases hx)

theorem levels_wrapped {r : Rec β} (h : Placed S Env role r.ctx r.key r.plain) :
    Levels S Env role { wrapped := [r] } :=
  levels_born (List.forall_mem_singleton.mpr h) fun v hv => (by cases hv)

theorem levels_key {r : Rec β} {k : SymmetricKey β} (h : Placed S Env role r.ctx r.key r.plain)
    (hk : Is S Env role .wrapper k) : Levels S Env role { wrapped := [r], keys := [k] } := by
  refine ⟨List.forall_mem_singleton.mpr h, ?_, ?_, ?_, List.forall_mem_singleton.mpr (Or.inl hk), ?_⟩ <;>
    exact fun x hx => (by cases hx)

theorem levels_mount {a : UnlockedAccount β} {r : VaultUnderAccount β} (ha : Is S Env role .root a.ark)
    (h : VaultLevels S Env role r.unlocked) :
    Levels S Env role { wrapped := mountRecs a r.entry r.slot r.unlocked, born := [r.unlocked] } :=
  levels_born (mount_placed ha h _ _) (List.forall_mem_singleton.mpr h)

/-! ## What a call does -/

/-- The levels of what a call makes are recorded. -/
def Recorded (S : Suite β) (Env : β → Prop) (role : Nat → Option Level) (n' : Nat) (m : Made β) : Prop :=
  ∃ role', Extends role role' ∧ Before role' n' ∧ Levels S Env role' m

/-- A call that draws no key. -/
theorem same_levels {n n' : Nat} (hb : Before role n) (hle : n ≤ n') {m : Made β} (h : Levels S Env role m) :
    Recorded S Env role n' m :=
  ⟨role, .refl role, hb.mono hle, h⟩

theorem key_levels {n n' : Nat} {l : List (Taking β)} (hb : Before role n) (h : Takes S n n' l) (x : Level)
    (k : SymmetricKey β) (hl : l.filterMap keyOf = [k]) {m : Made β}
    (hm : ∀ role', Extends role role' → Is S Env role' x k → Levels S Env role' m) : Recorded S Env role n' m := by
  obtain ⟨role', hext, hb', hall⟩ := recorded Env h hb [(x, k)] hl
  exact ⟨role', hext, hb', hm role' hext (hall _ List.mem_cons_self)⟩

/-- All three keys of a vault are drawn. -/
theorem drawn_levels {n n' : Nat} {l : List (Taking β)} (hb : Before role n) (h : Takes S n n' l) (v : UnlockedVault β)
    (hl : l.filterMap keyOf = [v.kek, v.vmk, v.ikek]) {m : Made β}
    (hm : ∀ role', Extends role role' → VaultLevels S Env role' v → Levels S Env role' m) :
    Recorded S Env role n' m := by
  obtain ⟨role', hext, hb', hall⟩ := recorded Env h hb [(.kek, v.kek), (.vmk, v.vmk), (.ikek, v.ikek)] hl
  simp only [List.forall_mem_cons] at hall
  exact ⟨role', hext, hb', hm role' hext ⟨hall.1, hall.2.1, hall.2.2.1⟩⟩

theorem rotateVaultKey_levels {w : World β} (hl : Levels S Env role w.all) {v v' : UnlockedVault β}
    {ks ks' : EncryptedKeySet β} {x x' : Option (WrappedKey β)} {n n' : Nat} (hv : w.Vault v)
    (h : rotateVaultKey S v ks x n = .ok ((ks', v', x'), n')) (hext : Extends role role')
    (hk : Is S Env role' .vmk v'.vmk) : VaultLevels S Env role' v' := by
  obtain ⟨-, -, hv', -⟩ := rotateVaultKey_ok h
  have hlv := (vault_levels hl hv).mono hext
  rw [hv']
  exact ⟨hlv.kek, hk, hlv.ikek⟩

/-- A re-key draws the root key and three keys for each vault. -/
theorem rekeyAccount_levels (hS : S.Ideal) {w : World β} (hw : Sound S w.all) (hl : Levels S Env role w.all)
    {old new : String} {ks : AccountKeySet β} {slots : List (VaultKeySlot β)} {r : RekeyedAccount β}
    {muk : MasterUnlockKey β} {n n' : Nat} (hb : Before role n) (hks : w.HasAccount ks)
    (hs : ∀ s ∈ slots, w.HasSlot s) (h : rekeyAccount S old new ks slots n = .ok (r, n'))
    (hm : deriveMuk S new r.encrypted.kdf = .ok muk) :
    Recorded S Env role n'
      { wrapped := ⟨.ark ks.accountId r.encrypted.kdf, muk, r.unlocked.ark, r.encrypted.wrappedArk⟩ ::
          r.vaults.flatMap fun x => mountRecs r.unlocked x.entry x.slot x.new
        born := r.vaults.map (·.new), opened := r.vaults.map (·.old), accounts := [r.unlocked] } := by
  obtain ⟨role', hext, hb', hall⟩ := recorded Env (rekeyAccount_takes h) hb
    ((.root, r.unlocked.ark) :: r.vaults.flatMap fun x => [(.kek, x.new.kek), (.vmk, x.new.vmk), (.ikek, x.new.ikek)])
    (by rw [List.filterMap_append, List.filterMap_flatMap, List.map_cons, List.map_flatMap]; rfl)
  obtain ⟨hark, hall⟩ := List.forall_mem_cons.mp hall
  have hnew : ∀ x ∈ r.vaults, VaultLevels S Env role' x.new := by
    intro x hx
    have hx' : ∀ y ∈ [(Level.kek, x.new.kek), (.vmk, x.new.vmk), (.ikek, x.new.ikek)], Is S Env role' y.1 y.2 :=
      fun y hy => hall y (List.mem_flatMap.mpr ⟨x, hx, hy⟩)
    simp only [List.forall_mem_cons] at hx'
    exact ⟨hx'.1, hx'.2.1, hx'.2.2.1⟩
  have hold : ∀ x ∈ r.vaults, VaultLevels S Env role' x.old := by
    intro x hx
    obtain ⟨_, _, -, -, -, -, -, -, hpairs, -⟩ := rekeyAccount_ok h
    obtain ⟨s, hsl, hr⟩ := paired_right hpairs hx
    obtain ⟨e, he, -, hopen⟩ := hr.old
    exact (mount_levels hS hw hl (hks.2.2 e he) (hs s hsl) ((unlockAccountVault_ok hS).mp hopen).2).mono hext
  refine ⟨role', hext, hb', List.forall_mem_cons.mpr ⟨⟨.password hm, hark⟩, fun y hy => ?_⟩, ?_, ?_,
    List.forall_mem_singleton.mpr hark, ?_, ?_⟩
  · obtain ⟨x, hx, hy⟩ := List.mem_flatMap.mp hy
    exact mount_placed hark (hnew x hx) _ _ y hy
  · exact List.forall_mem_map.mpr hnew
  · exact List.forall_mem_map.mpr hold
  all_goals exact fun x hx => (by cases hx)

theorem call_levels (hS : S.Ideal) {w : World β} (hw : Sound S w.all) (hl : Levels S Env role w.all) {n n' : Nat}
    {m : Made β} (hb : Before role n) (h : Call S Env w n n' m) : Recorded S Env role n' m := by
  cases h with
  | createVaultKeys h hm =>
    refine drawn_levels hb (createVaultKeys_takes h) _ rfl fun role' _ hv => ?_
    exact levels_born (List.forall_mem_cons.mpr ⟨⟨.password hm, hv.kek⟩, below_placed hv _ _⟩)
      (List.forall_mem_singleton.mpr hv)
  | unlockVault hks h hn => exact same_levels hb (by omega) (levels_opened (unlockVault_levels hS hw hl hks h))
  | @unlockViaBiometric k e ks v he hv hi h hn =>
    obtain ⟨-, -, -, -, hk, hbelow⟩ := (unlockViaBiometric_ok hS).mp h
    refine same_levels hb (by omega) (levels_opened (below_levels hS hw hl ?_ hv hi hbelow))
    exact (has_placed hS hw hl (c := .biometric ks.vaultId) he hk).plain
  | changeMasterPassword hks h hv hm =>
    exact same_levels hb (changeMasterPassword_takes h).le
      (levels_wrapped ⟨.password hm, (unlockVault_levels hS hw hl hks hv).kek⟩)
  | @rotateVaultKey v _ _ v' hv h =>
    refine key_levels hb (rotateVaultKey_takes h) .vmk v'.vmk rfl fun role' hext hk => ?_
    have hv' := rotateVaultKey_levels hl hv h hext hk
    exact levels_born (below_placed hv' _ _) (List.forall_mem_singleton.mpr hv')
  | @rotateVaultKeySeed v _ _ _ v' _ _ hv hx h hs =>
    refine key_levels hb (rotateVaultKey_takes h) .vmk v'.vmk rfl fun role' hext hk => ?_
    have hv' := rotateVaultKey_levels hl hv h hext hk
    have hseed := (has_placed hS hw hl (c := .signingSeed v.vaultId) hx ((unwrapKey_ok hS).mp hs)).plain
    exact levels_born (List.forall_mem_cons.mpr ⟨⟨hk, hseed⟩, below_placed hv' _ _⟩) (List.forall_mem_singleton.mpr hv')
  | @rotateIkek v _ _ v' hv h =>
    refine key_levels hb (rotateIkek_takes h) .ikek v'.ikek rfl fun role' hext hk => ?_
    obtain ⟨-, -, hv', -⟩ := rotateIkek_ok h
    have hlv := (vault_levels hl hv).mono hext
    have hlv' : VaultLevels S Env role' v' := by
      rw [hv']
      exact ⟨hlv.kek, hlv.vmk, hk⟩
    exact levels_born (List.forall_mem_singleton.mpr ⟨hlv.vmk, hk⟩) (List.forall_mem_singleton.mpr hlv')
  | @enableBiometricUnlock v r hv h =>
    refine key_levels hb (enableBiometricUnlock_takes h) .wrapper r.wrapperKey rfl fun role' hext hk => ?_
    exact levels_key ⟨hk, (vault_levels hl hv).kek.mono hext⟩ hk
  | wrapSigningSeed hv hs h =>
    exact same_levels hb (wrapSigningSeed_takes h).le (levels_wrapped ⟨(vault_levels hl hv).vmk, hs⟩)
  | @unwrapSigningSeed v _ s hv hx h hn =>
    have hseed := (has_placed hS hw hl (c := .signingSeed v.vaultId) hx ((unwrapKey_ok hS).mp h)).plain
    refine same_levels hb (by omega) ⟨?_, ?_, ?_, ?_, List.forall_mem_singleton.mpr (Or.inr hseed), ?_⟩ <;>
      exact fun x hx => (by cases hx)
  | @encryptItem p id v e k hv hp h hk =>
    obtain ⟨-, -, k', hk', hwk, hseal⟩ := encryptItem_ok h
    cases hk.symm.trans hk'
    refine key_levels hb (encryptItem_takes h hk) .item k rfl fun role' hext hi => ?_
    refine ⟨List.forall_mem_singleton.mpr ⟨(vault_levels hl hv).ikek.mono hext, hi⟩, ?_, ?_, ?_, ?_,
      List.forall_mem_singleton.mpr ⟨hp, k, _, hi, hseal⟩⟩ <;> exact fun x hx => (by cases hx)
  | @rewrapItemKey v v' e id _ k hv hv' he h hk =>
    refine same_levels hb (rewrapItemKey_takes h).le (levels_wrapped ⟨(vault_levels hl hv').ikek, ?_⟩)
    exact (has_placed hS hw hl (c := .itemKey v.vaultId id) he ((unwrapKey_ok hS).mp hk)).plain
  | @createAccount _ r _ h hm =>
    refine key_levels hb (createAccount_takes h) .root r.unlocked.ark rfl fun role' _ hk => ?_
    refine ⟨List.forall_mem_singleton.mpr ⟨.password hm, hk⟩, ?_, ?_, List.forall_mem_singleton.mpr hk, ?_, ?_⟩ <;>
      exact fun x hx => (by cases hx)
  | unlockAccount hks h hn => exact same_levels hb (by omega) (levels_account (unlockAccount_level hS hw hl hks h))
  | unlockAccountWithRecoveryKey hks h hn =>
    exact same_levels hb (by omega) (levels_account (recovery_level hS hw hl hks h))
  | @unlockAccountViaBiometric _ _ ks _ he h hn =>
    obtain ⟨-, -, -, hk⟩ := (unlockAccountViaBiometric_ok hS).mp h
    refine same_levels hb (by omega) (levels_account ?_)
    exact (has_placed hS hw hl (c := .accountBiometric ks.accountId) he hk).plain
  | unlockAccountWithArk hark h hn =>
    obtain ⟨-, ha, -⟩ := (unlockAccountWithArk_ok hS).mp h
    exact same_levels hb (by omega) (levels_account (.handed (ha ▸ hark)))
  | changeAccountPassword hks h ha hm =>
    exact same_levels hb (changeAccountPassword_takes h).le
      (levels_wrapped ⟨.password hm, unlockAccount_level hS hw hl hks ha⟩)
  | resetPasswordWithRecoveryKey hks h ha hm =>
    exact same_levels hb (resetPasswordWithRecoveryKey_takes h).le
      (levels_wrapped ⟨.password hm, recovery_level hS hw hl hks ha⟩)
  | setupRecoveryKey ha h hraw =>
    exact same_levels hb (setupRecoveryKey_takes h hraw).2.le (levels_wrapped ⟨.recovery _ _, hl.accounts _ ha⟩)
  | @enableAccountBiometric a r ha h =>
    refine key_levels hb (enableAccountBiometric_takes h) .wrapper r.wrapperKey rfl fun role' hext hk => ?_
    exact levels_key ⟨hk, (hl.accounts _ ha).mono hext⟩ hk
  | @rotateAccountRootKey _ ks next a _ rs hks h hm hrs =>
    have hentries : (next.vaults.flatMap (fun e => [e.wrappedKek.taking]) ++
        [next.kdf.taking, next.wrappedArk.taking]).filterMap keyOf = [] := by
      simp [List.filterMap_flatMap, KdfParams.taking, WrappedKey.taking, keyOf]
    refine key_levels hb (rotateAccountRootKey_takes h) .root a.ark ?_ fun role' hext hk => ?_
    · exact congrArg (a.ark :: ·) hentries
    · obtain ⟨_, _, -, -, -, -, -, hall, -⟩ := rotateAccountRootKey_ok hS h
      refine ⟨List.forall_mem_cons.mpr ⟨⟨.password hm, hk⟩, fun r hr => ?_⟩, ?_, ?_, List.forall_mem_singleton.mpr hk,
        ?_, ?_⟩
      · -- An entry's KEK is the one its old wrapping holds.
        obtain ⟨e', he', kek, hkek, rfl⟩ := paired_right hrs hr
        obtain ⟨e, he, hid, kek', hk', hk''⟩ := paired_right hall he'
        obtain ⟨-, -, rfl⟩ := ((unwrapKey_ok hS).mp hkek).unique hS hk''
        have hplain := (has_placed hS hw hl (c := .vaultKek ks.accountId e.vaultId) (hks.2.2 e he) hk').plain
        exact ⟨hk, hplain.mono hext⟩
      all_goals exact fun x hx => (by cases hx)
  | rekeyAccount hks hs h hm => exact rekeyAccount_levels hS hw hl hb hks hs h hm
  | unlockAccountVault _ he hs h hn =>
    exact same_levels hb (by omega) (levels_opened (mount_levels hS hw hl he hs ((unlockAccountVault_ok hS).mp h).2))
  | createVaultUnderAccount ha h =>
    refine drawn_levels hb (createVaultUnderAccount_takes h) _ rfl fun role' hext hv => ?_
    exact levels_mount ((hl.accounts _ ha).mono hext) hv
  | @attachSharedVaultUnderAccount a id k r ha hk h =>
    refine key_levels hb (wrapUnderAccount_takes h) .kek r.unlocked.kek rfl fun role' hext hkek => ?_
    obtain ⟨-, -, -, hv, hi, -⟩ := wrapUnderAccount_ok h
    exact levels_mount ((hl.accounts _ ha).mono hext) ⟨hkek, hv ▸ .sharedVmk id hk, hi ▸ .sharedIkek id hk⟩
  | @rotateSharedVaultKeys v k _ v' hv hk h =>
    obtain ⟨-, -, -, hv', -⟩ := rotateSharedVaultKeys_ok h
    have hlv : VaultLevels S Env role v' := by
      rw [hv']
      exact ⟨(vault_levels hl hv).kek, .sharedVmk _ hk, .sharedIkek _ hk⟩
    exact same_levels hb (rotateSharedVaultKeys_takes h).le
      (levels_born (below_placed hlv _ _) (List.forall_mem_singleton.mpr hlv))
  | @reattachVaultUnderAccount a v r ha hv h =>
    refine key_levels hb (wrapUnderAccount_takes h) .kek r.unlocked.kek rfl fun role' hext hkek => ?_
    obtain ⟨-, -, -, hvm, hi, -⟩ := wrapUnderAccount_ok h
    have hlv := (vault_levels hl hv).mono hext
    exact levels_mount ((hl.accounts _ ha).mono hext) ⟨hkek, hvm ▸ hlv.vmk, hi ▸ hlv.ikek⟩

theorem Levels.add {w : World β} {n' : Nat} {m : Made β} (hw : Levels S Env role w.all) (hm : Levels S Env role m) :
    Levels S Env role (w.add n' m).all :=
  ⟨List.forall_mem_append.mpr ⟨hm.wrapped, hw.wrapped⟩, List.forall_mem_append.mpr ⟨hm.born, hw.born⟩,
    List.forall_mem_append.mpr ⟨hm.opened, hw.opened⟩, List.forall_mem_append.mpr ⟨hm.accounts, hw.accounts⟩,
    List.forall_mem_append.mpr ⟨hm.keys, hw.keys⟩, List.forall_mem_append.mpr ⟨hm.payloads, hw.payloads⟩⟩

/-- Every key of a world has its level. -/
theorem reach_levels (hS : S.Ideal) {w : World β} (h : Reach S Env w) :
    ∃ role, Before role w.pos ∧ Levels S Env role w.all := by
  induction h with
  | init n =>
    refine ⟨fun _ => none, fun q r hq => (by cases hq), ?_, ?_, ?_, ?_, ?_, ?_⟩ <;> exact fun x hx => (by cases hx)
  | call hw hn hc ih =>
    obtain ⟨role, hb, hl⟩ := ih
    obtain ⟨role', hext, hb', hm⟩ := call_levels hS (reach_sound hS hw) hl (hb.mono hn) hc
    exact ⟨role', hb', (hl.mono hext).add hm⟩

end RootkeyCrypto.Worlds
