/-
  RootkeyCrypto.World.Homes — one KEK, one home.

  A handle carries the ids of its account and its vault; `label` picks either. Whatever
  calls were made, in whatever order, on whatever pieces, two handles with one KEK have one
  label (`reach_homes`): they are of one account and one vault (`one_home`). The induction
  is on the calls; a call either keeps the KEK of a handle with the same ids or draws a new
  one, and only a re-key draws several, one for each of its vaults.
-/

import RootkeyCrypto.World.Calls

namespace RootkeyCrypto.Worlds

open Lib

variable {β : Type} {S : Suite β} {Env : β → Prop} {label : Id → Id → Id}

/-- Among the handles is one with this label and this KEK. -/
def Lives (label : Id → Id → Id) (vs : List (UnlockedVault β)) (x : Id) (kek : KeyEncryptionKey β) : Prop :=
  ∃ u ∈ vs, label u.accountId u.vaultId = x ∧ u.kek = kek

structure Homes (S : Suite β) (label : Id → Id → Id) (w : World β) : Prop where
  drawn : ∀ v ∈ w.all.born, Drawn S 0 w.pos v.kek
  home : ∀ u ∈ w.all.born, ∀ v ∈ w.all.born, u.kek = v.kek → label u.accountId u.vaultId = label v.accountId v.vaultId
  opened : ∀ v ∈ w.all.opened, Lives label w.all.born (label v.accountId v.vaultId) v.kek
  vmks : ∀ r ∈ w.all.wrapped, ∀ a id, r.ctx = .vmk a id → Lives label w.all.born (label a id) r.key

/-- What one call does: a handle it makes keeps the KEK of a handle with its label or has a
    new one, and no two labels have one new one. -/
structure CallHomes (S : Suite β) (label : Id → Id → Id) (w : World β) (n n' : Nat) (m : Made β) : Prop where
  born : ∀ v ∈ m.born, Lives label w.all.born (label v.accountId v.vaultId) v.kek ∨ Drawn S n n' v.kek
  one : ∀ u ∈ m.born, ∀ v ∈ m.born, u.kek = v.kek → label u.accountId u.vaultId = label v.accountId v.vaultId
  opened : ∀ v ∈ m.opened, Lives label w.all.born (label v.accountId v.vaultId) v.kek
  vmks : ∀ r ∈ m.wrapped, ∀ a id, r.ctx = .vmk a id → Lives label m.born (label a id) r.key

theorem Homes.vault {w : World β} (hh : Homes S label w) {v : UnlockedVault β} (hv : w.Vault v) :
    Lives label w.all.born (label v.accountId v.vaultId) v.kek := by
  rcases hv with hv | hv
  · exact ⟨v, hv, rfl, rfl⟩
  · exact hh.opened v hv

/-- A handle made from another with its ids and its KEK. -/
theorem Homes.kept {w : World β} (hh : Homes S label w) {v v' : UnlockedVault β} (hv : w.Vault v)
    (ha : v'.accountId = v.accountId) (hid : v'.vaultId = v.vaultId) (hkek : v'.kek = v.kek) :
    Lives label w.all.born (label v'.accountId v'.vaultId) v'.kek := by
  rw [ha, hid, hkek]
  exact hh.vault hv

/-- A wrapped VMK of the world opens under a KEK of the handle it was wrapped for. -/
theorem Homes.below (hS : S.Ideal) {w : World β} (hw : Sound S w.all) (hh : Homes S label w) {v : UnlockedVault β}
    {wv wi : WrappedKey β} (hv : w.Has wv) (h : Below S v wv wi) :
    Lives label w.all.born (label v.accountId v.vaultId) v.kek := by
  obtain ⟨r, hr, rfl⟩ := hv
  obtain ⟨hkey, hctx, -⟩ := (hw.wraps r hr).unique hS h.vmk
  have hctx' : r.ctx = .vmk v.accountId v.vaultId := Context.bytes_inj.mp hctx
  exact hkey ▸ hh.vmks r hr _ _ hctx'

/-! ## One call -/

theorem homes_none {w : World β} {n n' : Nat} {m : Made β} (hb : m.born = []) (ho : m.opened = [])
    (hr : ∀ r ∈ m.wrapped, ∀ a id, r.ctx ≠ .vmk a id) : CallHomes S label w n n' m := by
  constructor
  · simp [hb]
  · simp [hb]
  · simp [ho]
  · intro r h a id hid
    exact absurd hid (hr r h a id)

theorem homes_opened {w : World β} {n n' : Nat} {v : UnlockedVault β}
    (h : Lives label w.all.born (label v.accountId v.vaultId) v.kek) :
    CallHomes S label w n n' { opened := [v] } := by
  constructor
  · intro x hx
    cases hx
  · intro x hx
    cases hx
  · exact List.forall_mem_singleton.mpr h
  · intro r hr
    cases hr

/-- One handle made, with the wrapped keys of that handle. -/
theorem homes_born {w : World β} {n n' : Nat} {v : UnlockedVault β} {rs : List (Rec β)}
    (h : Lives label w.all.born (label v.accountId v.vaultId) v.kek ∨ Drawn S n n' v.kek)
    (hr : ∀ r ∈ rs, ∀ a id, r.ctx = .vmk a id → v.accountId = a ∧ v.vaultId = id ∧ v.kek = r.key) :
    CallHomes S label w n n' { wrapped := rs, born := [v] } := by
  constructor
  · exact List.forall_mem_singleton.mpr h
  · exact List.forall_mem_singleton.mpr (List.forall_mem_singleton.mpr fun _ => rfl)
  · intro x hx
    cases hx
  · intro r hr' a id hid
    obtain ⟨ha, hv, hk⟩ := hr r hr' a id hid
    exact ⟨v, List.mem_cons_self, by rw [ha, hv], hk⟩

theorem below_home (v : UnlockedVault β) (wv wi : WrappedKey β) :
    ∀ r ∈ belowRecs v wv wi, ∀ a id, r.ctx = .vmk a id → v.accountId = a ∧ v.vaultId = id ∧ v.kek = r.key := by
  refine List.forall_mem_cons.mpr ⟨fun a id h => ?_, List.forall_mem_singleton.mpr fun a id h => (by cases h)⟩
  cases h
  exact ⟨rfl, rfl, rfl⟩

theorem mount_home {a : UnlockedAccount β} (e : AccountVaultEntry β) (s : VaultKeySlot β) (v : UnlockedVault β) :
    ∀ r ∈ mountRecs a e s v, ∀ a id, r.ctx = .vmk a id → v.accountId = a ∧ v.vaultId = id ∧ v.kek = r.key :=
  List.forall_mem_cons.mpr ⟨fun a id h => (by cases h), below_home v _ _⟩

/-- The re-keyed vaults have KEKs of their own. -/
theorem rekey_homes (hS : S.Ideal) {old new : String} {ks : AccountKeySet β} {slots : List (VaultKeySlot β)}
    {r : RekeyedAccount β} {n n' : Nat} (h : rekeyAccount S old new ks slots n = .ok (r, n')) :
    ∀ u ∈ r.vaults.map (·.new), ∀ v ∈ r.vaults.map (·.new), u.kek = v.kek → u = v := by
  have hapart : (r.vaults.map (·.new)).Pairwise fun u v => u.kek ≠ v.kek :=
    List.pairwise_map.mpr (rekeyAccount_apart hS h)
  have hnew : (r.vaults.map (·.new)).Pairwise fun u v => u.kek = v.kek → u = v :=
    hapart.imp fun hne heq => absurd heq hne
  have hflip : (r.vaults.map (·.new)).Pairwise (flip fun u v => u.kek = v.kek → u = v) :=
    hapart.imp fun hne heq => absurd heq.symm hne
  intro u hu v hv
  exact hnew.forall_of_forall_of_flip (fun _ _ _ => rfl) hflip hu hv

theorem call_homes (hS : S.Ideal) {w : World β} {n n' : Nat} {m : Made β} (hw : Sound S w.all) (hh : Homes S label w)
    (h : Call S Env w n n' m) : CallHomes S label w n n' m := by
  cases h with
  | createVaultKeys h _ =>
    obtain ⟨-, -, -, hkek, -⟩ := createVaultKeys_ok h
    exact homes_born (Or.inr hkek) (List.forall_mem_cons.mpr ⟨fun a id h => (by cases h), below_home _ _ _⟩)
  | unlockVault hks h =>
    obtain ⟨-, _, -, hh'⟩ := (unlockVault_ok hS).mp h
    exact homes_opened (hh.below hS hw hks.2.1 hh'.below)
  | unlockViaBiometric _ hv _ h =>
    obtain ⟨-, -, -, -, -, hb⟩ := (unlockViaBiometric_ok hS).mp h
    exact homes_opened (hh.below hS hw hv hb)
  | rotateVaultKey hv h =>
    obtain ⟨-, -, hv', -⟩ := rotateVaultKey_ok h
    exact homes_born (Or.inl (hh.kept hv (by rw [hv']) (by rw [hv']) (by rw [hv']))) (below_home _ _ _)
  | rotateVaultKeySeed hv _ h _ =>
    obtain ⟨-, -, hv', -⟩ := rotateVaultKey_ok h
    exact homes_born (Or.inl (hh.kept hv (by rw [hv']) (by rw [hv']) (by rw [hv'])))
      (List.forall_mem_cons.mpr ⟨fun a id h => (by cases h), below_home _ _ _⟩)
  | rotateIkek hv h =>
    obtain ⟨-, -, hv', -⟩ := rotateIkek_ok h
    exact homes_born (Or.inl (hh.kept hv (by rw [hv']) (by rw [hv']) (by rw [hv'])))
      (List.forall_mem_singleton.mpr fun a id h => (by cases h))
  | rotateAccountRootKey _ _ _ hrs =>
    refine homes_none rfl rfl (List.forall_mem_cons.mpr ⟨fun a id => (by simp), fun r hr a id => ?_⟩)
    obtain ⟨e, -, kek, -, rfl⟩ := paired_right hrs hr
    simp
  | @rekeyAccount _ _ ks slots r _ _ hs h _ =>
    obtain ⟨a, _, -, -, -, -, -, -, hall, -⟩ := rekeyAccount_ok h
    refine ⟨fun v hv => ?_, fun u hu v hv hk => (by rw [rekey_homes hS h u hu v hv hk]), fun v hv => ?_, ?_⟩
    · obtain ⟨x, hx, rfl⟩ := List.mem_map.mp hv
      obtain ⟨s, -, hr⟩ := paired_right hall hx
      exact Or.inr (hr.fresh.1.widen (by omega) (Nat.le_refl _))
    · obtain ⟨x, hx, rfl⟩ := List.mem_map.mp hv
      obtain ⟨s, hsl, hr⟩ := paired_right hall hx
      obtain ⟨e, -, -, hopen⟩ := hr.old
      exact hh.below hS hw (hs s hsl).1 ((unlockAccountVault_ok hS).mp hopen).2.below
    · refine List.forall_mem_cons.mpr ⟨fun a id h => (by cases h), fun y hy a id hid => ?_⟩
      obtain ⟨x, hx, hy⟩ := List.mem_flatMap.mp hy
      obtain ⟨ha, hv, hk⟩ := mount_home _ _ _ y hy a id hid
      exact ⟨x.new, List.mem_map_of_mem hx, by rw [ha, hv], hk⟩
  | unlockAccountVault _ _ hs h =>
    exact homes_opened (hh.below hS hw hs.1 ((unlockAccountVault_ok hS).mp h).2.below)
  | createVaultUnderAccount _ h =>
    obtain ⟨-, -, -, hkek, -⟩ := createVaultUnderAccount_ok h
    exact homes_born (Or.inr hkek) (mount_home _ _ _)
  | attachSharedVaultUnderAccount _ _ h =>
    obtain ⟨-, -, -, -, -, hkek, hlt⟩ := wrapUnderAccount_ok h
    exact homes_born (Or.inr ⟨n, Nat.le_refl _, hlt, hkek⟩) (mount_home _ _ _)
  | rotateSharedVaultKeys hv _ h =>
    obtain ⟨-, -, -, hv', -⟩ := rotateSharedVaultKeys_ok h
    exact homes_born (Or.inl (hh.kept hv (by rw [hv']) (by rw [hv']) (by rw [hv']))) (below_home _ _ _)
  | reattachVaultUnderAccount _ _ h =>
    obtain ⟨-, -, -, -, -, hkek, hlt⟩ := wrapUnderAccount_ok h
    exact homes_born (Or.inr ⟨n, Nat.le_refl _, hlt, hkek⟩) (mount_home _ _ _)
  | _ => exact homes_none rfl rfl (by simp)

/-- A KEK drawn later is not an earlier one. -/
theorem drawn_distinct (hS : S.Ideal) {n n' m m' : Nat} {k k' : SymmetricKey β} (h : Drawn S n n' k)
    (h' : Drawn S m m' k') (hle : n' ≤ m) : k ≠ k' := by
  rintro rfl
  obtain ⟨i, -, hi, hk⟩ := h
  obtain ⟨j, hj, -, hk'⟩ := h'
  have := hS.key_fresh hk hk'
  omega

theorem homes_add (hS : S.Ideal) {w : World β} {n n' : Nat} {m : Made β} (hh : Homes S label w) (hn : w.pos ≤ n)
    (hn' : n ≤ n') (hm : CallHomes S label w n n' m) : Homes S label (w.add n' m) := by
  have hold : ∀ {x kek}, Lives label w.all.born x kek → Lives label (w.add n' m).all.born x kek := by
    intro x kek h
    obtain ⟨u, hu, h⟩ := h
    exact ⟨u, List.mem_append_right _ hu, h⟩
  have hnew : ∀ {x kek}, Lives label m.born x kek → Lives label (w.add n' m).all.born x kek := by
    intro x kek h
    obtain ⟨u, hu, h⟩ := h
    exact ⟨u, List.mem_append_left _ hu, h⟩
  -- A KEK of an older handle is drawn before the call and has one label.
  have hhome : ∀ u ∈ w.all.born, ∀ v ∈ m.born, u.kek = v.kek →
      label u.accountId u.vaultId = label v.accountId v.vaultId := by
    intro u hu v hv h
    rcases hm.born v hv with ⟨x, hx, hxl, hxk⟩ | hd
    · rw [← hxl]
      exact hh.home u hu x hx (h.trans hxk.symm)
    · exact absurd h (drawn_distinct hS (hh.drawn u hu) hd hn)
  refine ⟨List.forall_mem_append.mpr ⟨?_, ?_⟩, List.forall_mem_append.mpr ⟨?_, ?_⟩,
    List.forall_mem_append.mpr ⟨?_, ?_⟩, List.forall_mem_append.mpr ⟨?_, ?_⟩⟩
  · intro v hv
    rcases hm.born v hv with ⟨x, hx, -, hxk⟩ | hd
    · exact hxk ▸ (hh.drawn x hx).widen (Nat.le_refl _) (show w.pos ≤ n' by omega)
    · exact hd.widen (Nat.zero_le _) (Nat.le_refl _)
  · intro v hv
    exact (hh.drawn v hv).widen (Nat.le_refl _) (show w.pos ≤ n' by omega)
  · intro u hu
    exact List.forall_mem_append.mpr ⟨hm.one u hu, fun v hv h => (hhome v hv u hu h.symm).symm⟩
  · intro u hu
    exact List.forall_mem_append.mpr ⟨hhome u hu, hh.home u hu⟩
  · exact fun v hv => hold (hm.opened v hv)
  · exact fun v hv => hold (hh.opened v hv)
  · exact fun r hr a id h => hnew (hm.vmks r hr a id h)
  · exact fun r hr a id h => hold (hh.vmks r hr a id h)

/-! ## Every run -/

theorem reach_homes (hS : S.Ideal) (label : Id → Id → Id) {w : World β} (h : Reach S Env w) : Homes S label w := by
  induction h with
  | init n => refine ⟨?_, ?_, ?_, ?_⟩ <;> exact fun x hx => (by cases hx)
  | call hw hn hc ih => exact homes_add hS ih hn (call_forward hS hc) (call_homes hS (reach_sound hS hw) ih hc)

/-- Two handles of a world with one KEK have one label. -/
theorem Homes.one {w : World β} (hh : Homes S label w) {u v : UnlockedVault β} (hu : w.Vault u) (hv : w.Vault v)
    (hk : u.kek = v.kek) : label u.accountId u.vaultId = label v.accountId v.vaultId := by
  obtain ⟨x, hx, hxl, hxk⟩ := hh.vault hu
  obtain ⟨y, hy, hyl, hyk⟩ := hh.vault hv
  rw [← hxl, ← hyl]
  exact hh.home x hx y hy (hxk.trans (hk.trans hyk.symm))

/-- They are of one account and one vault. -/
theorem one_home (hS : S.Ideal) {w : World β} (h : Reach S Env w) {u v : UnlockedVault β} (hu : w.Vault u)
    (hv : w.Vault v) (hk : u.kek = v.kek) : u.accountId = v.accountId ∧ u.vaultId = v.vaultId :=
  ⟨(reach_homes hS (fun a _ => a) h).one hu hv hk, (reach_homes hS (fun _ id => id) h).one hu hv hk⟩

/-- A handle's KEK was drawn in the past. -/
theorem vault_drawn (hS : S.Ideal) {w : World β} (h : Reach S Env w) {v : UnlockedVault β} (hv : w.Vault v) :
    Drawn S 0 w.pos v.kek := by
  have hhomes := reach_homes hS (fun _ id => id) h
  obtain ⟨x, hx, -, hxk⟩ := hhomes.vault hv
  rw [← hxk]
  exact hhomes.drawn x hx

end RootkeyCrypto.Worlds
