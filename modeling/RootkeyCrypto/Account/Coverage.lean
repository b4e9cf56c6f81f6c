/-
  RootkeyCrypto.Account.Coverage — which accounts a re-key covers.

  `rekey_account` takes the stored keyset and one slot per vault. It checks that there are
  as many slots as entries and that every entry has a slot, then finds each slot's entry by
  its vault id. The list of entries is plain data, and nothing checks that its vault ids
  are distinct; when they are, the two checks are a bijection.

  Proved, over every keyset, slot list and outcome of the draws:
  - `covered_iff`: a re-key that succeeds covers the account exactly when the keyset names
    no vault twice; with a vault named twice, one of the re-keyed vaults does not open
    from the new keyset.
  - `a_vault_twice`: such a re-key does succeed.
-/

import RootkeyCrypto.Core.Account
import Mathlib.Data.List.Perm.Subperm

namespace RootkeyCrypto.Coverage

open Lib

variable {β : Type} (S : Suite β)

def vaultIds (ks : AccountKeySet β) : List Id := ks.vaults.map (·.vaultId)

/-- The first entry of a vault. -/
def entryOf (ks : AccountKeySet β) (vaultId : Id) : Option (AccountVaultEntry β) :=
  ks.vaults.find? fun e => e.vaultId = vaultId

/-- Every re-keyed vault opens, through the first entry of its id, to its new handle. -/
def Reopens (new : String) (r : RekeyedAccount β) : Prop :=
  ∃ a, unlockAccount S new r.encrypted = .ok a ∧ ∀ x ∈ r.vaults, ∃ e,
    entryOf r.encrypted x.slot.vaultId = some e ∧ unlockAccountVault S a e x.slot = .ok x.new

/-- What a re-key is to give. -/
structure Covered (old new : String) (current : AccountKeySet β) (slots : List (VaultKeySlot β))
    (r : RekeyedAccount β) : Prop where
  /-- Slots and entries correspond one to one. -/
  paired : (slots.map (·.vaultId)).Perm (vaultIds current)
  distinct : (vaultIds current).Nodup
  /-- The new keyset has each vault once. -/
  entries : (vaultIds r.encrypted).Perm (vaultIds current) ∧ (vaultIds r.encrypted).Nodup
  reopens : Reopens S new r
  /-- The old handles are what the original entries and the slots opened to. -/
  before : ∃ a, unlockAccount S old current = .ok a ∧ List.Forall₂ (fun slot x => ∃ e,
    entryOf current slot.vaultId = some e ∧ unlockAccountVault S a e slot = .ok x.old) slots r.vaults

variable {S}

/-! ## One re-key -/

/-- The loop takes the first entry of the slot's vault. -/
theorem rekeyVault_entry {ks : AccountKeySet β} {old unlocked : UnlockedAccount β} {s : VaultKeySlot β}
    {x : RekeyedVault β} {n n' : Nat} (h : rekeyVault S ks old unlocked s n = .ok (x, n')) :
    ∃ e, entryOf ks s.vaultId = some e ∧ unlockAccountVault S old e s = .ok x.old ∧ x.entry.vaultId = s.vaultId := by
  unfold rekeyVault at h
  cases he : ks.vaults.find? (fun e => e.vaultId = s.vaultId) with
  | none =>
    rw [he] at h
    exact (Draws.throw_ok.mp h).elim
  | some e =>
    rw [he] at h
    simp only [Draws.bind_ok, Draws.pure_ok, Draws.lift_ok] at h
    obtain ⟨v, _, ⟨hv, -⟩, kek, _, -, vmk, _, -, ikek, _, -, wk, _, -, wv, _, -, wi, _, -, rfl, -⟩ := h
    exact ⟨e, he, hv, rfl⟩

/-- The old handles are what the first entries and the slots opened to. -/
theorem rekeyAccount_before {old new : String} {ks : AccountKeySet β} {slots : List (VaultKeySlot β)}
    {r : RekeyedAccount β} {n n' : Nat} (h : rekeyAccount S old new ks slots n = .ok (r, n')) :
    ∃ a, unlockAccount S old ks = .ok a ∧ List.Forall₂ (fun slot x => ∃ e,
      entryOf ks slot.vaultId = some e ∧ unlockAccountVault S a e slot = .ok x.old) slots r.vaults := by
  obtain ⟨_, _, -, hid, -⟩ := rekeyAccount_ok h
  obtain ⟨-, -, a, m, ha, hrun⟩ := rekeyAccount_run h
  have hf : ∀ s, (rekeyVault S ks a r.unlocked s).Forward :=
    fun s i x j hx => Nat.le_of_lt (rekeyVault_ok hid hx).2
  refine ⟨a, ha, (Draws.each_ok hf hrun).2.imp ?_⟩
  intro s x hx
  obtain ⟨i, j, -, -, -, hx⟩ := hx
  obtain ⟨e, he, hv, -⟩ := rekeyVault_entry hx
  exact ⟨e, he, hv⟩

/-! ## Counting -/

section Counting

variable {old new : String} {ks : AccountKeySet β} {slots : List (VaultKeySlot β)} {r : RekeyedAccount β} {n n' : Nat}

/-- A successful re-key has an entry for each slot. -/
theorem slots_subset (h : rekeyAccount S old new ks slots n = .ok (r, n')) :
    slots.map (·.vaultId) ⊆ vaultIds ks := by
  obtain ⟨a, muk, -, -, -, -, -, -, hall, -⟩ := rekeyAccount_ok h
  intro id hid
  obtain ⟨s, hs, rfl⟩ := List.mem_map.mp hid
  obtain ⟨x, -, hx⟩ := paired_left hall hs
  obtain ⟨e, he, hid, -⟩ := hx.old
  exact List.mem_map.mpr ⟨e, he, hid⟩

theorem subset_slots (h : rekeyAccount S old new ks slots n = .ok (r, n')) :
    vaultIds ks ⊆ slots.map (·.vaultId) := by
  obtain ⟨-, hcover, -⟩ := rekeyAccount_run h
  intro id hid
  obtain ⟨e, he, rfl⟩ := List.mem_map.mp hid
  obtain ⟨s, hs, hid⟩ := hcover e he
  exact List.mem_map.mpr ⟨s, hs, hid⟩

theorem ids_length (h : rekeyAccount S old new ks slots n = .ok (r, n')) :
    (slots.map (·.vaultId)).length = (vaultIds ks).length := by
  rw [vaultIds, List.length_map, List.length_map]
  exact (rekeyAccount_run h).1

/-- As many slots as entries, each entry with a slot: with distinct entries, a bijection. -/
theorem slots_perm (h : rekeyAccount S old new ks slots n = .ok (r, n')) (hd : (vaultIds ks).Nodup) :
    (slots.map (·.vaultId)).Perm (vaultIds ks) :=
  ((List.subperm_of_subset hd (subset_slots h)).perm_of_length_le (Nat.le_of_eq (ids_length h))).symm

/-- And the other way round, with distinct slots. -/
theorem distinct_of_slots (h : rekeyAccount S old new ks slots n = .ok (r, n'))
    (hd : (slots.map (·.vaultId)).Nodup) : (vaultIds ks).Nodup :=
  ((List.subperm_of_subset hd (slots_subset h)).perm_of_length_le (Nat.le_of_eq (ids_length h).symm)).nodup_iff.mp hd

theorem vaultIds_rekeyed (h : rekeyAccount S old new ks slots n = .ok (r, n')) :
    vaultIds r.encrypted = slots.map (·.vaultId) := by
  obtain ⟨a, muk, -, -, -, -, -, henc, hall, -⟩ := rekeyAccount_ok h
  rw [vaultIds, henc, List.map_map]
  exact paired_map hall fun s x hx => hx.vault

end Counting

/-! ## Opening what was re-keyed -/

section Opening

variable {old new : String} {ks : AccountKeySet β} {slots : List (VaultKeySlot β)} {r : RekeyedAccount β} {n n' : Nat}

/-- With distinct slots, each re-keyed vault finds its own entry. -/
theorem reopens_of_distinct (hS : S.Ideal) (h : rekeyAccount S old new ks slots n = .ok (r, n'))
    (hd : (slots.map (·.vaultId)).Nodup) : Reopens S new r := by
  obtain ⟨a, muk, -, hid, -, -, -, henc, hall, -⟩ := rekeyAccount_ok h
  refine ⟨r.unlocked, rekeyAccount_opens hS h, ?_⟩
  intro x hx
  obtain ⟨s, -, hr⟩ := paired_right hall hx
  have hmem : x.entry ∈ r.encrypted.vaults := by
    rw [henc]
    exact List.mem_map.mpr ⟨x, hx, rfl⟩
  have hnodup : (r.encrypted.vaults.map (·.vaultId)).Nodup := by
    have := vaultIds_rekeyed h
    rw [vaultIds] at this
    rw [this]
    exact hd
  refine ⟨x.entry, ?_, ?_⟩
  · rw [entryOf, hr.mounts.slotVault]
    exact find?_of_nodup hnodup hmem
  · exact (unlockAccountVault_ok hS).mpr ⟨hr.version ▸ account_readable, hr.mounts⟩

/-- If every re-keyed vault opens through the first entry of its id, no two have one id:
    the two would open to one KEK. -/
theorem distinct_of_reopens (hS : S.Ideal) (h : rekeyAccount S old new ks slots n = .ok (r, n'))
    (ho : Reopens S new r) : (vaultIds ks).Nodup := by
  obtain ⟨a, muk, -, hid, -, -, -, henc, hall, -⟩ := rekeyAccount_ok h
  obtain ⟨a', ha', hopen⟩ := ho
  have hids : r.vaults.map (·.slot.vaultId) = slots.map (·.vaultId) :=
    paired_map hall fun s x hx => hx.mounts.slotVault.trans hx.vault
  refine distinct_of_slots h ?_
  rw [← hids]
  refine List.pairwise_map.mpr ((rekeyAccount_apart hS h).imp_of_mem ?_)
  intro x y hx hy hne heq
  obtain ⟨e, he, hux⟩ := hopen x hx
  obtain ⟨e', he', huy⟩ := hopen y hy
  rw [heq, he'] at he
  cases he
  obtain ⟨-, hmx⟩ := (unlockAccountVault_ok hS).mp hux
  obtain ⟨-, hmy⟩ := (unlockAccountVault_ok hS).mp huy
  exact hne (hmx.kek.unique hS hmy.kek).2.2

end Opening

/-- A re-key that succeeds covers the account exactly when the keyset names no vault twice;
    when it names one twice, not every re-keyed vault opens again. -/
theorem covered_iff (hS : S.Ideal) {old new : String} {current : AccountKeySet β} {slots : List (VaultKeySlot β)}
    {r : RekeyedAccount β} {n n' : Nat} (h : rekeyAccount S old new current slots n = .ok (r, n')) :
    (Covered S old new current slots r ↔ (vaultIds current).Nodup) ∧
      (Reopens S new r ↔ (vaultIds current).Nodup) := by
  refine ⟨⟨fun hc => hc.distinct, fun hd => ?_⟩, fun ho => distinct_of_reopens hS h ho, fun hd => ?_⟩
  · have hp := slots_perm h hd
    have hnodup : (slots.map (·.vaultId)).Nodup := hp.nodup_iff.mpr hd
    refine ⟨hp, hd, ?_, reopens_of_distinct hS h hnodup, ?_⟩
    · rw [vaultIds_rekeyed h]
      exact ⟨hp, hnodup⟩
    · exact rekeyAccount_before h
  · exact reopens_of_distinct hS h ((slots_perm h hd).nodup_iff.mpr hd)

/-! ## Traces -/

/-- The account's second vault. -/
def demoSecond : VaultUnderAccount Term × Nat :=
  okVal (createVaultUnderAccount demo.suite demoAccount.1.unlocked demoMount.2) (by decide +kernel)

def demoPair : AccountKeySet Term := { demoKeyset with vaults := [demoMount.1.entry, demoSecond.1.entry] }

/-- Both vaults, the slots in the other order. -/
def demoRekey : RekeyedAccount Term × Nat :=
  okVal (rekeyAccount demo.suite "a" "b" demoPair [demoSecond.1.slot, demoMount.1.slot] demoSecond.2) (by decide +kernel)

theorem covered_iff_pair : Covered demo.suite "a" "b" demoPair [demoSecond.1.slot, demoMount.1.slot] demoRekey.1 := by
  have h : rekeyAccount demo.suite "a" "b" demoPair [demoSecond.1.slot, demoMount.1.slot] demoSecond.2 =
      .ok (demoRekey.1, demoRekey.2) := okVal_eq _
  exact (covered_iff demo.suite_ideal h).1.mpr (by decide +kernel)

/-- One vault twice, with its slot twice. -/
def demoTwiceRekeyed : RekeyedAccount Term × Nat :=
  okVal (rekeyAccount demo.suite "a" "b" demoTwice [demoMount.1.slot, demoMount.1.slot] demoMount.2)
    (by decide +kernel)

/-- The re-key succeeds, and its second vault does not open through the first entry. -/
theorem a_vault_twice :
    rekeyAccount demo.suite "a" "b" demoTwice [demoMount.1.slot, demoMount.1.slot] demoMount.2 =
        .ok (demoTwiceRekeyed.1, demoTwiceRekeyed.2) ∧
      (∃ x ∈ demoTwiceRekeyed.1.vaults, ∃ e, entryOf demoTwiceRekeyed.1.encrypted x.slot.vaultId = some e ∧
        unlockAccountVault demo.suite demoTwiceRekeyed.1.unlocked e x.slot = .error .decryptFailed) ∧
      ¬ Covered demo.suite "a" "b" demoTwice [demoMount.1.slot, demoMount.1.slot] demoTwiceRekeyed.1 := by
  refine ⟨okVal_eq _, ?_, fun hc => ?_⟩
  · have hany : demoTwiceRekeyed.1.vaults.any (fun x =>
        (entryOf demoTwiceRekeyed.1.encrypted x.slot.vaultId).any fun e =>
          unlockAccountVault demo.suite demoTwiceRekeyed.1.unlocked e x.slot = .error .decryptFailed) = true := by
      decide +kernel
    obtain ⟨x, hx, hxe⟩ := List.any_eq_true.mp hany
    obtain ⟨e, he, hfail⟩ := (Option.any_eq_true _ _).mp hxe
    exact ⟨x, hx, e, he, of_decide_eq_true hfail⟩
  · exact absurd hc.distinct (by decide +kernel)

end RootkeyCrypto.Coverage
