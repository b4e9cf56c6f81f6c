/-
  RootkeyCrypto.Vault.Rewrap — what an item's record means after its key is re-wrapped.

  `rewrap_item_key` puts the item key under the IKEK and the vault id of the new handle;
  the payload keeps the vault id it was sealed for. Nothing compares the two vault ids.
  `Rewraps` is one re-wrap or several in a row, through any handles.

  Proved, over every pair of handles, every record and every row of re-wraps:
  - `rewraps_carried_iff`: the new record means under the last handle what the old one
    meant under the first, exactly when the two handles are of one vault or the payload
    opens in the vault of neither.
  - `lost_between_vaults`: between two vaults, a readable record becomes one that no handle
    reads, so nothing is left of the item once it is stored over the old one.
-/

import RootkeyCrypto.Core.Item

namespace RootkeyCrypto.Rewrap

open Lib

variable {β : Type} (S : Suite β)

/-- One re-wrap or several, from one handle to another. -/
inductive Rewraps (id : Id) : UnlockedVault β → EncryptedItemBlob β → UnlockedVault β → EncryptedItemBlob β → Prop
  | one {v v' : UnlockedVault β} {e r : EncryptedItemBlob β} {n n' : Nat}
      (h : rewrapItemKey S v v' e id n = .ok (r, n')) : Rewraps id v e v' r
  | more {v u v' : UnlockedVault β} {e m r : EncryptedItemBlob β} {n n' : Nat} (hr : Rewraps id v e u m)
      (h : rewrapItemKey S u v' m id n = .ok (r, n')) : Rewraps id v e v' r

/-- The record `r` is for the new handle what `e` was for the old one. -/
structure Carried (id : Id) (old : UnlockedVault β) (e : EncryptedItemBlob β) (new : UnlockedVault β)
    (r : EncryptedItemBlob β) : Prop where
  blob : r.blob = e.blob
  same : decryptItem S r id new = decryptItem S e id old
  /-- The old handle reads it only if the IKEK stayed. -/
  gone : ∀ p, decryptItem S r id old = .ok p → old.ikek = new.ikek
  /-- What was readable some handle still reads. -/
  kept : ∀ p, decryptItem S e id old = .ok p → ∃ v, decryptItem S r id v = .ok p
  /-- One direct re-wrap gives a record that every handle reads alike. -/
  direct : ∀ n d n', rewrapItemKey S old new e id n = .ok (d, n') →
    ∀ id' v, decryptItem S d id' v = decryptItem S r id' v

/-- The record's payload does not open, under its own item key, in this vault. -/
def Unreadable (id : Id) (old : UnlockedVault β) (e : EncryptedItemBlob β) (vaultId : Id) : Prop :=
  ∀ k p, unwrapKey S old.ikek e.wrappedItemKey (aadForItemKey old.vaultId id) = .ok k →
    openBlob S k e.blob (aadForItemBlob vaultId id) ≠ .ok p

variable {S} {id : Id} {old new : UnlockedVault β} {e r : EncryptedItemBlob β}

/-! ## What re-wrapping does -/

/-- The item key, from one handle to the other, and nothing else. -/
structure Moved (S : Suite β) (id : Id) (old : UnlockedVault β) (e : EncryptedItemBlob β) (new : UnlockedVault β)
    (r : EncryptedItemBlob β) (k : SymmetricKey β) : Prop where
  blob : r.blob = e.blob
  readable : checkVersion itemFormatVersion itemMinReadableVersion e.version = .ok ()
  version : r.version = itemFormatVersion
  before : Wraps S old.ikek k (aadForItemKey old.vaultId id) e.wrappedItemKey
  after : Wraps S new.ikek k (aadForItemKey new.vaultId id) r.wrappedItemKey

theorem rewrapItemKey_moved (hS : S.Ideal) {n n' : Nat} (h : rewrapItemKey S old new e id n = .ok (r, n')) :
    ∃ k, Moved S id old e new r k := by
  obtain ⟨hver, hb, -, k, hk, hk'⟩ := rewrapItemKey_ok hS h
  simp only [rewrapItemKey, Draws.bind_ok, Draws.lift_ok] at h
  obtain ⟨_, _, ⟨hread, -⟩, -⟩ := h
  exact ⟨k, hb, hread, hver, hk, hk'⟩

theorem Rewraps.moved (hS : S.Ideal) (h : Rewraps S id old e new r) : ∃ k, Moved S id old e new r k := by
  induction h with
  | one h => exact rewrapItemKey_moved hS h
  | more _ h ih =>
    obtain ⟨k, hm⟩ := ih
    obtain ⟨k', hm'⟩ := rewrapItemKey_moved hS h
    -- The handle in the middle holds one item key.
    obtain ⟨-, -, rfl⟩ := hm.after.unique hS hm'.before
    exact ⟨k, hm'.blob.trans hm.blob, hm.readable, hm'.version, hm.before, hm'.after⟩

/-! ## What the two records open to -/

theorem decryptItem_wrapped (hS : S.Ideal) {v : UnlockedVault β} {k : SymmetricKey β}
    (hver : checkVersion itemFormatVersion itemMinReadableVersion e.version = .ok ())
    (hk : Wraps S v.ikek k (aadForItemKey v.vaultId id) e.wrappedItemKey) :
    decryptItem S e id v = openBlob S k e.blob (aadForItemBlob v.vaultId id) := by
  unfold decryptItem
  rw [hver, (unwrapKey_ok hS).mpr hk]
  rfl

theorem openBlob_fails {k : SymmetricKey β} {b : SealedBlob β} {a : List UInt8}
    (h : ∀ p, openBlob S k b a ≠ .ok p) : openBlob S k b a = .error .decryptFailed := by
  unfold openBlob at h ⊢
  cases hd : S.xChaCha20.decrypt k b.nonce a b.ciphertext with
  | none => rfl
  | some p =>
    rw [hd] at h
    exact absurd rfl (h p)

/-- A payload opens alike in two vaults when they are one, or when it opens in neither. -/
theorem openBlob_same (hS : S.Ideal) {k : SymmetricKey β} {b : SealedBlob β} {v v' : Id} :
    openBlob S k b (aadForItemBlob v' id) = openBlob S k b (aadForItemBlob v id) ↔
      v = v' ∨ (∀ p, openBlob S k b (aadForItemBlob v id) ≠ .ok p) ∧
        ∀ p, openBlob S k b (aadForItemBlob v' id) ≠ .ok p := by
  constructor
  · intro h
    by_cases hv : v = v'
    · exact Or.inl hv
    · have hne : aadForItemBlob v' id ≠ aadForItemBlob v id := by
        intro ha
        have hc : Context.itemBlob v' id = Context.itemBlob v id := Context.bytes_inj.mp ha
        cases hc
        exact hv rfl
      have hfail : ∀ p, openBlob S k b (aadForItemBlob v id) ≠ .ok p := by
        intro p hp
        rw [openBlob_other hS ((openBlob_ok hS).mp hp) (Or.inr hne), hp] at h
        cases h
      refine Or.inr ⟨hfail, ?_⟩
      rw [h]
      exact hfail
  · intro h
    rcases h with rfl | ⟨h, h'⟩
    · rfl
    · rw [openBlob_fails h, openBlob_fails h']

/-- Two records with one payload and one item key, wrapped under one handle, are read alike. -/
theorem decryptItem_congr (hS : S.Ideal) {d : EncryptedItemBlob β} {k : SymmetricKey β}
    (hd : Moved S id old e new d k) (hr : Moved S id old e new r k) (id' : Id) (v : UnlockedVault β) :
    decryptItem S d id' v = decryptItem S r id' v := by
  have hu : unwrapKey S v.ikek d.wrappedItemKey (aadForItemKey v.vaultId id') =
      unwrapKey S v.ikek r.wrappedItemKey (aadForItemKey v.vaultId id') := by
    by_cases h : v.ikek = new.ikek ∧ aadForItemKey v.vaultId id' = aadForItemKey new.vaultId id
    · rw [h.1, h.2, (unwrapKey_ok hS).mpr hd.after, (unwrapKey_ok hS).mpr hr.after]
    · have hne : v.ikek ≠ new.ikek ∨ aadForItemKey v.vaultId id' ≠ aadForItemKey new.vaultId id :=
        not_and_or.mp h
      rw [unwrapKey_other hS hd.after hne, unwrapKey_other hS hr.after hne]
  unfold decryptItem
  rw [hd.version, hr.version, hu, hd.blob, hr.blob]

/-- Re-wrapping keeps what the record means exactly when both handles are of one vault, or
    when the payload opens in the vault of neither. -/
theorem rewraps_carried_iff (hS : S.Ideal) (h : Rewraps S id old e new r) :
    Carried S id old e new r ↔
      old.vaultId = new.vaultId ∨ Unreadable S id old e old.vaultId ∧ Unreadable S id old e new.vaultId := by
  obtain ⟨k, hm⟩ := h.moved hS
  have hk : unwrapKey S old.ikek e.wrappedItemKey (aadForItemKey old.vaultId id) = .ok k :=
    (unwrapKey_ok hS).mpr hm.before
  have hun : ∀ v, Unreadable S id old e v ↔ ∀ p, openBlob S k e.blob (aadForItemBlob v id) ≠ .ok p := by
    intro v
    constructor
    · intro hu p
      exact hu k p hk
    · intro hu k' p hk'
      rw [hk] at hk'
      cases hk'
      exact hu p
  have hold := decryptItem_wrapped hS hm.readable hm.before
  have hnew := decryptItem_wrapped hS (hm.version ▸ item_readable) hm.after
  rw [hun, hun, ← openBlob_same hS]
  constructor
  · intro hc
    have hs := hc.same
    rw [hnew, hold, hm.blob] at hs
    exact hs
  · intro hs
    have hsame : decryptItem S r id new = decryptItem S e id old := by
      rw [hnew, hold, hm.blob, hs]
    refine ⟨hm.blob, hsame, ?_, ?_, ?_⟩
    · intro p hp
      obtain ⟨-, k', hk', -⟩ := (decryptItem_ok hS).mp hp
      exact (hk'.unique hS hm.after).1
    · intro p hp
      exact ⟨new, hsame.trans hp⟩
    · intro n d n' hd id' v
      obtain ⟨k', hm'⟩ := rewrapItemKey_moved hS hd
      obtain ⟨-, -, rfl⟩ := hm.before.unique hS hm'.before
      exact decryptItem_congr hS hm' hm id' v

/-- Between two vaults, a record that was readable becomes one that no handle reads. -/
theorem lost_between_vaults (hS : S.Ideal) (h : Rewraps S id old e new r) (hv : old.vaultId ≠ new.vaultId)
    {p : List β} (hp : decryptItem S e id old = .ok p) (id' : Id) (v : UnlockedVault β) (p' : List β) :
    decryptItem S r id' v ≠ .ok p' := by
  intro hr
  obtain ⟨k, hm⟩ := h.moved hS
  obtain ⟨-, k₀, hw, hs⟩ := (decryptItem_ok hS).mp hp
  obtain ⟨-, -, rfl⟩ := hm.before.unique hS hw
  obtain ⟨-, k', hk', hs'⟩ := (decryptItem_ok hS).mp hr
  -- The key wrapping names the new vault, the payload the old one.
  obtain ⟨-, hkey, -⟩ := hk'.unique hS hm.after
  rw [hm.blob] at hs'
  obtain ⟨-, hblob, -⟩ := hs'.unique hS hs
  have hc : Context.itemKey v.vaultId id' = Context.itemKey new.vaultId id := Context.bytes_inj.mp hkey
  have hc' : Context.itemBlob v.vaultId id' = Context.itemBlob old.vaultId id := Context.bytes_inj.mp hblob
  simp only [Context.itemKey.injEq, Context.itemBlob.injEq] at hc hc'
  exact hv (hc'.1.symm.trans hc.1)

/-! ## Traces -/

/-- The new vault after one IKEK rotation, and its item re-wrapped. -/
def demoRotated : (EncryptedKeySet Term × UnlockedVault Term) × Nat :=
  okVal (rotateIkek demo.suite demoVault.1.unlocked demoVault.1.encrypted (demoItem.2 + 1)) (by decide +kernel)

def demoRewrapped : EncryptedItemBlob Term × Nat :=
  okVal (rewrapItemKey demo.suite demoVault.1.unlocked demoRotated.1.2 demoItem.1 (.replicate 16 1) demoRotated.2)
    (by decide +kernel)

theorem rewraps_carried_rotation :
    Carried demo.suite (.replicate 16 1) demoVault.1.unlocked demoItem.1 demoRotated.1.2 demoRewrapped.1 ∧
      decryptItem demo.suite demoRewrapped.1 (.replicate 16 1) demoRotated.1.2 = .ok [.data 0] := by
  have h : rewrapItemKey demo.suite demoVault.1.unlocked demoRotated.1.2 demoItem.1 (.replicate 16 1) demoRotated.2 =
      .ok (demoRewrapped.1, demoRewrapped.2) := okVal_eq _
  exact ⟨(rewraps_carried_iff demo.suite_ideal (.one h)).mpr (Or.inl (by decide +kernel)), by decide +kernel⟩

/-- Another vault, and the item re-wrapped to it. -/
def demoOther : VaultKeySet Term × Nat := okVal (createVaultKeys demo.suite "a" demoItem.2) (by decide +kernel)

def demoLost : EncryptedItemBlob Term × Nat :=
  okVal (rewrapItemKey demo.suite demoVault.1.unlocked demoOther.1.unlocked demoItem.1 (.replicate 16 1) demoOther.2)
    (by decide +kernel)

/-- The item was readable; the re-wrap succeeds; no handle reads the new record. -/
theorem a_lost_item :
    rewrapItemKey demo.suite demoVault.1.unlocked demoOther.1.unlocked demoItem.1 (.replicate 16 1) demoOther.2 =
        .ok (demoLost.1, demoLost.2) ∧
      decryptItem demo.suite demoItem.1 (.replicate 16 1) demoVault.1.unlocked = .ok [.data 0] ∧
      (∀ v p, decryptItem demo.suite demoLost.1 (.replicate 16 1) v ≠ .ok p) ∧
      ¬ Carried demo.suite (.replicate 16 1) demoVault.1.unlocked demoItem.1 demoOther.1.unlocked demoLost.1 := by
  have h : rewrapItemKey demo.suite demoVault.1.unlocked demoOther.1.unlocked demoItem.1 (.replicate 16 1) demoOther.2 =
      .ok (demoLost.1, demoLost.2) := okVal_eq _
  have hread : decryptItem demo.suite demoItem.1 (.replicate 16 1) demoVault.1.unlocked = .ok [.data 0] := by
    decide +kernel
  have hlost := lost_between_vaults demo.suite_ideal (.one h) (by decide +kernel) hread (.replicate 16 1)
  refine ⟨h, hread, hlost, fun hc => ?_⟩
  obtain ⟨v, hv⟩ := hc.kept _ hread
  exact hlost v _ hv

end RootkeyCrypto.Rewrap
