/-
  RootkeyCrypto.Core.Item — `item.rs`: one item is a payload sealed under a key of its own,
  and that key wrapped with the vault's IKEK; both ciphertexts bind the vault and item id.

  `Opens v id e p`: the record `e` is what the handle `v` opens to `p` as item `id`. It is
  what `decryptItem` decides (`decryptItem_ok`), what `encryptItem` makes
  (`encryptItem_ok`) and what `rewrapItemKey` carries from one IKEK to the next, when the
  two handles are of one vault (`rewrapItemKey_opens`).
-/

import RootkeyCrypto.Core.Vault

namespace RootkeyCrypto

open Lib

def itemFormatVersion : UInt16 := 3
def itemMinReadableVersion : UInt16 := 3

/-- What this client writes it reads. -/
theorem item_readable : checkVersion itemFormatVersion itemMinReadableVersion itemFormatVersion = .ok () := by
  decide

structure EncryptedItemBlob (β : Type) where
  version : UInt16
  wrappedItemKey : WrappedKey β
  blob : SealedBlob β
  deriving DecidableEq

variable {β : Type} (S : Suite β)

def encryptItem (plaintext : List β) (itemId : Id) (vault : UnlockedVault β) : Draw (EncryptedItemBlob β) := do
  let itemKey ← randomKey S
  let wrappedItemKey ← wrapKey S vault.ikek itemKey (aadForItemKey vault.vaultId itemId)
  let blob ← sealBlob S itemKey plaintext (aadForItemBlob vault.vaultId itemId)
  pure { version := itemFormatVersion, wrappedItemKey := wrappedItemKey, blob := blob }

def decryptItem (encrypted : EncryptedItemBlob β) (itemId : Id) (vault : UnlockedVault β) :
    Except CryptoError (List β) := do
  checkVersion itemFormatVersion itemMinReadableVersion encrypted.version
  let itemKey ← unwrapKey S vault.ikek encrypted.wrappedItemKey (aadForItemKey vault.vaultId itemId)
  openBlob S itemKey encrypted.blob (aadForItemBlob vault.vaultId itemId)

/-- Re-wrap an item key from the old handle's IKEK to the new one's; the payload stays. -/
def rewrapItemKey (oldVault newVault : UnlockedVault β) (encrypted : EncryptedItemBlob β) (itemId : Id) :
    Draw (EncryptedItemBlob β) := do
  checkVersion itemFormatVersion itemMinReadableVersion encrypted.version
  let itemKey ← unwrapKey S oldVault.ikek encrypted.wrappedItemKey (aadForItemKey oldVault.vaultId itemId)
  let wrappedItemKey ← wrapKey S newVault.ikek itemKey (aadForItemKey newVault.vaultId itemId)
  pure { version := itemFormatVersion, wrappedItemKey := wrappedItemKey, blob := encrypted.blob }

variable {S}

/-- The record holds `p` for the handle, as item `id`. -/
def Opens (S : Suite β) (v : UnlockedVault β) (id : Id) (e : EncryptedItemBlob β) (p : List β) : Prop :=
  ∃ k, Wraps S v.ikek k (aadForItemKey v.vaultId id) e.wrappedItemKey ∧ Seals S k p (aadForItemBlob v.vaultId id) e.blob

theorem decryptItem_ok (hS : S.Ideal) {e : EncryptedItemBlob β} {id : Id} {v : UnlockedVault β} {p : List β} :
    decryptItem S e id v = .ok p ↔
      checkVersion itemFormatVersion itemMinReadableVersion e.version = .ok () ∧ Opens S v id e p := by
  simp only [decryptItem, except_bind_ok, unwrapKey_ok hS, openBlob_ok hS, Opens]
  exact ⟨fun ⟨_, hv, k, hk, hb⟩ => ⟨hv, k, hk, hb⟩, fun ⟨hv, k, hk, hb⟩ => ⟨(), hv, k, hk, hb⟩⟩

theorem encryptItem_ok {p : List β} {id : Id} {v : UnlockedVault β} {e : EncryptedItemBlob β} {n n' : Nat}
    (h : encryptItem S p id v n = .ok (e, n')) :
    e.version = itemFormatVersion ∧ n < n' ∧ ∃ k, S.osKey n = some k ∧
      Wraps S v.ikek k (aadForItemKey v.vaultId id) e.wrappedItemKey ∧
      Seals S k p (aadForItemBlob v.vaultId id) e.blob := by
  simp only [encryptItem, Draws.bind_ok, Draws.pure_ok, randomKey_ok, wrapKey_ok, sealBlob_ok] at h
  obtain ⟨k, _, ⟨hk, rfl⟩, wk, _, ⟨-, hwk, rfl⟩, b, _, ⟨-, hb, rfl⟩, rfl, rfl⟩ := h
  exact ⟨rfl, by omega, k, hk, hwk, hb⟩

theorem rewrapItemKey_ok (hS : S.Ideal) {v v' : UnlockedVault β} {e e' : EncryptedItemBlob β} {id : Id} {n n' : Nat}
    (h : rewrapItemKey S v v' e id n = .ok (e', n')) :
    e'.version = itemFormatVersion ∧ e'.blob = e.blob ∧ n < n' ∧ ∃ k,
      Wraps S v.ikek k (aadForItemKey v.vaultId id) e.wrappedItemKey ∧
      Wraps S v'.ikek k (aadForItemKey v'.vaultId id) e'.wrappedItemKey := by
  simp only [rewrapItemKey, Draws.bind_ok, Draws.pure_ok, Draws.lift_ok, wrapKey_ok, unwrapKey_ok hS] at h
  obtain ⟨_, _, ⟨-, rfl⟩, k, _, ⟨hk, rfl⟩, wk, _, ⟨-, hwk, rfl⟩, rfl, rfl⟩ := h
  exact ⟨rfl, rfl, by omega, k, hk, hwk⟩

/-- What an encryption makes opens, under any handle of that vault with that IKEK. -/
theorem encryptItem_opens {p : List β} {id : Id} {v v' : UnlockedVault β} {e : EncryptedItemBlob β} {n n' : Nat}
    (h : encryptItem S p id v n = .ok (e, n')) (hv : v'.vaultId = v.vaultId) (hi : v'.ikek = v.ikek) :
    Opens S v' id e p := by
  obtain ⟨-, -, k, -, hw, hb⟩ := encryptItem_ok h
  rw [Opens, hv, hi]
  exact ⟨k, hw, hb⟩

/-- A re-wrap between handles of one vault keeps what the record opens to. -/
theorem rewrapItemKey_opens (hS : S.Ideal) {v v' : UnlockedVault β} {e e' : EncryptedItemBlob β} {id : Id} {n n' : Nat}
    {p : List β} (h : rewrapItemKey S v v' e id n = .ok (e', n')) (hv : v'.vaultId = v.vaultId)
    (ho : Opens S v id e p) : Opens S v' id e' p := by
  obtain ⟨-, hb, -, k, hk, hk'⟩ := rewrapItemKey_ok hS h
  obtain ⟨k₀, hw, hs⟩ := ho
  obtain ⟨-, -, rfl⟩ := hk.unique hS hw
  refine ⟨k, hk', ?_⟩
  rw [hb, hv]
  exact hs

/-- A handle with another IKEK opens nothing of the record. -/
theorem decryptItem_other (hS : S.Ideal) {p : List β} {id id' : Id} {v v' : UnlockedVault β} {e : EncryptedItemBlob β}
    (hver : e.version = itemFormatVersion) (ho : Opens S v id e p) (hi : v'.ikek ≠ v.ikek) :
    decryptItem S e id' v' = .error .decryptFailed := by
  obtain ⟨k, hw, -⟩ := ho
  unfold decryptItem
  rw [hver, item_readable]
  show (unwrapKey S v'.ikek e.wrappedItemKey _ >>= _) = _
  rw [unwrapKey_other hS hw (Or.inl hi)]
  rfl

/-! ## A trace -/

/-- An item of the new vault. -/
def demoItem : EncryptedItemBlob Term × Nat :=
  okVal (encryptItem demo.suite [.data 0] (.replicate 16 1) demoVault.1.unlocked demoVault.2) (by decide +kernel)

theorem demoItem_encrypted : encryptItem demo.suite [.data 0] (.replicate 16 1) demoVault.1.unlocked demoVault.2 =
    .ok (demoItem.1, demoItem.2) := okVal_eq _

end RootkeyCrypto
