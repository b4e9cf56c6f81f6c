/-
  RootkeyCrypto.Core.SharedAccount — `shared_account.rs`: a shared vault mounted in a
  member's account.

  On each member's machine a shared vault is an ordinary vault of the account, except that
  its VMK and IKEK are derived from the shared vault key and the vault id. Attaching makes
  a new KEK for them; rotating keeps the KEK and derives a new pair; reattaching makes a
  new KEK for the pair a handle already holds.
-/

import RootkeyCrypto.Core.Account

namespace RootkeyCrypto

open Lib

variable {β : Type} (S : Suite β)

def sharedMaterial (sharedVaultKey : Arr β 32) (vaultId : Id) : List β :=
  sharedVaultKey.toList ++ vaultId.toList.map S.lit

/-- The VMK and IKEK of a shared vault. -/
def deriveSharedVaultKeys (sharedVaultKey : Arr β 32) (vaultId : Id) : VaultMasterKey β × ItemKekKey β :=
  (S.blake3 "root-key/shared-vault-vmk/v1" (sharedMaterial S sharedVaultKey vaultId),
   S.blake3 "root-key/shared-vault-ikek/v1" (sharedMaterial S sharedVaultKey vaultId))

def wrapUnderAccount (account : UnlockedAccount β) (vaultId : Id) (vmk : VaultMasterKey β) (ikek : ItemKekKey β) :
    Draw (VaultUnderAccount β) := do
  let kek ← randomKey S
  let wrappedKek ← wrapKey S account.ark kek (aadForVaultKek account.accountId vaultId)
  let wrappedVmk ← wrapKey S kek vmk (aadForVmk account.accountId vaultId)
  let wrappedIkek ← wrapKey S vmk ikek (aadForIkek vaultId)
  pure { entry := { vaultId := vaultId, wrappedKek := wrappedKek }
         slot := { version := accountFormatVersion, accountId := account.accountId, vaultId := vaultId,
                   wrappedVmk := wrappedVmk, wrappedIkek := wrappedIkek }
         unlocked := { accountId := account.accountId, vaultId := vaultId, kek := kek, vmk := vmk, ikek := ikek } }

def attachSharedVaultUnderAccount (account : UnlockedAccount β) (vaultId : Id) (sharedVaultKey : Arr β 32) :
    Draw (VaultUnderAccount β) :=
  let (vmk, ikek) := deriveSharedVaultKeys S sharedVaultKey vaultId
  wrapUnderAccount S account vaultId vmk ikek

/-- The same KEK over the pair of the new shared key: only the slot changes. -/
def rotateSharedVaultKeys (vault : UnlockedVault β) (newSharedVaultKey : Arr β 32) :
    Draw (VaultKeySlot β × UnlockedVault β) := do
  let (vmk, ikek) := deriveSharedVaultKeys S newSharedVaultKey vault.vaultId
  let kek := vault.kek
  let wrappedVmk ← wrapKey S kek vmk (aadForVmk vault.accountId vault.vaultId)
  let wrappedIkek ← wrapKey S vmk ikek (aadForIkek vault.vaultId)
  pure ({ version := accountFormatVersion, accountId := vault.accountId, vaultId := vault.vaultId,
          wrappedVmk := wrappedVmk, wrappedIkek := wrappedIkek },
        { accountId := vault.accountId, vaultId := vault.vaultId, kek := kek, vmk := vmk, ikek := ikek })

def reattachVaultUnderAccount (account : UnlockedAccount β) (vault : UnlockedVault β) : Draw (VaultUnderAccount β) :=
  wrapUnderAccount S account vault.vaultId vault.vmk vault.ikek

variable {S}

/-- Equal keys or equal vaults are derived from equal shared keys and equal vaults. -/
theorem deriveSharedVaultKeys_inj (hS : S.Ideal) {k k' : Arr β 32} {v v' : Id}
    (h : (deriveSharedVaultKeys S k v).1 = (deriveSharedVaultKeys S k' v').1 ∨
      (deriveSharedVaultKeys S k v).2 = (deriveSharedVaultKeys S k' v').2) : k = k' ∧ v = v' := by
  have hm : sharedMaterial S k v = sharedMaterial S k' v' := by
    rcases h with h | h
    · exact (hS.blake_inj h).2
    · exact (hS.blake_inj h).2
  obtain ⟨hk, hv⟩ := List.append_inj hm (by rw [k.length, k'.length])
  exact ⟨Arr.toList_inj.mp hk, Arr.toList_inj.mp (List.map_injective_iff.mpr hS.lit_inj hv)⟩

/-! ## What each call takes and gives -/

theorem wrapUnderAccount_ok {a : UnlockedAccount β} {id : Id} {vmk : VaultMasterKey β} {ikek : ItemKekKey β}
    {r : VaultUnderAccount β} {n n' : Nat} (h : wrapUnderAccount S a id vmk ikek n = .ok (r, n')) :
    r.slot.version = accountFormatVersion ∧ Mounts S a r.entry r.slot r.unlocked ∧ r.unlocked.vaultId = id ∧
      r.unlocked.vmk = vmk ∧ r.unlocked.ikek = ikek ∧ S.osKey n = some r.unlocked.kek ∧ n < n' := by
  simp only [wrapUnderAccount, Draws.bind_ok, Draws.pure_ok, randomKey_ok, wrapKey_ok] at h
  obtain ⟨kek, _, ⟨hkek, rfl⟩, wk, _, ⟨-, hk, rfl⟩, wv, _, ⟨-, hv, rfl⟩, wi, _, ⟨-, hi, rfl⟩, rfl, rfl⟩ := h
  exact ⟨rfl, ⟨rfl, rfl, rfl, rfl, hk, hv, hi⟩, rfl, rfl, rfl, hkek, by omega⟩

theorem rotateSharedVaultKeys_ok {v v' : UnlockedVault β} {k : Arr β 32} {s : VaultKeySlot β} {n n' : Nat}
    (h : rotateSharedVaultKeys S v k n = .ok ((s, v'), n')) :
    s.version = accountFormatVersion ∧ s.accountId = v.accountId ∧ s.vaultId = v.vaultId ∧
      v' = { v with vmk := (deriveSharedVaultKeys S k v.vaultId).1, ikek := (deriveSharedVaultKeys S k v.vaultId).2 } ∧
      Below S v' s.wrappedVmk s.wrappedIkek ∧ n < n' := by
  simp only [rotateSharedVaultKeys, Draws.bind_ok, Draws.pure_ok, wrapKey_ok] at h
  obtain ⟨wv, _, ⟨-, hv, rfl⟩, wi, _, ⟨-, hi, rfl⟩, h, rfl⟩ := h
  cases h
  exact ⟨rfl, rfl, rfl, rfl, ⟨hv, hi⟩, by omega⟩

/-- The rotation's slot and handle belong to the entry the old ones belong to. -/
theorem rotateSharedVaultKeys_mounts {a : UnlockedAccount β} {e : AccountVaultEntry β} {s s' : VaultKeySlot β}
    {v v' : UnlockedVault β} {k : Arr β 32} {n n' : Nat} (h : rotateSharedVaultKeys S v k n = .ok ((s', v'), n'))
    (hm : Mounts S a e s v) : Mounts S a e s' v' := by
  obtain ⟨-, hsa, hsv, rfl, hb, -⟩ := rotateSharedVaultKeys_ok h
  exact ⟨hm.account, hm.vault, hsa.trans hm.account, hsv.trans hm.vault, hm.kek, hb⟩

theorem rotateSharedVaultKeys_opens (hS : S.Ideal) {a : UnlockedAccount β} {e : AccountVaultEntry β}
    {s s' : VaultKeySlot β} {v v' : UnlockedVault β} {k : Arr β 32} {n n' : Nat}
    (h : rotateSharedVaultKeys S v k n = .ok ((s', v'), n')) (ho : unlockAccountVault S a e s = .ok v) :
    unlockAccountVault S a e s' = .ok v' := by
  have hver := (rotateSharedVaultKeys_ok h).1
  have hm := ((unlockAccountVault_ok hS).mp ho).2
  exact (unlockAccountVault_ok hS).mpr ⟨hver ▸ account_readable, rotateSharedVaultKeys_mounts h hm⟩

end RootkeyCrypto
