/-
  RootkeyCrypto.Core.Context — the associated data of every ciphertext the crate makes
  (`aad_for_*` in `vault.rs` and `account.rs`, `identity_aad`, `shared_item_aad`,
  `share.rs`'s `aad_for`, `export.rs`'s `aad_bytes`).

  Each is a label followed by ids, KDF parameters or an expiry of fixed length. A
  `Context` is which of them and its arguments, `Context.bytes` what the crate builds for
  it. No label is a prefix of another (`label_prefix_free`), so the bytes determine the
  context (`bytes_inj`).
-/

import RootkeyCrypto.Core.Kdf
import Mathlib.Data.List.Infix

namespace RootkeyCrypto

open Lib

def aadPrefix : List UInt8 := asBytes "root-key"

/-- `to_be_bytes` of a `u64`. -/
def be64 (x : UInt64) : List UInt8 :=
  [(x >>> 56).toUInt8, (x >>> 48).toUInt8, (x >>> 40).toUInt8, (x >>> 32).toUInt8,
   (x >>> 24).toUInt8, (x >>> 16).toUInt8, (x >>> 8).toUInt8, x.toUInt8]

theorem be64_eq (x : UInt64) : be64 x = beBytes 8 x.toNat := by
  simp only [be64, beBytes, List.cons.injEq, and_true, ← UInt8.toNat_inj, UInt8.toNat_ofNat', UInt64.toNat_toUInt8,
    UInt64.toNat_shiftRight]
  exact ⟨rfl, rfl, rfl, rfl, rfl, rfl, rfl, rfl⟩

theorem be64_inj {x y : UInt64} : be64 x = be64 y ↔ x = y := by
  refine ⟨fun h => ?_, fun h => by rw [h]⟩
  rw [be64_eq, be64_eq] at h
  exact UInt64.toNat_inj.mp (beBytes_inj x.toNat_lt y.toNat_lt h)

/-! ## As the source builds them -/

def aadForArk (accountId : Id) (kdf : KdfParams) : List UInt8 :=
  aadPrefix ++ asBytes "/wrap-ark/v1/" ++ (accountId.toList ++ kdf.aadBytes)

def aadForVaultKek (accountId vaultId : Id) : List UInt8 :=
  aadPrefix ++ asBytes "/wrap-vault-kek/v1/" ++ (accountId.toList ++ vaultId.toList)

def aadForAccountBiometric (accountId : Id) : List UInt8 :=
  aadPrefix ++ asBytes "/account-biometric/v1/" ++ accountId.toList

def aadForRecovery (accountId : Id) : List UInt8 :=
  aadPrefix ++ asBytes "/wrap-ark-recovery/v1/" ++ accountId.toList

def aadForKek (accountId vaultId : Id) (kdf : KdfParams) : List UInt8 :=
  aadPrefix ++ asBytes "/wrap-kek/v1/" ++ (accountId.toList ++ (vaultId.toList ++ kdf.aadBytes))

def aadForVmk (accountId vaultId : Id) : List UInt8 :=
  aadPrefix ++ asBytes "/wrap-vmk/v1/" ++ (accountId.toList ++ vaultId.toList)

def aadForIkek (vaultId : Id) : List UInt8 :=
  aadPrefix ++ asBytes "/wrap-ikek/v1/" ++ vaultId.toList

def aadForItemKey (vaultId itemId : Id) : List UInt8 :=
  aadPrefix ++ asBytes "/wrap-item-key/v2/" ++ (vaultId.toList ++ itemId.toList)

def aadForItemBlob (vaultId itemId : Id) : List UInt8 :=
  aadPrefix ++ asBytes "/item-blob/v2/" ++ (vaultId.toList ++ itemId.toList)

def aadForSigningSeed (vaultId : Id) : List UInt8 :=
  aadPrefix ++ asBytes "/wrap-signing-seed/v1/" ++ vaultId.toList

def aadForBiometric (vaultId : Id) : List UInt8 :=
  asBytes "root-key/biometric/v1/" ++ vaultId.toList

def identityAad (accountId : Id) : List UInt8 :=
  asBytes "root-key/identity-secret/v2" ++ accountId.toList

def sharedItemAad (sharedVaultId : Id) : List UInt8 :=
  asBytes "root-key/shared-item-blob/v1" ++ sharedVaultId.toList

def aadForShare (expiresAt : UInt64) : List UInt8 :=
  asBytes "rootkey-share/v1/" ++ be64 expiresAt

def exportMagic : String := "ROOTKEY_VAULT_BACKUP_V1"

def aadForExport (kdf : KdfParams) : List UInt8 :=
  asBytes exportMagic ++ kdf.aadBytes

/-! ## One type for all of them -/

inductive Context where
  | ark (accountId : Id) (kdf : KdfParams)
  | vaultKek (accountId vaultId : Id)
  | accountBiometric (accountId : Id)
  | recovery (accountId : Id)
  | kek (accountId vaultId : Id) (kdf : KdfParams)
  | vmk (accountId vaultId : Id)
  | ikek (vaultId : Id)
  | itemKey (vaultId itemId : Id)
  | itemBlob (vaultId itemId : Id)
  | signingSeed (vaultId : Id)
  | biometric (vaultId : Id)
  | identity (accountId : Id)
  | sharedItem (sharedVaultId : Id)
  | share (expiresAt : UInt64)
  | backup (kdf : KdfParams)
  deriving DecidableEq

namespace Context

def bytes : Context → List UInt8
  | ark a k => aadForArk a k
  | vaultKek a v => aadForVaultKek a v
  | accountBiometric a => aadForAccountBiometric a
  | recovery a => aadForRecovery a
  | kek a v k => aadForKek a v k
  | vmk a v => aadForVmk a v
  | ikek v => aadForIkek v
  | itemKey v i => aadForItemKey v i
  | itemBlob v i => aadForItemBlob v i
  | signingSeed v => aadForSigningSeed v
  | biometric v => aadForBiometric v
  | identity a => identityAad a
  | sharedItem v => sharedItemAad v
  | share e => aadForShare e
  | backup k => aadForExport k

/-- Which constructor. -/
inductive Kind where
  | ark | vaultKek | accountBiometric | recovery | kek | vmk | ikek | itemKey | itemBlob
  | signingSeed | biometric | identity | sharedItem | share | backup
  deriving DecidableEq

def kind : Context → Kind
  | ark .. => .ark
  | vaultKek .. => .vaultKek
  | accountBiometric .. => .accountBiometric
  | recovery .. => .recovery
  | kek .. => .kek
  | vmk .. => .vmk
  | ikek .. => .ikek
  | itemKey .. => .itemKey
  | itemBlob .. => .itemBlob
  | signingSeed .. => .signingSeed
  | biometric .. => .biometric
  | identity .. => .identity
  | sharedItem .. => .sharedItem
  | share .. => .share
  | backup .. => .backup

def Kind.label : Kind → List UInt8
  | .ark => aadPrefix ++ asBytes "/wrap-ark/v1/"
  | .vaultKek => aadPrefix ++ asBytes "/wrap-vault-kek/v1/"
  | .accountBiometric => aadPrefix ++ asBytes "/account-biometric/v1/"
  | .recovery => aadPrefix ++ asBytes "/wrap-ark-recovery/v1/"
  | .kek => aadPrefix ++ asBytes "/wrap-kek/v1/"
  | .vmk => aadPrefix ++ asBytes "/wrap-vmk/v1/"
  | .ikek => aadPrefix ++ asBytes "/wrap-ikek/v1/"
  | .itemKey => aadPrefix ++ asBytes "/wrap-item-key/v2/"
  | .itemBlob => aadPrefix ++ asBytes "/item-blob/v2/"
  | .signingSeed => aadPrefix ++ asBytes "/wrap-signing-seed/v1/"
  | .biometric => asBytes "root-key/biometric/v1/"
  | .identity => asBytes "root-key/identity-secret/v2"
  | .sharedItem => asBytes "root-key/shared-item-blob/v1"
  | .share => asBytes "rootkey-share/v1/"
  | .backup => asBytes exportMagic

/-- What follows the label. -/
def payload : Context → List UInt8
  | ark a k => a.toList ++ k.aadBytes
  | vaultKek a v => a.toList ++ v.toList
  | accountBiometric a => a.toList
  | recovery a => a.toList
  | kek a v k => a.toList ++ (v.toList ++ k.aadBytes)
  | vmk a v => a.toList ++ v.toList
  | ikek v => v.toList
  | itemKey v i => v.toList ++ i.toList
  | itemBlob v i => v.toList ++ i.toList
  | signingSeed v => v.toList
  | biometric v => v.toList
  | identity a => a.toList
  | sharedItem v => v.toList
  | share e => be64 e
  | backup k => k.aadBytes

theorem bytes_eq (c : Context) : c.bytes = c.kind.label ++ c.payload := by
  cases c <;> rfl

def Kind.all : List Kind :=
  [.ark, .vaultKek, .accountBiometric, .recovery, .kek, .vmk, .ikek, .itemKey, .itemBlob, .signingSeed,
   .biometric, .identity, .sharedItem, .share, .backup]

theorem Kind.mem_all (k : Kind) : k ∈ Kind.all := by
  cases k <;> decide

theorem label_prefix_free (k k' : Kind) (h : k.label <+: k'.label) : k = k' := by
  have hall : ∀ k ∈ Kind.all, ∀ k' ∈ Kind.all, k.label <+: k'.label → k = k' := by decide +kernel
  exact hall k k.mem_all k' k'.mem_all h

theorem ids_inj {a a' : Id} {x y : List UInt8} : a.toList ++ x = a'.toList ++ y ↔ a = a' ∧ x = y := by
  refine ⟨fun h => ?_, fun ⟨h, h'⟩ => by rw [h, h']⟩
  obtain ⟨h, h'⟩ := List.append_inj h (by rw [a.length, a'.length])
  exact ⟨Arr.toList_inj.mp h, h'⟩

theorem payload_inj {c c' : Context} (hk : c.kind = c'.kind) (h : c.payload = c'.payload) : c = c' := by
  -- Off the diagonal the kinds differ; on it the payloads have the same shape.
  cases c <;> cases c' <;> first | (cases hk; done) | skip
  all_goals
    simp only [payload, ids_inj, Arr.toList_inj, KdfParams.aadBytes_inj, be64_inj] at h
    simp only [h]

/-- Equal bytes are the same context with the same arguments. -/
theorem bytes_inj {c c' : Context} : c.bytes = c'.bytes ↔ c = c' := by
  refine ⟨fun h => ?_, fun h => by rw [h]⟩
  rw [bytes_eq, bytes_eq] at h
  have hk : c.kind = c'.kind := by
    have hp : c.kind.label <+: c'.kind.label ++ c'.payload := h ▸ List.prefix_append _ _
    rcases List.prefix_or_prefix_of_prefix hp (List.prefix_append _ _) with hp | hp
    · exact label_prefix_free _ _ hp
    · exact (label_prefix_free _ _ hp).symm
  rw [hk] at h
  exact payload_inj hk (List.append_cancel_left h)

end Context

end RootkeyCrypto
