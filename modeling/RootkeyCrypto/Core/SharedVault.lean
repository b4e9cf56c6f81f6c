/-
  RootkeyCrypto.Core.SharedVault — `shared_vault.rs`: the key of a shared vault, sealed to
  each member's X25519 public key, and the items sealed under it.

  A wrap is a version byte followed by a libsodium sealed box. `createSharedVault` draws
  the key and wraps it for every recipient in order; `rotateSharedVaultKey` is the same
  function on the remaining ones, so a rotation's key has nothing of the old one.
-/

import RootkeyCrypto.Core.Wrapping

namespace RootkeyCrypto

open Lib

variable {β : Type} (S : Suite β)

/-- A member's long-lived X25519 key pair. -/
structure SharedIdentityKeyPair (β : Type) where
  secret : Arr β 32
  publicKey : Arr β 32
  deriving DecidableEq

def SharedIdentityKeyPair.fromSecret (secret : Arr β 32) : SharedIdentityKeyPair β :=
  { secret := secret, publicKey := S.x25519 secret }

def SharedIdentityKeyPair.generate : Draw (SharedIdentityKeyPair β) := do
  let secret ← randomKey S
  pure (.fromSecret S secret)

def sealedFormatV1 : UInt8 := 1

/-- Version byte and sealed box. -/
structure SealedSharedKey (β : Type) where
  bytes : List β
  deriving DecidableEq

/-- `DryocBox::seal`: the ephemeral key pair is the box's own draw. -/
def boxSeal (recipientPubkey : Arr β 32) (message : List β) : Draw (List β) := fun pos =>
  match S.boxSeal pos recipientPubkey message with
  | some c => .ok (c, pos + 1)
  | none => .error .encryptFailed

def wrapForRecipient (sharedVaultKey recipientPubkey : Arr β 32) : Draw (SealedSharedKey β) := do
  let body ← boxSeal S recipientPubkey sharedVaultKey.toList
  pure { bytes := S.lit sealedFormatV1 :: body }

/-- Open one's own wrap. The version byte is compared with v1 and the message must be a key. -/
def unwrapWithIdentity [DecidableEq β] (wrap : SealedSharedKey β) (identity : SharedIdentityKeyPair β) :
    Except CryptoError (SymmetricKey β) :=
  match wrap.bytes with
  | [] => .error .decryptFailed
  | version :: body =>
    if version ≠ S.lit sealedFormatV1 then .error .decryptFailed
    else
      match S.boxOpen identity.secret body with
      | none => .error .decryptFailed
      | some plaintext =>
        match Arr.ofList? 32 plaintext with
        | none => .error .decryptFailed
        | some key => .ok key

def createSharedVault (recipientPubkeys : List (Arr β 32)) : Draw (SymmetricKey β × List (SealedSharedKey β)) := do
  let key ← randomKey S
  let wraps ← Draws.each (wrapForRecipient S key) recipientPubkeys
  pure (key, wraps)

def addRecipient (sharedVaultKey : SymmetricKey β) (newRecipientPubkey : Arr β 32) : Draw (SealedSharedKey β) :=
  wrapForRecipient S sharedVaultKey newRecipientPubkey

def rotateSharedVaultKey (remainingRecipientPubkeys : List (Arr β 32)) :
    Draw (SymmetricKey β × List (SealedSharedKey β)) :=
  createSharedVault S remainingRecipientPubkeys

/-- The same, for other crates: the key as bytes. -/
def createSharedVaultBytes (recipientPubkeys : List (Arr β 32)) : Draw (Arr β 32 × List (SealedSharedKey β)) := do
  let raw ← randomKey S
  let wraps ← Draws.each (wrapForRecipient S raw) recipientPubkeys
  pure (raw, wraps)

def unwrapWithIdentityBytes [DecidableEq β] (wrap : SealedSharedKey β) (identity : SharedIdentityKeyPair β) :
    Except CryptoError (Arr β 32) := do
  let key ← unwrapWithIdentity S wrap identity
  pure key

/-- Any bytes, sealed like a shared key (for the AI inbox). -/
def sealBytesFor (recipientPubkey : Arr β 32) (plaintext : List β) : Draw (List β) := do
  let body ← boxSeal S recipientPubkey plaintext
  pure (S.lit sealedFormatV1 :: body)

def openSealedBytes [DecidableEq β] (sealedBytes : List β) (identity : SharedIdentityKeyPair β) :
    Except CryptoError (List β) :=
  match sealedBytes with
  | [] => .error .decryptFailed
  | version :: body =>
    if version ≠ S.lit sealedFormatV1 then .error .decryptFailed
    else
      match S.boxOpen identity.secret body with
      | none => .error .decryptFailed
      | some plaintext => .ok plaintext

/-! ## Shared items -/

def sharedItemVersion : UInt16 := 1

structure EncryptedSharedItem (β : Type) where
  version : UInt16
  blob : SealedBlob β
  deriving DecidableEq

def encryptSharedItem (plaintext : List β) (sharedVaultKey : Arr β 32) (sharedVaultId : Id) :
    Draw (EncryptedSharedItem β) := do
  let blob ← sealBlob S sharedVaultKey plaintext (sharedItemAad sharedVaultId)
  pure { version := sharedItemVersion, blob := blob }

def decryptSharedItem (encrypted : EncryptedSharedItem β) (sharedVaultKey : Arr β 32) (sharedVaultId : Id) :
    Except CryptoError (List β) :=
  if encrypted.version ≠ sharedItemVersion then .error (.unsupportedVersion encrypted.version)
  else openBlob S sharedVaultKey encrypted.blob (sharedItemAad sharedVaultId)

variable {S}

/-! ## What each call takes and gives -/

theorem generate_ok {r : SharedIdentityKeyPair β} {n n' : Nat}
    (h : SharedIdentityKeyPair.generate S n = .ok (r, n')) :
    S.osKey n = some r.secret ∧ r.publicKey = S.x25519 r.secret ∧ n' = n + 1 := by
  simp only [SharedIdentityKeyPair.generate, Draws.bind_ok, Draws.pure_ok, randomKey_ok] at h
  obtain ⟨k, _, ⟨hk, rfl⟩, rfl, rfl⟩ := h
  exact ⟨hk, rfl, rfl⟩

/-- The wrap is the version byte and a sealed box of the key made at this position. -/
def WrapsFor (S : Suite β) (n : Nat) (key pk : Arr β 32) (w : SealedSharedKey β) : Prop :=
  ∃ body, S.boxSeal n pk key.toList = some body ∧ w.bytes = S.lit sealedFormatV1 :: body

theorem wrapForRecipient_ok {key pk : Arr β 32} {w : SealedSharedKey β} {n n' : Nat} :
    wrapForRecipient S key pk n = .ok (w, n') ↔ WrapsFor S n key pk w ∧ n' = n + 1 := by
  simp only [wrapForRecipient, Draws.bind_ok, Draws.pure_ok, WrapsFor, boxSeal]
  cases S.boxSeal n pk key.toList with
  | none => simp
  | some c =>
    obtain ⟨b⟩ := w
    simp only [Except.ok.injEq, Prod.mk.injEq, SealedSharedKey.mk.injEq, Option.some.injEq]
    constructor
    · rintro ⟨_, _, ⟨rfl, rfl⟩, rfl, rfl⟩
      exact ⟨⟨_, rfl, rfl⟩, rfl⟩
    · rintro ⟨⟨_, rfl, rfl⟩, rfl⟩
      exact ⟨_, _, ⟨rfl, rfl⟩, rfl, rfl⟩

theorem wrapForRecipient_forward (key pk : Arr β 32) : (wrapForRecipient S key pk).Forward := by
  intro n w n' h
  have := (wrapForRecipient_ok.mp h).2
  omega

/-- The recipient opens his wrap to the key that was wrapped. -/
theorem unwrapWithIdentity_own [DecidableEq β] (hB : S.IdealBox) {n : Nat} {key pk : Arr β 32} {w : SealedSharedKey β}
    {identity : SharedIdentityKeyPair β} (h : WrapsFor S n key pk w) (hpk : pk = S.x25519 identity.secret) :
    unwrapWithIdentity S w identity = .ok key := by
  obtain ⟨body, hbox, hw⟩ := h
  have hopen := hB.opens (hpk ▸ hbox)
  simp only [unwrapWithIdentity, hw, ne_eq, not_true_eq_false, if_false, hopen, Arr.ofList?_toList]

/-- Whoever opens a wrap is its recipient and gets the key that was wrapped. -/
theorem unwrapWithIdentity_only [DecidableEq β] (hB : S.IdealBox) {n : Nat} {key key' pk : Arr β 32}
    {w : SealedSharedKey β} {identity : SharedIdentityKeyPair β} (h : WrapsFor S n key pk w)
    (ho : unwrapWithIdentity S w identity = .ok key') : pk = S.x25519 identity.secret ∧ key' = key := by
  obtain ⟨body, hbox, hw⟩ := h
  simp only [unwrapWithIdentity, hw, ne_eq, not_true_eq_false, if_false] at ho
  cases hopen : S.boxOpen identity.secret body with
  | none => rw [hopen] at ho; cases ho
  | some m =>
    obtain ⟨hpk, rfl⟩ := hB.only hbox hopen
    rw [hopen] at ho
    simp only [Arr.ofList?_toList, Except.ok.injEq] at ho
    exact ⟨hpk, ho.symm⟩

theorem sealBytesFor_ok {pk : Arr β 32} {m c : List β} {n n' : Nat} :
    sealBytesFor S pk m n = .ok (c, n') ↔ (∃ body, S.boxSeal n pk m = some body ∧ c = S.lit sealedFormatV1 :: body) ∧
      n' = n + 1 := by
  simp only [sealBytesFor, Draws.bind_ok, Draws.pure_ok, boxSeal]
  cases S.boxSeal n pk m with
  | none => simp
  | some b =>
    simp only [Except.ok.injEq, Prod.mk.injEq, Option.some.injEq]
    constructor
    · rintro ⟨_, _, ⟨rfl, rfl⟩, rfl, rfl⟩
      exact ⟨⟨_, rfl, rfl⟩, rfl⟩
    · rintro ⟨⟨_, rfl, rfl⟩, rfl⟩
      exact ⟨_, _, ⟨rfl, rfl⟩, rfl, rfl⟩

/-- What is sealed for someone opens with his key pair, and with no other. -/
theorem openSealedBytes_iff [DecidableEq β] (hB : S.IdealBox) {pk : Arr β 32} {m c : List β} {n n' : Nat}
    {identity : SharedIdentityKeyPair β} (h : sealBytesFor S pk m n = .ok (c, n')) :
    openSealedBytes S c identity = if pk = S.x25519 identity.secret then .ok m else .error .decryptFailed := by
  obtain ⟨⟨body, hbox, rfl⟩, -⟩ := sealBytesFor_ok.mp h
  simp only [openSealedBytes, ne_eq, not_true_eq_false, if_false]
  by_cases hpk : pk = S.x25519 identity.secret
  · rw [if_pos hpk, hB.opens (hpk ▸ hbox)]
  · rw [if_neg hpk]
    cases hopen : S.boxOpen identity.secret body with
    | none => rfl
    | some m' => exact absurd (hB.only hbox hopen).1 hpk

theorem openSealedBytes_ok [DecidableEq β] {c m : List β} {identity : SharedIdentityKeyPair β} :
    openSealedBytes S c identity = .ok m ↔
      ∃ body, c = S.lit sealedFormatV1 :: body ∧ S.boxOpen identity.secret body = some m := by
  cases c with
  | nil => simp [openSealedBytes]
  | cons version body =>
    simp only [openSealedBytes, ne_eq, ite_not, List.cons.injEq]
    by_cases hv : version = S.lit sealedFormatV1
    · rw [if_pos hv]
      cases hopen : S.boxOpen identity.secret body with
      | none => simp [hopen]
      | some m' => simp [hv, hopen]
    · rw [if_neg hv]
      simp [hv]

/-- A wrap is a sealed message that is a key: the two formats are one. -/
theorem unwrapWithIdentity_ok [DecidableEq β] {x : SealedSharedKey β} {identity : SharedIdentityKeyPair β}
    {key : Arr β 32} :
    unwrapWithIdentity S x identity = .ok key ↔ openSealedBytes S x.bytes identity = .ok key.toList := by
  unfold unwrapWithIdentity openSealedBytes
  cases x.bytes with
  | nil => simp
  | cons version body =>
    simp only
    split
    · simp
    · cases S.boxOpen identity.secret body with
      | none => simp
      | some m =>
        simp only [Except.ok.injEq]
        rw [← Arr.ofList?_eq_some]
        cases Arr.ofList? 32 m with
        | none => simp
        | some k => simp

theorem unwrapWithIdentityBytes_eq [DecidableEq β] (x : SealedSharedKey β) (identity : SharedIdentityKeyPair β) :
    unwrapWithIdentityBytes S x identity = unwrapWithIdentity S x identity := by
  unfold unwrapWithIdentityBytes
  cases unwrapWithIdentity S x identity <;> rfl

theorem createSharedVaultBytes_eq (pks : List (Arr β 32)) : createSharedVaultBytes S pks = createSharedVault S pks := rfl

theorem createSharedVault_ok {pks : List (Arr β 32)} {key : SymmetricKey β} {wraps : List (SealedSharedKey β)}
    {n n' : Nat} (h : createSharedVault S pks n = .ok ((key, wraps), n')) :
    S.osKey n = some key ∧ n < n' ∧
      List.Forall₂ (fun pk w => ∃ m, n < m ∧ m < n' ∧ WrapsFor S m key pk w) pks wraps := by
  simp only [createSharedVault, Draws.bind_ok, Draws.pure_ok, randomKey_ok] at h
  obtain ⟨k, _, ⟨hk, rfl⟩, ws, m, hws, h, rfl⟩ := h
  cases h
  obtain ⟨hle, hall⟩ := Draws.each_ok (fun pk => wrapForRecipient_forward key pk) hws
  refine ⟨hk, by omega, hall.imp fun pk w hw => ?_⟩
  obtain ⟨i, j, hi, -, hj, hw⟩ := hw
  obtain ⟨hbox, rfl⟩ := wrapForRecipient_ok.mp hw
  exact ⟨i, by omega, by omega, hbox⟩

theorem encryptSharedItem_ok {p : List β} {k : Arr β 32} {v : Id} {e : EncryptedSharedItem β} {n n' : Nat}
    (h : encryptSharedItem S p k v n = .ok (e, n')) :
    e.version = sharedItemVersion ∧ Seals S k p (sharedItemAad v) e.blob := by
  simp only [encryptSharedItem, Draws.bind_ok, Draws.pure_ok, sealBlob_ok] at h
  obtain ⟨b, _, ⟨-, hb, -⟩, rfl, -⟩ := h
  exact ⟨rfl, hb⟩

theorem decryptSharedItem_ok (hS : S.Ideal) {p : List β} {k : Arr β 32} {v : Id} {e : EncryptedSharedItem β} :
    decryptSharedItem S e k v = .ok p ↔ e.version = sharedItemVersion ∧ Seals S k p (sharedItemAad v) e.blob := by
  unfold decryptSharedItem
  split
  · rename_i hver
    exact ⟨fun h => (by cases h), fun h => absurd h.1 hver⟩
  · rename_i hver
    rw [openBlob_ok hS]
    exact ⟨fun h => ⟨not_not.mp hver, h⟩, fun h => h.2⟩

end RootkeyCrypto
