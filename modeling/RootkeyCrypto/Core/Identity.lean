/-
  RootkeyCrypto.Core.Identity — `identity.rs`: a user's long-lived X25519 and Ed25519
  keys, stored under the KEK of one of his vaults.

  The envelope is a payload of 64 bytes, the two seeds one after the other, sealed under
  the KEK and bound to the account id; no operation on the vault ever re-wraps it. What
  it opens to is therefore fixed by the two values `wrapWithVault` took from the handle
  (`wrapWithVault_opens`), and a handle with another KEK or account opens nothing
  (`unwrapWithVault_other`).

  Ed25519 public keys and plain BLAKE3, which the fingerprint is made with, are parameters
  of which nothing is assumed.
-/

import RootkeyCrypto.Core.SharedVault
import RootkeyCrypto.Core.Vault

namespace RootkeyCrypto

open Lib

def x25519SecretKeyLen : Nat := 32
def ed25519SeedLen : Nat := 32

/-- `signing.rs`: an Ed25519 private key is its seed. -/
structure SigningKey (β : Type) where
  seed : Arr β 32
  deriving DecidableEq

/-- The packages the fingerprint is made with. -/
structure Fingerprints (β : Type) where
  /-- The Ed25519 public key of a seed. -/
  verifyingKey : Arr β 32 → Arr β 32
  /-- BLAKE3, not keyed. -/
  hash : List β → Arr UInt8 32

variable {β : Type} (S : Suite β)

/-- Both key pairs; the X25519 public key is the one of its secret. -/
structure Identity where
  x25519 : SharedIdentityKeyPair β
  ed25519 : SigningKey β
  paired : x25519.publicKey = S.x25519 x25519.secret

namespace Identity

def generate : Draw (Identity S) := do
  let secret ← randomKey S
  let seed ← randomKey S
  pure { x25519 := .fromSecret S secret, ed25519 := { seed := seed }, paired := rfl }

def fromSeeds (x25519Seed ed25519Seed : Arr β 32) : Identity S :=
  { x25519 := .fromSecret S x25519Seed, ed25519 := { seed := ed25519Seed }, paired := rfl }

variable {S}

/-- The sealed 64 bytes. -/
def plaintext (identity : Identity S) : List β := identity.x25519.secret.toList ++ identity.ed25519.seed.toList

@[simp] theorem plaintext_fromSeeds (x e : Arr β 32) : (fromSeeds S x e).plaintext = x.toList ++ e.toList := rfl

theorem plaintext_length (identity : Identity S) : identity.plaintext.length = x25519SecretKeyLen + ed25519SeedLen := by
  rw [plaintext, List.length_append, Arr.length, Arr.length]
  rfl

/-- The two seeds, in their places, are the whole identity. -/
theorem plaintext_inj {i j : Identity S} : i.plaintext = j.plaintext ↔ i = j := by
  refine ⟨fun h => ?_, fun h => by rw [h]⟩
  obtain ⟨⟨s, p⟩, ⟨e⟩, hi⟩ := i
  obtain ⟨⟨s', p'⟩, ⟨e'⟩, hj⟩ := j
  obtain ⟨hs, he⟩ := List.append_inj h (by rw [s.length, s'.length])
  rw [Arr.toList_inj] at hs he
  simp only at hs he hi hj
  subst hs he hi hj
  rfl

end Identity

/-! ## Fingerprints -/

/-- One upper-case hexadecimal digit. -/
def hexDigit (n : Nat) : Char := "0123456789ABCDEF".toList.getD n '0'

/-- `{byte:02X}`. -/
def hex2 (byte : UInt8) : List Char := [hexDigit (byte.toNat / 16), hexDigit (byte.toNat % 16)]

/-- Eight groups of four digits, from the first 16 bytes of the hash of both public keys. -/
def fingerprintFromPubkeys (F : Fingerprints β) (x25519Pk ed25519Pk : Arr β 32) : String :=
  let bytes := (F.hash (x25519Pk.toList ++ ed25519Pk.toList)).toList.take 16
  String.ofList (bytes.zipIdx.flatMap fun (byte, i) => (if i > 0 ∧ i % 2 = 0 then [' '] else []) ++ hex2 byte)

def Identity.fingerprint {S : Suite β} (F : Fingerprints β) (identity : Identity S) : String :=
  fingerprintFromPubkeys F identity.x25519.publicKey (F.verifyingKey identity.ed25519.seed)

/-! ## The stored envelope -/

def wrappedIdentityVersion : UInt16 := 2

structure WrappedIdentity (β : Type) where
  schemaVersion : UInt16
  envelope : SealedBlob β
  deriving DecidableEq

def wrapWithVault {S : Suite β} (identity : Identity S) (vault : UnlockedVault β) : Draw (WrappedIdentity β) := do
  let envelope ← sealBlob S vault.kek identity.plaintext (identityAad vault.accountId)
  pure { schemaVersion := wrappedIdentityVersion, envelope := envelope }

def unwrapWithVault (wrapped : WrappedIdentity β) (vault : UnlockedVault β) : Except CryptoError (Identity S) := do
  if wrapped.schemaVersion ≠ wrappedIdentityVersion then .error (.unsupportedVersion wrapped.schemaVersion)
  else
    let plaintext ← openBlob S vault.kek wrapped.envelope (identityAad vault.accountId)
    if h : plaintext.length = x25519SecretKeyLen + ed25519SeedLen then
      pure (.fromSeeds S ⟨plaintext.take x25519SecretKeyLen, by simp [h, x25519SecretKeyLen, ed25519SeedLen]⟩
        ⟨plaintext.drop x25519SecretKeyLen, by simp [h, x25519SecretKeyLen, ed25519SeedLen]⟩)
    else .error (.invalidArgument "identity plaintext length must be 64 bytes")

variable {S}

theorem wrapWithVault_ok {identity : Identity S} {v : UnlockedVault β} {x : WrappedIdentity β} {n n' : Nat}
    (h : wrapWithVault identity v n = .ok (x, n')) : x.schemaVersion = wrappedIdentityVersion ∧
      Seals S v.kek identity.plaintext (identityAad v.accountId) x.envelope ∧ n' = n + 1 := by
  simp only [wrapWithVault, Draws.bind_ok, Draws.pure_ok, sealBlob_ok] at h
  obtain ⟨b, _, ⟨-, hb, rfl⟩, rfl, rfl⟩ := h
  exact ⟨rfl, hb, rfl⟩

theorem unwrapWithVault_ok (hS : S.Ideal) {identity : Identity S} {v : UnlockedVault β} {x : WrappedIdentity β} :
    unwrapWithVault S x v = .ok identity ↔ x.schemaVersion = wrappedIdentityVersion ∧
      Seals S v.kek identity.plaintext (identityAad v.accountId) x.envelope := by
  unfold unwrapWithVault
  split
  · rename_i hver
    exact ⟨fun h => (by cases h), fun h => absurd h.1 hver⟩
  · rename_i hver
    simp only [except_bind_ok, openBlob_ok hS]
    constructor
    · rintro ⟨p, hp, h⟩
      split at h
      · rw [except_pure_ok] at h
        refine ⟨by simpa using hver, ?_⟩
        rw [← h, Identity.plaintext_fromSeeds, List.take_append_drop]
        exact hp
      · cases h
    · intro h
      obtain ⟨-, hp⟩ := h
      refine ⟨_, hp, ?_⟩
      rw [dif_pos identity.plaintext_length, except_pure_ok, ← Identity.plaintext_inj, Identity.plaintext_fromSeeds]
      exact List.take_append_drop _ _

/-- Every handle with that KEK, of that account, opens the identity that was wrapped. -/
theorem wrapWithVault_opens (hS : S.Ideal) {identity : Identity S} {v v' : UnlockedVault β} {x : WrappedIdentity β}
    {n n' : Nat} (h : wrapWithVault identity v n = .ok (x, n')) (hk : v'.kek = v.kek)
    (ha : v'.accountId = v.accountId) : unwrapWithVault S x v' = .ok identity := by
  obtain ⟨hver, hs, -⟩ := wrapWithVault_ok h
  rw [unwrapWithVault_ok hS, hk, ha]
  exact ⟨hver, hs⟩

/-- A handle with another KEK fails with `decryptFailed`. -/
theorem unwrapWithVault_other (hS : S.Ideal) {identity : Identity S} {v v' : UnlockedVault β} {x : WrappedIdentity β}
    {n n' : Nat} (h : wrapWithVault identity v n = .ok (x, n')) (hk : v'.kek ≠ v.kek) :
    unwrapWithVault S x v' = .error .decryptFailed := by
  obtain ⟨hver, hs, -⟩ := wrapWithVault_ok h
  unfold unwrapWithVault
  rw [if_neg (not_not.mpr hver), openBlob_other hS hs (Or.inl hk)]
  rfl

end RootkeyCrypto
