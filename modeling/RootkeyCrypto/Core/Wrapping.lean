/-
  RootkeyCrypto.Core.Wrapping — `aead.rs`: a 32-byte key wrapped with AES-256-GCM-SIV, a
  payload sealed with XChaCha20-Poly1305. The nonce is drawn inside and stored beside the
  ciphertext; a caller cannot choose it.

  `Wraps k p a w`: the stored `w` is what wrapping `p` under `k` and associated data `a`
  gives. With an ideal cipher that is exactly when `unwrapKey` opens it (`unwrapKey_ok`),
  a stored key is the wrapping of one key under one key and one associated data
  (`Wraps.unique`), and under anything else unwrapping is `decryptFailed`
  (`unwrapKey_other`). `Seals` says the same of payloads.

  As equal associated data are one context (`Context.bytes_inj`), what is made in one
  context is nothing in every other (`contexts_separate`).
-/

import RootkeyCrypto.Core.Context
import RootkeyCrypto.Lib.Symbolic

namespace RootkeyCrypto

open Lib

/-- A key wrapped with AES-256-GCM-SIV. -/
structure WrappedKey (β : Type) where
  nonce : Arr UInt8 12
  ciphertext : List β
  deriving DecidableEq

/-- A payload sealed with XChaCha20-Poly1305. -/
structure SealedBlob (β : Type) where
  nonce : Arr UInt8 24
  ciphertext : List β
  deriving DecidableEq

theorem WrappedKey.ext {β : Type} {x y : WrappedKey β} (hn : x.nonce = y.nonce) (hc : x.ciphertext = y.ciphertext) :
    x = y := by
  obtain ⟨nonce, ciphertext⟩ := x
  cases hn
  cases hc
  rfl

theorem SealedBlob.ext {β : Type} {x y : SealedBlob β} (hn : x.nonce = y.nonce) (hc : x.ciphertext = y.ciphertext) :
    x = y := by
  obtain ⟨nonce, ciphertext⟩ := x
  cases hn
  cases hc
  rfl

variable {β : Type} (S : Suite β)

def wrapKey (kek plaintextKey : SymmetricKey β) (aad : List UInt8) : Draw (WrappedKey β) := do
  let nonce ← randomBytes S 12
  match S.aesGcmSiv.encrypt kek nonce aad plaintextKey.toList with
  | some ciphertext => pure { nonce := nonce, ciphertext := ciphertext }
  | none => Draws.throw .encryptFailed

def unwrapKey (kek : SymmetricKey β) (wrapped : WrappedKey β) (aad : List UInt8) :
    Except CryptoError (SymmetricKey β) :=
  match S.aesGcmSiv.decrypt kek wrapped.nonce aad wrapped.ciphertext with
  | some plaintext => tryFromSlice plaintext
  | none => .error .decryptFailed

def sealBlob (key : SymmetricKey β) (plaintext : List β) (aad : List UInt8) : Draw (SealedBlob β) := do
  let nonce ← randomBytes S 24
  match S.xChaCha20.encrypt key nonce aad plaintext with
  | some ciphertext => pure { nonce := nonce, ciphertext := ciphertext }
  | none => Draws.throw .encryptFailed

def openBlob (key : SymmetricKey β) (blob : SealedBlob β) (aad : List UInt8) : Except CryptoError (List β) :=
  match S.xChaCha20.decrypt key blob.nonce aad blob.ciphertext with
  | some plaintext => .ok plaintext
  | none => .error .decryptFailed

variable {S}

/-! ## Wrapped keys -/

def Wraps (S : Suite β) (k p : SymmetricKey β) (a : List UInt8) (w : WrappedKey β) : Prop :=
  S.aesGcmSiv.encrypt k w.nonce a p.toList = some w.ciphertext

theorem wrapKey_ok {k p : SymmetricKey β} {a : List UInt8} {w : WrappedKey β} {n n' : Nat} :
    wrapKey S k p a n = .ok (w, n') ↔ S.osBytes n 12 = some w.nonce ∧ Wraps S k p a w ∧ n' = n + 1 := by
  simp only [wrapKey, Draws.bind_ok, randomBytes_ok, Wraps]
  constructor
  · rintro ⟨nonce, m, ⟨hn, rfl⟩, h⟩
    cases hc : S.aesGcmSiv.encrypt k nonce a p.toList with
    | none => rw [hc] at h; exact (Draws.throw_ok.mp h).elim
    | some c =>
      rw [hc] at h
      obtain ⟨rfl, rfl⟩ := Draws.pure_ok.mp h
      exact ⟨hn, hc, rfl⟩
  · rintro ⟨hn, hw, rfl⟩
    refine ⟨w.nonce, _, ⟨hn, rfl⟩, ?_⟩
    rw [hw]
    exact Draws.pure_ok.mpr ⟨rfl, rfl⟩

theorem unwrapKey_ok (hS : S.Ideal) {k p : SymmetricKey β} {a : List UInt8} {w : WrappedKey β} :
    unwrapKey S k w a = .ok p ↔ Wraps S k p a w := by
  unfold unwrapKey Wraps
  constructor
  · intro h
    split at h
    · rename_i m hm
      rw [tryFromSlice_ok] at h
      rw [← h]
      exact hS.aes.only hm
    · cases h
  · intro h
    rw [hS.aes.opens h]
    exact tryFromSlice_toList p

/-- A stored key wraps one key, under one key and one associated data. -/
theorem Wraps.unique (hS : S.Ideal) {k p k' p' : SymmetricKey β} {a a' : List UInt8} {w : WrappedKey β}
    (h : Wraps S k p a w) (h' : Wraps S k' p' a' w) : k = k' ∧ a = a' ∧ p = p' := by
  obtain ⟨hk, -, ha, hp⟩ := hS.aes.inj h h'
  exact ⟨hk, ha, Arr.toList_inj.mp hp⟩

/-- Under any other key or associated data, unwrapping fails with `decryptFailed`. -/
theorem unwrapKey_other (hS : S.Ideal) {k p k' : SymmetricKey β} {a a' : List UInt8} {w : WrappedKey β}
    (h : Wraps S k p a w) (hne : k' ≠ k ∨ a' ≠ a) : unwrapKey S k' w a' = .error .decryptFailed := by
  unfold unwrapKey
  split
  · rename_i m hm
    obtain ⟨hk, -, ha, -⟩ := hS.aes.inj (hS.aes.only hm) h
    rcases hne with hne | hne
    · exact absurd hk hne
    · exact absurd ha hne
  · rfl

/-! ## Sealed payloads -/

def Seals (S : Suite β) (k : SymmetricKey β) (p : List β) (a : List UInt8) (b : SealedBlob β) : Prop :=
  S.xChaCha20.encrypt k b.nonce a p = some b.ciphertext

theorem sealBlob_ok {k : SymmetricKey β} {p : List β} {a : List UInt8} {b : SealedBlob β} {n n' : Nat} :
    sealBlob S k p a n = .ok (b, n') ↔ S.osBytes n 24 = some b.nonce ∧ Seals S k p a b ∧ n' = n + 1 := by
  simp only [sealBlob, Draws.bind_ok, randomBytes_ok, Seals]
  constructor
  · rintro ⟨nonce, m, ⟨hn, rfl⟩, h⟩
    cases hc : S.xChaCha20.encrypt k nonce a p with
    | none => rw [hc] at h; exact (Draws.throw_ok.mp h).elim
    | some c =>
      rw [hc] at h
      obtain ⟨rfl, rfl⟩ := Draws.pure_ok.mp h
      exact ⟨hn, hc, rfl⟩
  · rintro ⟨hn, hw, rfl⟩
    refine ⟨b.nonce, _, ⟨hn, rfl⟩, ?_⟩
    rw [hw]
    exact Draws.pure_ok.mpr ⟨rfl, rfl⟩

theorem openBlob_ok (hS : S.Ideal) {k : SymmetricKey β} {p : List β} {a : List UInt8} {b : SealedBlob β} :
    openBlob S k b a = .ok p ↔ Seals S k p a b := by
  unfold openBlob Seals
  constructor
  · intro h
    split at h
    · rename_i m hm
      cases h
      exact hS.xchacha.only hm
    · cases h
  · intro h
    rw [hS.xchacha.opens h]

theorem Seals.unique (hS : S.Ideal) {k k' : SymmetricKey β} {p p' : List β} {a a' : List UInt8} {b : SealedBlob β}
    (h : Seals S k p a b) (h' : Seals S k' p' a' b) : k = k' ∧ a = a' ∧ p = p' := by
  obtain ⟨hk, -, ha, hp⟩ := hS.xchacha.inj h h'
  exact ⟨hk, ha, hp⟩

theorem openBlob_other (hS : S.Ideal) {k k' : SymmetricKey β} {p : List β} {a a' : List UInt8} {b : SealedBlob β}
    (h : Seals S k p a b) (hne : k' ≠ k ∨ a' ≠ a) : openBlob S k' b a' = .error .decryptFailed := by
  unfold openBlob
  split
  · rename_i m hm
    obtain ⟨hk, -, ha, -⟩ := hS.xchacha.inj (hS.xchacha.only hm) h
    rcases hne with hne | hne
    · exact absurd hk hne
    · exact absurd ha hne
  · rfl

/-! ## Contexts -/

/-- Equal associated data are one constructor's, with equal arguments, and a ciphertext of
    one context authenticates in no other, under its own key or any. -/
theorem contexts_separate (hS : S.Ideal) (c c' : Context) :
    (c.bytes = c'.bytes ↔ c = c') ∧
      (c ≠ c' → (∀ k p w n n', wrapKey S k p c.bytes n = .ok (w, n') →
          ∀ k', unwrapKey S k' w c'.bytes = .error .decryptFailed) ∧
        ∀ k p b n n', sealBlob S k p c.bytes n = .ok (b, n') →
          ∀ k', openBlob S k' b c'.bytes = .error .decryptFailed) := by
  refine ⟨Context.bytes_inj, fun hne => ?_⟩
  have hb : c'.bytes ≠ c.bytes := fun h => hne (Context.bytes_inj.mp h).symm
  constructor
  · intro k p w n n' h k'
    obtain ⟨-, hw, -⟩ := wrapKey_ok.mp h
    exact unwrapKey_other hS hw (Or.inr hb)
  · intro k p b n n' h k'
    obtain ⟨-, hs, -⟩ := sealBlob_ok.mp h
    exact openBlob_other hS hs (Or.inr hb)

/-! ## A trace -/

def demoKey (pos : Nat) : SymmetricKey Term := .ofFn 32 (.key pos)

/-- One key wrapped under another, as an IKEK. -/
def demoWrapped : WrappedKey Term × Nat :=
  okVal (wrapKey demo.suite (demoKey 0) (demoKey 1) (aadForIkek (.replicate 16 1)) 2) (by decide +kernel)

/-- Unwrapped as a signing seed it fails. -/
theorem contexts_separate_ikek :
    unwrapKey demo.suite (demoKey 0) demoWrapped.1 (aadForIkek (.replicate 16 1)) = .ok (demoKey 1) ∧
      unwrapKey demo.suite (demoKey 0) demoWrapped.1 (aadForSigningSeed (.replicate 16 1)) = .error .decryptFailed := by
  have hw : wrapKey demo.suite (demoKey 0) (demoKey 1) (aadForIkek (.replicate 16 1)) 2 =
      .ok (demoWrapped.1, demoWrapped.2) := okVal_eq _
  refine ⟨by decide +kernel, ?_⟩
  exact ((contexts_separate demo.suite_ideal (.ikek (.replicate 16 1)) (.signingSeed (.replicate 16 1))).2
    (by decide)).1 _ _ _ _ _ hw _

end RootkeyCrypto
