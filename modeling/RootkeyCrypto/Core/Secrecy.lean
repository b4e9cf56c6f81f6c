/-
  RootkeyCrypto.Core.Secrecy — which of the crate's ciphertexts and keys may be published,
  over the symbolic suite.

  One lemma for each thing the crate makes: a wrapped key, a sealed payload, a shared key's
  wrap, a key drawn, a key derived from a password or a shared key. The modules above state
  who knows what and use these; none looks inside a term.
-/

import RootkeyCrypto.Core.Recovery
import RootkeyCrypto.Core.SharedAccount
import RootkeyCrypto.Lib.Symbolic

namespace RootkeyCrypto

open Lib

variable {o : Oracle} {σ : Secrets}

/-- The key may be published. -/
def SafeKey (σ : Secrets) (k : SymmetricKey Term) : Prop := AllSafe σ k.toList

theorem wraps_safe {k p : SymmetricKey Term} {a : List UInt8} {w : WrappedKey Term} (h : Wraps o.suite k p a w) :
    AllSafe σ w.ciphertext ↔ (SafeKey σ k → SafeKey σ p) :=
  allSafe_sealed h

theorem seals_safe {k : SymmetricKey Term} {p : List Term} {a : List UInt8} {b : SealedBlob Term}
    (h : Seals o.suite k p a b) : AllSafe σ b.ciphertext ↔ (SafeKey σ k → AllSafe σ p) :=
  allSafe_sealed h

theorem osKey_safe {i : Nat} {k : SymmetricKey Term} (h : o.suite.osKey i = some k) : SafeKey σ k ↔ ¬ σ.key i :=
  allSafe_key h

/-- A key drawn on a secret stretch of the tape is secret. -/
theorem drawn_secret {n n' : Nat} {k : SymmetricKey Term} (h : Drawn o.suite n n' k)
    (hσ : ∀ i, n ≤ i → i < n' → σ.key i) : ¬ SafeKey σ k := by
  obtain ⟨i, hi, hi', hk⟩ := h
  rw [osKey_safe hk, not_not]
  exact hσ i hi hi'

theorem deriveMuk_safe {pw : String} {p : KdfParams} {k : MasterUnlockKey Term} (h : deriveMuk o.suite pw p = .ok k) :
    SafeKey σ k ↔ σ.guess (asBytes (o.nfkd pw)) :=
  allSafe_argon (deriveMuk_ok.mp h).2.2

/-- The key of a recovery key is secret when that is kept, and a secret. -/
theorem recoveryKekFrom_safe {raw : String} {id : Id} :
    SafeKey σ (recoveryKekFrom o.suite raw id) ↔ (o.kept (asBytes raw) = true → ¬ σ.word (asBytes raw)) := by
  refine (allSafe_blake o _ _).trans ?_
  rw [allSafe_append, allSafe_typed]
  exact and_iff_left (allSafe_lits o _)

/-- The keys of a shared vault are as secret as the shared key. -/
theorem deriveSharedVaultKeys_safe (o : Oracle) (k : Arr Term 32) (id : Id) :
    (SafeKey σ (deriveSharedVaultKeys o.suite k id).1 ↔ SafeKey σ k) ∧
      (SafeKey σ (deriveSharedVaultKeys o.suite k id).2 ↔ SafeKey σ k) := by
  have hm : AllSafe σ (sharedMaterial o.suite k id) ↔ SafeKey σ k := by
    rw [sharedMaterial, allSafe_append]
    exact and_iff_left (allSafe_lits o _)
  exact ⟨(allSafe_blake o _ _).trans hm, (allSafe_blake o _ _).trans hm⟩

/-- A wrap for the owner of `sk` may be published when the shared key may, or `sk` may not. -/
theorem wrapsFor_safe {n : Nat} {key sk : Arr Term 32} {w : SealedSharedKey Term}
    (h : WrapsFor o.suite n key (o.suite.x25519 sk) w) : AllSafe σ w.bytes ↔ (SafeKey σ sk → SafeKey σ key) := by
  obtain ⟨body, hb, hw⟩ := h
  rw [hw, AllSafe, List.forall_mem_cons]
  exact (and_iff_right trivial).trans (allSafe_box hb)

end RootkeyCrypto
