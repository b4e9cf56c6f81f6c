/-
  RootkeyCrypto.Core.Export — `export.rs`: a backup sealed under a password.

  A bundle carries its own KDF parameters, drawn with it and bound to the ciphertext. It
  opens under the passwords that normalize like the one it was sealed with
  (`sealWithPassword_opens`), and under any other to nothing (`sealWithPassword_only`).
-/

import RootkeyCrypto.Core.Wrapping

namespace RootkeyCrypto

open Lib

structure EncryptedBundle (β : Type) where
  magic : String
  kdf : KdfParams
  blob : SealedBlob β

variable {β : Type} (S : Suite β)

def sealWithPassword (password : String) (plaintext : List β) : Draw (EncryptedBundle β) := do
  let kdf ← KdfParams.generateDefault S
  let muk ← deriveMuk S password kdf
  let blob ← sealBlob S muk plaintext (aadForExport kdf)
  pure { magic := exportMagic, kdf := kdf, blob := blob }

def openWithPassword (password : String) (bundle : EncryptedBundle β) : Except CryptoError (List β) := do
  if bundle.magic ≠ exportMagic then .error (.invalidArgument "bundle magic mismatch")
  else
    let muk ← deriveMuk S password bundle.kdf
    openBlob S muk bundle.blob (aadForExport bundle.kdf)

variable {S}

theorem sealWithPassword_ok {pw : String} {p : List β} {b : EncryptedBundle β} {n n' : Nat}
    (h : sealWithPassword S pw p n = .ok (b, n')) :
    b.magic = exportMagic ∧ n < n' ∧ ∃ muk, deriveMuk S pw b.kdf = .ok muk ∧
      Seals S muk p (aadForExport b.kdf) b.blob := by
  simp only [sealWithPassword, Draws.bind_ok, Draws.pure_ok, Draws.lift_ok, KdfParams.generateDefault_ok,
    sealBlob_ok] at h
  obtain ⟨kdf, _, ⟨-, rfl, -⟩, muk, _, ⟨hmuk, rfl⟩, blob, _, ⟨-, hb, rfl⟩, rfl, rfl⟩ := h
  exact ⟨rfl, by omega, muk, hmuk, hb⟩

theorem openWithPassword_ok (hS : S.Ideal) {pw : String} {b : EncryptedBundle β} {p : List β} :
    openWithPassword S pw b = .ok p ↔
      b.magic = exportMagic ∧ ∃ muk, deriveMuk S pw b.kdf = .ok muk ∧ Seals S muk p (aadForExport b.kdf) b.blob := by
  unfold openWithPassword
  split
  · rename_i hm
    exact ⟨fun h => (by cases h), fun h => absurd h.1 hm⟩
  · rename_i hm
    simp only [except_bind_ok, openBlob_ok hS]
    exact ⟨fun h => ⟨not_not.mp hm, h⟩, fun h => h.2⟩

/-- A bundle opens under every spelling of its password. -/
theorem sealWithPassword_opens (hS : S.Ideal) {pw pw' : String} {p : List β} {b : EncryptedBundle β} {n n' : Nat}
    (h : sealWithPassword S pw p n = .ok (b, n')) (hn : S.nfkd pw' = S.nfkd pw) : openWithPassword S pw' b = .ok p := by
  obtain ⟨hm, -, muk, hmuk, hb⟩ := sealWithPassword_ok h
  exact (openWithPassword_ok hS).mpr ⟨hm, muk, deriveMuk_congr hS hn hmuk, hb⟩

/-- And under no other password. -/
theorem sealWithPassword_only (hS : S.Ideal) {pw pw' : String} {p p' : List β} {b : EncryptedBundle β} {n n' : Nat}
    (h : sealWithPassword S pw p n = .ok (b, n')) (ho : openWithPassword S pw' b = .ok p') :
    S.nfkd pw' = S.nfkd pw ∧ p' = p := by
  obtain ⟨-, -, muk, hmuk, hb⟩ := sealWithPassword_ok h
  obtain ⟨-, muk', hmuk', hb'⟩ := (openWithPassword_ok hS).mp ho
  obtain ⟨hk, -, hp⟩ := hb'.unique hS hb
  rw [hk] at hmuk'
  exact ⟨(deriveMuk_inj hS hmuk' hmuk).2, hp⟩

end RootkeyCrypto
