/-
  RootkeyCrypto.Core.Takings — what each function takes from the RNG, in order.

  A `Taking` is one draw and what came of it: published bytes (ids, salts, nonces, the
  letters of a recovery key), a key, or the ephemeral key of a sealed box. Each function
  that draws has one lemma `f_takes`, which lists the draws behind its result: every id,
  salt, key and nonce of it that the call did not copy from its arguments.
-/

import RootkeyCrypto.Core.Export
import RootkeyCrypto.Core.Identity
import RootkeyCrypto.Core.Recovery
import RootkeyCrypto.Core.Share
import RootkeyCrypto.Core.SharedAccount
import RootkeyCrypto.Lib.Tape

namespace RootkeyCrypto

open Lib

/-- One draw. -/
inductive Taking (β : Type) where
  | bytes (n : Nat) (b : Arr UInt8 n)
  | key (k : SymmetricKey β)
  /-- One byte, for a letter of a recovery key. -/
  | letter (c : Char)
  /-- A sealed box, made with an ephemeral key of its own. -/
  | box (recipient : Arr β 32) (message box : List β)

variable {β : Type} {S : Suite β}

/-- The letter of one byte. -/
def letterOf (b : Arr UInt8 1) : Char := recoveryAlphabet.getD ((b.toList.headD 0) &&& 0x1F).toNat '0'

/-- The draw at a position gives this. -/
def Gives (S : Suite β) (p : Nat) : Taking β → Prop
  | .bytes n b => S.osBytes p n = some b
  | .key k => S.osKey p = some k
  | .letter c => ∃ b, S.osBytes p 1 = some b ∧ letterOf b = c
  | .box pk m c => S.boxSeal p pk m = some c

abbrev Takes (S : Suite β) (n n' : Nat) (l : List (Taking β)) : Prop := Taken (Gives S) n n' l

/-- The key of a draw. -/
def keyOf : Taking β → Option (SymmetricKey β)
  | .key k => some k
  | _ => none

/-- The nonce of a wrapped key. -/
def WrappedKey.taking (w : WrappedKey β) : Taking β := .bytes 12 w.nonce

/-- The nonce of a sealed payload. -/
def SealedBlob.taking (b : SealedBlob β) : Taking β := .bytes 24 b.nonce

def KdfParams.taking (p : KdfParams) : Taking β := .bytes 32 p.salt

/-! ## One vault -/

theorem wrapKey_takes {k p : SymmetricKey β} {a : List UInt8} {w : WrappedKey β} {n n' : Nat}
    (h : wrapKey S k p a n = .ok (w, n')) : Takes S n n' [w.taking] := by
  obtain ⟨hn, -, rfl⟩ := wrapKey_ok.mp h
  exact .cons (Nat.le_refl _) hn (.nil (Nat.le_refl _))

theorem sealBlob_takes {k : SymmetricKey β} {p : List β} {a : List UInt8} {b : SealedBlob β} {n n' : Nat}
    (h : sealBlob S k p a n = .ok (b, n')) : Takes S n n' [b.taking] := by
  obtain ⟨hn, -, rfl⟩ := sealBlob_ok.mp h
  exact .cons (Nat.le_refl _) hn (.nil (Nat.le_refl _))

theorem createVaultKeys_takes {pw : String} {r : VaultKeySet β} {n n' : Nat}
    (h : createVaultKeys S pw n = .ok (r, n')) :
    Takes S n n' [.bytes 16 r.encrypted.accountId, .bytes 16 r.encrypted.vaultId, r.encrypted.kdf.taking,
      .key r.unlocked.kek, .key r.unlocked.vmk, .key r.unlocked.ikek, r.encrypted.wrappedKek.taking,
      r.encrypted.wrappedVmk.taking, r.encrypted.wrappedIkek.taking] := by
  simp only [createVaultKeys, Draws.bind_ok, Draws.pure_ok, Draws.lift_ok, randomBytes_ok, randomKey_ok,
    KdfParams.generateDefault_ok, wrapKey_ok] at h
  obtain ⟨a, _, ⟨ha, rfl⟩, v, _, ⟨hv, rfl⟩, kdf, _, ⟨hs, rfl, -⟩, muk, _, ⟨-, rfl⟩, kek, _, ⟨hkek, rfl⟩, vmk, _,
    ⟨hvmk, rfl⟩, ikek, _, ⟨hikek, rfl⟩, wk, _, ⟨hwk, -, rfl⟩, wv, _, ⟨hwv, -, rfl⟩, wi, _, ⟨hwi, -, rfl⟩, rfl, rfl⟩ := h
  have hle := Nat.le_refl
  exact .cons (hle _) ha <| .cons (hle _) hv <| .cons (hle _) hs <| .cons (hle _) hkek <| .cons (hle _) hvmk <|
    .cons (hle _) hikek <| .cons (hle _) hwk <| .cons (hle _) hwv <| .cons (hle _) hwi <| .nil (hle _)

theorem changeMasterPassword_takes {old new : String} {ks next : EncryptedKeySet β} {n n' : Nat}
    (h : changeMasterPassword S old new ks n = .ok (next, n')) :
    Takes S n n' [next.kdf.taking, next.wrappedKek.taking] := by
  unfold changeMasterPassword at h
  split at h
  · exact (Draws.throw_ok.mp h).elim
  · simp only [Draws.bind_ok, Draws.pure_ok, Draws.lift_ok, KdfParams.generateDefault_ok, wrapKey_ok] at h
    obtain ⟨v, _, ⟨-, rfl⟩, kdf, _, ⟨hs, rfl, -⟩, muk, _, ⟨-, rfl⟩, wk, _, ⟨hwk, -, rfl⟩, rfl, rfl⟩ := h
    exact .cons (Nat.le_refl _) hs <| .cons (Nat.le_refl _) hwk <| .nil (Nat.le_refl _)

theorem wrapSigningSeed_takes {v : UnlockedVault β} {seed : Arr β 32} {w : WrappedKey β} {n n' : Nat}
    (h : wrapSigningSeed S v seed n = .ok (w, n')) : Takes S n n' [w.taking] := by
  simp only [wrapSigningSeed, Draws.bind_ok, Draws.lift_ok] at h
  obtain ⟨key, _, ⟨-, rfl⟩, hw⟩ := h
  exact wrapKey_takes hw

theorem rotateVaultKey_takes {v v' : UnlockedVault β} {ks ks' : EncryptedKeySet β} {seed seed' : Option (WrappedKey β)}
    {n n' : Nat} (h : rotateVaultKey S v ks seed n = .ok ((ks', v', seed'), n')) :
    Takes S n n' ([.key v'.vmk, ks'.wrappedVmk.taking, ks'.wrappedIkek.taking] ++ seed'.toList.map WrappedKey.taking) := by
  unfold rotateVaultKey at h
  split at h
  · exact (Draws.throw_ok.mp h).elim
  · cases seed with
    | none =>
      simp only [Draws.bind_ok, Draws.pure_ok, Draws.lift_ok, randomKey_ok, wrapKey_ok] at h
      obtain ⟨_, _, ⟨rfl, rfl⟩, vmk, _, ⟨hvmk, rfl⟩, wv, _, ⟨hwv, -, rfl⟩, wi, _, ⟨hwi, -, rfl⟩, kek, _, ⟨-, rfl⟩,
        ikek, _, ⟨-, rfl⟩, h⟩ := h
      simp only [Draws.bind_ok, Draws.pure_ok] at h
      obtain ⟨_, _, ⟨rfl, rfl⟩, h, rfl⟩ := h
      cases h
      exact .cons (Nat.le_refl _) hvmk <| .cons (Nat.le_refl _) hwv <| .cons (Nat.le_refl _) hwi <| .nil (Nat.le_refl _)
    | some w =>
      simp only [Draws.bind_ok, Draws.pure_ok, Draws.lift_ok, randomKey_ok, wrapKey_ok] at h
      obtain ⟨s, _, ⟨-, rfl⟩, _, _, ⟨rfl, rfl⟩, vmk, _, ⟨hvmk, rfl⟩, wv, _, ⟨hwv, -, rfl⟩, wi, _, ⟨hwi, -, rfl⟩, kek, _,
        ⟨-, rfl⟩, ikek, _, ⟨-, rfl⟩, h⟩ := h
      simp only [Draws.bind_ok, Draws.pure_ok] at h
      obtain ⟨w', _, hw', _, _, ⟨rfl, rfl⟩, h, rfl⟩ := h
      cases h
      exact .cons (Nat.le_refl _) hvmk <| .cons (Nat.le_refl _) hwv <| .cons (Nat.le_refl _) hwi <|
        wrapSigningSeed_takes hw'

theorem rotateIkek_takes {v v' : UnlockedVault β} {ks ks' : EncryptedKeySet β} {n n' : Nat}
    (h : rotateIkek S v ks n = .ok ((ks', v'), n')) : Takes S n n' [.key v'.ikek, ks'.wrappedIkek.taking] := by
  unfold rotateIkek at h
  split at h
  · exact (Draws.throw_ok.mp h).elim
  · simp only [Draws.bind_ok, Draws.pure_ok, Draws.lift_ok, randomKey_ok, wrapKey_ok] at h
    obtain ⟨ikek, _, ⟨hikek, rfl⟩, wi, _, ⟨hwi, -, rfl⟩, kek, _, ⟨-, rfl⟩, vmk, _, ⟨-, rfl⟩, h, rfl⟩ := h
    cases h
    exact .cons (Nat.le_refl _) hikek <| .cons (Nat.le_refl _) hwi <| .nil (Nat.le_refl _)

theorem enableBiometricUnlock_takes {v : UnlockedVault β} {r : BiometricUnlockSetup β} {n n' : Nat}
    (h : enableBiometricUnlock S v n = .ok (r, n')) :
    Takes S n n' [.key r.wrapperKey, r.envelope.wrappedKek.taking] := by
  simp only [enableBiometricUnlock, Draws.bind_ok, Draws.pure_ok, Draws.lift_ok, randomKey_ok, wrapKey_ok] at h
  obtain ⟨w, _, ⟨hw, rfl⟩, w', _, ⟨-, rfl⟩, wk, _, ⟨hwk, -, rfl⟩, rfl, rfl⟩ := h
  exact .cons (Nat.le_refl _) hw <| .cons (Nat.le_refl _) hwk <| .nil (Nat.le_refl _)

/-! ## Items -/

/-- The item's key is in no result; the draw of it is. -/
theorem encryptItem_takes {p : List β} {id : Id} {v : UnlockedVault β} {e : EncryptedItemBlob β} {k : SymmetricKey β}
    {n n' : Nat} (h : encryptItem S p id v n = .ok (e, n')) (hk : S.osKey n = some k) :
    Takes S n n' [.key k, e.wrappedItemKey.taking, e.blob.taking] := by
  simp only [encryptItem, Draws.bind_ok, Draws.pure_ok, randomKey_ok, wrapKey_ok, sealBlob_ok] at h
  obtain ⟨k', _, ⟨hk', rfl⟩, wk, _, ⟨hwk, -, rfl⟩, b, _, ⟨hb, -, rfl⟩, rfl, rfl⟩ := h
  exact .cons (Nat.le_refl _) hk <| .cons (Nat.le_refl _) hwk <| .cons (Nat.le_refl _) hb <| .nil (Nat.le_refl _)

theorem rewrapItemKey_takes {v v' : UnlockedVault β} {e e' : EncryptedItemBlob β} {id : Id} {n n' : Nat}
    (h : rewrapItemKey S v v' e id n = .ok (e', n')) : Takes S n n' [e'.wrappedItemKey.taking] := by
  simp only [rewrapItemKey, Draws.bind_ok, Draws.pure_ok, Draws.lift_ok] at h
  obtain ⟨_, _, ⟨-, rfl⟩, k, _, ⟨-, rfl⟩, w, _, hw, rfl, rfl⟩ := h
  exact wrapKey_takes hw

/-! ## One account -/

theorem createAccount_takes {pw : String} {r : AccountKeys β} {n n' : Nat} (h : createAccount S pw n = .ok (r, n')) :
    Takes S n n' [.bytes 16 r.encrypted.accountId, r.encrypted.kdf.taking, .key r.unlocked.ark,
      r.encrypted.wrappedArk.taking] := by
  unfold createAccount at h
  split at h
  · exact (Draws.throw_ok.mp h).elim
  · simp only [Draws.bind_ok, Draws.pure_ok, Draws.lift_ok, randomBytes_ok, randomKey_ok,
      KdfParams.generateDefault_ok, wrapKey_ok] at h
    obtain ⟨a, _, ⟨ha, rfl⟩, kdf, _, ⟨hs, rfl, -⟩, muk, _, ⟨-, rfl⟩, ark, _, ⟨hark, rfl⟩, wa, _, ⟨hwa, -, rfl⟩,
      rfl, rfl⟩ := h
    exact .cons (Nat.le_refl _) ha <| .cons (Nat.le_refl _) hs <| .cons (Nat.le_refl _) hark <|
      .cons (Nat.le_refl _) hwa <| .nil (Nat.le_refl _)

theorem changeAccountPassword_takes {old new : String} {ks next : AccountKeySet β} {n n' : Nat}
    (h : changeAccountPassword S old new ks n = .ok (next, n')) :
    Takes S n n' [next.kdf.taking, next.wrappedArk.taking] := by
  unfold changeAccountPassword at h
  split at h
  · exact (Draws.throw_ok.mp h).elim
  · simp only [Draws.bind_ok, Draws.pure_ok, Draws.lift_ok, KdfParams.generateDefault_ok, wrapKey_ok] at h
    obtain ⟨a, _, ⟨-, rfl⟩, kdf, _, ⟨hs, rfl, -⟩, muk, _, ⟨-, rfl⟩, wa, _, ⟨hwa, -, rfl⟩, rfl, rfl⟩ := h
    exact .cons (Nat.le_refl _) hs <| .cons (Nat.le_refl _) hwa <| .nil (Nat.le_refl _)

theorem resetPasswordWithRecoveryKey_takes {rk new : String} {ks next : AccountKeySet β} {n n' : Nat}
    (h : resetPasswordWithRecoveryKey S rk new ks n = .ok (next, n')) :
    Takes S n n' [next.kdf.taking, next.wrappedArk.taking] := by
  unfold resetPasswordWithRecoveryKey at h
  split at h
  · exact (Draws.throw_ok.mp h).elim
  · simp only [Draws.bind_ok, Draws.pure_ok, Draws.lift_ok, KdfParams.generateDefault_ok, wrapKey_ok] at h
    obtain ⟨a, _, ⟨-, rfl⟩, kdf, _, ⟨hs, rfl, -⟩, muk, _, ⟨-, rfl⟩, wa, _, ⟨hwa, -, rfl⟩, rfl, rfl⟩ := h
    exact .cons (Nat.le_refl _) hs <| .cons (Nat.le_refl _) hwa <| .nil (Nat.le_refl _)

theorem recoveryLetters_takes {is : List Nat} {cs : List Char} {n n' : Nat}
    (h : Draws.each (fun _ => recoveryLetter S) is n = .ok (cs, n')) :
    cs.length = is.length ∧ (∀ c ∈ cs, c ∈ recoveryAlphabet) ∧ Takes S n n' (cs.map .letter) := by
  induction is generalizing n cs with
  | nil =>
    obtain ⟨rfl, rfl⟩ := Draws.pure_ok.mp h
    exact ⟨rfl, by simp, .nil (Nat.le_refl _)⟩
  | cons i is ih =>
    obtain ⟨c, _, hc, h⟩ := Draws.bind_ok.mp h
    obtain ⟨cs', _, hcs, h⟩ := Draws.bind_ok.mp h
    obtain ⟨rfl, rfl⟩ := Draws.pure_ok.mp h
    obtain ⟨hmem, -⟩ := recoveryLetter_ok hc
    obtain ⟨hlen, hall, ht⟩ := ih hcs
    simp only [recoveryLetter, Draws.bind_ok, Draws.pure_ok, randomBytes_ok] at hc
    obtain ⟨b, _, ⟨hb, rfl⟩, rfl, rfl⟩ := hc
    exact ⟨by rw [List.length_cons, List.length_cons, hlen], List.forall_mem_cons.mpr ⟨hmem, hall⟩,
      .cons (Nat.le_refl _) ⟨b, hb, rfl⟩ ht⟩

/-- The letters of the key are drawn one by one. -/
theorem setupRecoveryKey_takes {a : UnlockedAccount β} {shown raw : String} {w : WrappedKey β} {n n' : Nat}
    (h : setupRecoveryKey S a n = .ok ((shown, w), n')) (hraw : normalizeRecoveryKey shown = .ok raw) :
    raw.toList.length = recoveryGroups * recoveryGroupLen ∧ Takes S n n' (raw.toList.map .letter ++ [w.taking]) := by
  unfold setupRecoveryKey at h
  obtain ⟨letters, m, hl, h⟩ := Draws.bind_ok.mp h
  obtain ⟨w', _, hw, h⟩ := Draws.bind_ok.mp h
  obtain ⟨h, rfl⟩ := Draws.pure_ok.mp h
  cases h
  obtain ⟨hlen, hmem, ht⟩ := recoveryLetters_takes hl
  rw [List.length_range] at hlen
  cases hraw.symm.trans (normalize_format hmem hlen)
  rw [String.toList_ofList]
  exact ⟨hlen, ht.append (wrapKey_takes hw)⟩

theorem enableAccountBiometric_takes {a : UnlockedAccount β} {r : AccountBiometricSetup β} {n n' : Nat}
    (h : enableAccountBiometric S a n = .ok (r, n')) :
    Takes S n n' [.key r.wrapperKey, r.envelope.wrappedArk.taking] := by
  simp only [enableAccountBiometric, Draws.bind_ok, Draws.pure_ok, Draws.lift_ok, randomKey_ok, wrapKey_ok] at h
  obtain ⟨w, _, ⟨hw, rfl⟩, w', _, ⟨-, rfl⟩, wk, _, ⟨hwk, -, rfl⟩, rfl, rfl⟩ := h
  exact .cons (Nat.le_refl _) hw <| .cons (Nat.le_refl _) hwk <| .nil (Nat.le_refl _)

theorem rotateAccountRootKey_takes {pw : String} {ks next : AccountKeySet β} {a : UnlockedAccount β} {n n' : Nat}
    (h : rotateAccountRootKey S pw ks n = .ok ((next, a), n')) :
    Takes S n n' (.key a.ark :: (next.vaults.flatMap (fun e => [e.wrappedKek.taking]) ++
      [next.kdf.taking, next.wrappedArk.taking])) := by
  simp only [rotateAccountRootKey, Draws.bind_ok, Draws.pure_ok, Draws.lift_ok, randomKey_ok,
    KdfParams.generateDefault_ok, wrapKey_ok] at h
  obtain ⟨_, _, ⟨-, rfl⟩, ark, _, ⟨hark, rfl⟩, es, m, hes, kdf, _, ⟨hs, rfl, -⟩, muk, _, ⟨-, rfl⟩, wa, _,
    ⟨hwa, -, rfl⟩, h, rfl⟩ := h
  cases h
  refine .cons (Nat.le_refl _) hark (.append (each_taken (fun e n e' n' he => ?_) hes) ?_)
  · simp only [rewrapEntry, Draws.bind_ok, Draws.pure_ok, Draws.lift_ok] at he
    obtain ⟨kek, _, ⟨-, rfl⟩, w, _, hw, rfl, rfl⟩ := he
    exact wrapKey_takes hw
  · exact .cons (Nat.le_refl _) hs <| .cons (Nat.le_refl _) hwa <| .nil (Nat.le_refl _)

/-- What one vault of a re-key takes. -/
def RekeyedVault.takings (r : RekeyedVault β) : List (Taking β) :=
  [.key r.new.kek, .key r.new.vmk, .key r.new.ikek, r.entry.wrappedKek.taking, r.slot.wrappedVmk.taking,
   r.slot.wrappedIkek.taking]

theorem rekeyVault_takes {ks : AccountKeySet β} {old new : UnlockedAccount β} {s : VaultKeySlot β} {r : RekeyedVault β}
    {n n' : Nat} (h : rekeyVault S ks old new s n = .ok (r, n')) : Takes S n n' r.takings := by
  unfold rekeyVault at h
  cases he : ks.vaults.find? (fun e => e.vaultId = s.vaultId) with
  | none => rw [he] at h; exact (Draws.throw_ok.mp h).elim
  | some e =>
    rw [he] at h
    simp only [Draws.bind_ok, Draws.pure_ok, Draws.lift_ok, randomKey_ok, wrapKey_ok] at h
    obtain ⟨v, _, ⟨-, rfl⟩, kek, _, ⟨hkek, rfl⟩, vmk, _, ⟨hvmk, rfl⟩, ikek, _, ⟨hikek, rfl⟩, wk, _, ⟨hwk, -, rfl⟩,
      wv, _, ⟨hwv, -, rfl⟩, wi, _, ⟨hwi, -, rfl⟩, rfl, rfl⟩ := h
    have hle := Nat.le_refl
    exact .cons (hle _) hkek <| .cons (hle _) hvmk <| .cons (hle _) hikek <| .cons (hle _) hwk <|
      .cons (hle _) hwv <| .cons (hle _) hwi <| .nil (hle _)

theorem rekeyAccount_takes {old new : String} {ks : AccountKeySet β} {slots : List (VaultKeySlot β)}
    {r : RekeyedAccount β} {n n' : Nat} (h : rekeyAccount S old new ks slots n = .ok (r, n')) :
    Takes S n n' ([.key r.unlocked.ark, r.encrypted.kdf.taking, r.encrypted.wrappedArk.taking] ++
      r.vaults.flatMap RekeyedVault.takings) := by
  unfold rekeyAccount at h
  split at h
  · exact (Draws.throw_ok.mp h).elim
  · simp only [Draws.bind_ok, Draws.lift_ok] at h
    obtain ⟨a, _, ⟨-, rfl⟩, h⟩ := h
    split at h
    · exact (Draws.throw_ok.mp h).elim
    · simp only [Draws.bind_ok, Draws.pure_ok, Draws.lift_ok, randomKey_ok, KdfParams.generateDefault_ok,
        wrapKey_ok] at h
      obtain ⟨ark, _, ⟨hark, rfl⟩, kdf, _, ⟨hs, rfl, -⟩, muk, _, ⟨-, rfl⟩, wa, _, ⟨hwa, -, rfl⟩, rs, m, hrs, h, rfl⟩ := h
      subst h
      exact .cons (Nat.le_refl _) hark <| .cons (Nat.le_refl _) hs <| .cons (Nat.le_refl _) hwa <|
        each_taken (fun s n x n' hx => rekeyVault_takes hx) hrs

/-! ## Vaults of an account -/

/-- The nonces of a vault under an account. -/
def VaultUnderAccount.nonces (r : VaultUnderAccount β) : List (Taking β) :=
  [r.entry.wrappedKek.taking, r.slot.wrappedVmk.taking, r.slot.wrappedIkek.taking]

theorem createVaultUnderAccount_takes {a : UnlockedAccount β} {r : VaultUnderAccount β} {n n' : Nat}
    (h : createVaultUnderAccount S a n = .ok (r, n')) :
    Takes S n n' (.bytes 16 r.entry.vaultId :: .key r.unlocked.kek :: .key r.unlocked.vmk :: .key r.unlocked.ikek ::
      r.nonces) := by
  simp only [createVaultUnderAccount, Draws.bind_ok, Draws.pure_ok, randomBytes_ok, randomKey_ok, wrapKey_ok] at h
  obtain ⟨v, _, ⟨hv, rfl⟩, kek, _, ⟨hkek, rfl⟩, vmk, _, ⟨hvmk, rfl⟩, ikek, _, ⟨hikek, rfl⟩, wk, _, ⟨hwk, -, rfl⟩, wv, _,
    ⟨hwv, -, rfl⟩, wi, _, ⟨hwi, -, rfl⟩, rfl, rfl⟩ := h
  have hle := Nat.le_refl
  exact .cons (hle _) hv <| .cons (hle _) hkek <| .cons (hle _) hvmk <| .cons (hle _) hikek <| .cons (hle _) hwk <|
    .cons (hle _) hwv <| .cons (hle _) hwi <| .nil (hle _)

/-- `attach_shared_vault_under_account` and `reattach_vault_under_account` are this. -/
theorem wrapUnderAccount_takes {a : UnlockedAccount β} {id : Id} {vmk : VaultMasterKey β} {ikek : ItemKekKey β}
    {r : VaultUnderAccount β} {n n' : Nat} (h : wrapUnderAccount S a id vmk ikek n = .ok (r, n')) :
    Takes S n n' (.key r.unlocked.kek :: r.nonces) := by
  simp only [wrapUnderAccount, Draws.bind_ok, Draws.pure_ok, randomKey_ok, wrapKey_ok] at h
  obtain ⟨kek, _, ⟨hkek, rfl⟩, wk, _, ⟨hwk, -, rfl⟩, wv, _, ⟨hwv, -, rfl⟩, wi, _, ⟨hwi, -, rfl⟩, rfl, rfl⟩ := h
  exact .cons (Nat.le_refl _) hkek <| .cons (Nat.le_refl _) hwk <| .cons (Nat.le_refl _) hwv <|
    .cons (Nat.le_refl _) hwi <| .nil (Nat.le_refl _)

theorem rotateSharedVaultKeys_takes {v v' : UnlockedVault β} {k : Arr β 32} {s : VaultKeySlot β} {n n' : Nat}
    (h : rotateSharedVaultKeys S v k n = .ok ((s, v'), n')) :
    Takes S n n' [s.wrappedVmk.taking, s.wrappedIkek.taking] := by
  simp only [rotateSharedVaultKeys, Draws.bind_ok, Draws.pure_ok, wrapKey_ok] at h
  obtain ⟨wv, _, ⟨hwv, -, rfl⟩, wi, _, ⟨hwi, -, rfl⟩, h, rfl⟩ := h
  cases h
  exact .cons (Nat.le_refl _) hwv <| .cons (Nat.le_refl _) hwi <| .nil (Nat.le_refl _)

/-! ## Identities, shared keys and items -/

theorem keyPairGenerate_takes {r : SharedIdentityKeyPair β} {n n' : Nat}
    (h : SharedIdentityKeyPair.generate S n = .ok (r, n')) : Takes S n n' [.key r.secret] := by
  obtain ⟨hk, -, rfl⟩ := generate_ok h
  exact .cons (Nat.le_refl _) hk (.nil (Nat.le_refl _))

theorem identityGenerate_takes {r : Identity S} {n n' : Nat} (h : Identity.generate S n = .ok (r, n')) :
    Takes S n n' [.key r.x25519.secret, .key r.ed25519.seed] := by
  simp only [Identity.generate, Draws.bind_ok, Draws.pure_ok, randomKey_ok] at h
  obtain ⟨x, _, ⟨hx, rfl⟩, e, _, ⟨he, rfl⟩, rfl, rfl⟩ := h
  exact .cons (Nat.le_refl _) hx <| .cons (Nat.le_refl _) he <| .nil (Nat.le_refl _)

theorem wrapWithVault_takes {identity : Identity S} {v : UnlockedVault β} {x : WrappedIdentity β} {n n' : Nat}
    (h : wrapWithVault identity v n = .ok (x, n')) : Takes S n n' [x.envelope.taking] := by
  simp only [wrapWithVault, Draws.bind_ok, Draws.pure_ok] at h
  obtain ⟨b, _, hb, rfl, rfl⟩ := h
  exact sealBlob_takes hb

theorem encryptSharedItem_takes {p : List β} {k : Arr β 32} {v : Id} {e : EncryptedSharedItem β} {n n' : Nat}
    (h : encryptSharedItem S p k v n = .ok (e, n')) : Takes S n n' [e.blob.taking] := by
  simp only [encryptSharedItem, Draws.bind_ok, Draws.pure_ok] at h
  obtain ⟨b, _, hb, rfl, rfl⟩ := h
  exact sealBlob_takes hb

/-- A wrap is the version byte and a box with an ephemeral key of its own. -/
def SealedSharedKey.taking (key pk : Arr β 32) (w : SealedSharedKey β) : Taking β := .box pk key.toList w.bytes.tail

theorem wrapForRecipient_takes {key pk : Arr β 32} {w : SealedSharedKey β} {n n' : Nat}
    (h : wrapForRecipient S key pk n = .ok (w, n')) : Takes S n n' [w.taking key pk] := by
  obtain ⟨⟨body, hbox, hw⟩, rfl⟩ := wrapForRecipient_ok.mp h
  have hgives : Gives S n (w.taking key pk) := by
    rw [SealedSharedKey.taking, hw]
    exact hbox
  exact .cons (Nat.le_refl _) hgives (.nil (Nat.le_refl _))

theorem sealBytesFor_takes {pk : Arr β 32} {m c : List β} {n n' : Nat} (h : sealBytesFor S pk m n = .ok (c, n')) :
    Takes S n n' [.box pk m c.tail] := by
  obtain ⟨⟨body, hbox, rfl⟩, rfl⟩ := sealBytesFor_ok.mp h
  exact .cons (Nat.le_refl _) hbox (.nil (Nat.le_refl _))

theorem createSharedVault_takes {pks : List (Arr β 32)} {key : SymmetricKey β} {wraps : List (SealedSharedKey β)}
    {n n' : Nat} (h : createSharedVault S pks n = .ok ((key, wraps), n')) :
    Takes S n n' (.key key :: List.zipWith (SealedSharedKey.taking key) pks wraps) := by
  simp only [createSharedVault, Draws.bind_ok, Draws.pure_ok, randomKey_ok] at h
  obtain ⟨k, _, ⟨hk, rfl⟩, ws, m, hws, h, rfl⟩ := h
  cases h
  exact .cons (Nat.le_refl _) hk
    (each_taken_with (g := SealedSharedKey.taking key) (fun _ _ _ _ hw => wrapForRecipient_takes hw) hws)

/-! ## Shares and backups -/

theorem sealShare_takes {p : List β} {e : UInt64} {key : ShareKey β} {blob : ShareBlob β} {n n' : Nat}
    (h : sealShare S p e n = .ok ((key, blob), n')) : Takes S n n' [.key key.bytes, .bytes 24 blob.nonce] := by
  obtain ⟨-, hk, hn, -, -, rfl⟩ := sealShare_ok.mp h
  exact .cons (Nat.le_refl _) hk <| .cons (Nat.le_refl _) hn <| .nil (Nat.le_refl _)

theorem sealWithPassword_takes {pw : String} {p : List β} {b : EncryptedBundle β} {n n' : Nat}
    (h : sealWithPassword S pw p n = .ok (b, n')) : Takes S n n' [b.kdf.taking, b.blob.taking] := by
  simp only [sealWithPassword, Draws.bind_ok, Draws.pure_ok, Draws.lift_ok, KdfParams.generateDefault_ok] at h
  obtain ⟨kdf, _, ⟨hs, rfl, -⟩, muk, _, ⟨-, rfl⟩, blob, _, hb, rfl, rfl⟩ := h
  exact .cons (Nat.le_refl _) hs (sealBlob_takes hb)

end RootkeyCrypto
