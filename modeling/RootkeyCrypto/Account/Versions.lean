/-
  RootkeyCrypto.Account.Versions — what each call does with a keyset of a format this
  client does not read.

  `Op` lists the thirteen public calls that take a keyset, with all their arguments. Eight
  compare the keyset's version with the readable range, themselves or through the unlock
  they begin with. Five do not: `unlock_via_biometric` and `unlock_account_via_biometric`
  compare the envelope's version only, `rotate_vault_key` and `rotate_ikek` only the ids
  (and copy the version through), `unlock_account_with_ark` nothing.

  `unreadable_fails_iff`: on a keyset out of the range a call fails exactly when it is one of the
  eight or refuses its other arguments (`Accepts`). `rotate_ikek_reemits_newer`: a rotation
  of a newer keyset succeeds and writes it again, still marked with the newer version.
-/

import RootkeyCrypto.Core.Recovery
import RootkeyCrypto.Lib.Symbolic

namespace RootkeyCrypto.Versions

open Lib

variable {β : Type} (S : Suite β)

/-- A public call on a keyset. -/
inductive Op (β : Type) where
  | unlockVault (pw : String) (ks : EncryptedKeySet β)
  | unlockViaBiometric (w : Arr β 32) (e : BiometricEnvelope β) (ks : EncryptedKeySet β)
  | changeMasterPassword (old new : String) (ks : EncryptedKeySet β)
  | rotateVaultKey (v : UnlockedVault β) (ks : EncryptedKeySet β) (seed : Option (WrappedKey β))
  | rotateIkek (v : UnlockedVault β) (ks : EncryptedKeySet β)
  | unlockAccount (pw : String) (ks : AccountKeySet β)
  | unlockAccountWithRecoveryKey (rk : String) (ks : AccountKeySet β)
  | unlockAccountViaBiometric (w : Arr β 32) (e : AccountBiometricEnvelope β) (ks : AccountKeySet β)
  | unlockAccountWithArk (ark : Arr β 32) (ks : AccountKeySet β)
  | changeAccountPassword (old new : String) (ks : AccountKeySet β)
  | resetPasswordWithRecoveryKey (rk new : String) (ks : AccountKeySet β)
  | rotateAccountRootKey (pw : String) (ks : AccountKeySet β)
  | rekeyAccount (old new : String) (ks : AccountKeySet β) (slots : List (VaultKeySlot β))

namespace Op

/-- The call; its result is dropped. -/
def run : Op β → Draw Unit
  | unlockVault pw ks => do let _ ← RootkeyCrypto.unlockVault S pw ks
  | unlockViaBiometric w e ks => do let _ ← RootkeyCrypto.unlockViaBiometric S w e ks
  | changeMasterPassword old new ks => do let _ ← RootkeyCrypto.changeMasterPassword S old new ks
  | rotateVaultKey v ks seed => do let _ ← RootkeyCrypto.rotateVaultKey S v ks seed
  | rotateIkek v ks => do let _ ← RootkeyCrypto.rotateIkek S v ks
  | unlockAccount pw ks => do let _ ← RootkeyCrypto.unlockAccount S pw ks
  | unlockAccountWithRecoveryKey rk ks => do let _ ← RootkeyCrypto.unlockAccountWithRecoveryKey S rk ks
  | unlockAccountViaBiometric w e ks => do let _ ← RootkeyCrypto.unlockAccountViaBiometric S w e ks
  | unlockAccountWithArk ark ks => do let _ ← RootkeyCrypto.unlockAccountWithArk S ark ks
  | changeAccountPassword old new ks => do let _ ← RootkeyCrypto.changeAccountPassword S old new ks
  | resetPasswordWithRecoveryKey rk new ks => do let _ ← RootkeyCrypto.resetPasswordWithRecoveryKey S rk new ks
  | rotateAccountRootKey pw ks => do let _ ← RootkeyCrypto.rotateAccountRootKey S pw ks
  | rekeyAccount old new ks slots => do let _ ← RootkeyCrypto.rekeyAccount S old new ks slots

/-- The version of its keyset lies in the range the client reads. -/
def Readable : Op β → Prop
  | unlockVault _ ks | unlockViaBiometric _ _ ks | changeMasterPassword _ _ ks | rotateVaultKey _ ks _
  | rotateIkek _ ks => checkVersion keysetFormatVersion keysetMinReadableVersion ks.version = .ok ()
  | unlockAccount _ ks | unlockAccountWithRecoveryKey _ ks | unlockAccountViaBiometric _ _ ks
  | unlockAccountWithArk _ ks | changeAccountPassword _ _ ks | resetPasswordWithRecoveryKey _ _ ks
  | rotateAccountRootKey _ ks | rekeyAccount _ _ ks _ =>
    checkVersion accountFormatVersion accountMinReadableVersion ks.version = .ok ()

/-- The keyset's version is compared. -/
def gated : Op β → Bool
  | unlockViaBiometric .. | rotateVaultKey .. | rotateIkek .. | unlockAccountViaBiometric ..
  | unlockAccountWithArk .. => false
  | _ => true

def Fails (op : Op β) (n : Nat) : Prop := ∃ e, op.run S n = .error e

end Op

/-! ## What the five calls look at -/

/-- The RNG gives a nonce at this position and the cipher takes key and plaintext. -/
def CanWrap (n : Nat) (k p : SymmetricKey β) (a : List UInt8) : Prop :=
  ∃ nonce, S.osBytes n 12 = some nonce ∧ (S.aesGcmSiv.encrypt k nonce a p.toList).isSome

/-- KEK → VMK → IKEK opens. -/
def ChainOpens (accountId vaultId : Id) (kek : KeyEncryptionKey β) (wv wi : WrappedKey β) : Prop :=
  ∃ vmk ikek, unwrapKey S kek wv (aadForVmk accountId vaultId) = .ok vmk ∧
    unwrapKey S vmk wi (aadForIkek vaultId) = .ok ikek

/-- The arguments of an ungated call, the keyset's version apart, are what it accepts. -/
def Accepts (n : Nat) : Op β → Prop
  | .unlockViaBiometric w e ks =>
    checkVersion keysetFormatVersion keysetMinReadableVersion e.version = .ok () ∧ e.vaultId = ks.vaultId ∧
      ∃ kek, unwrapKey S w e.wrappedKek (aadForBiometric ks.vaultId) = .ok kek ∧
        ChainOpens S ks.accountId ks.vaultId kek ks.wrappedVmk ks.wrappedIkek
  | .rotateVaultKey v ks seed =>
    ks.accountId = v.accountId ∧ ks.vaultId = v.vaultId ∧ ∃ vmk, S.osKey n = some vmk ∧
      CanWrap S (n + 1) v.kek vmk (aadForVmk ks.accountId ks.vaultId) ∧
      CanWrap S (n + 2) vmk v.ikek (aadForIkek ks.vaultId) ∧
      ∀ w ∈ seed, ∃ s, unwrapSigningSeed S v w = .ok s ∧ CanWrap S (n + 3) vmk s (aadForSigningSeed v.vaultId)
  | .rotateIkek v ks =>
    ks.accountId = v.accountId ∧ ks.vaultId = v.vaultId ∧ ∃ ikek, S.osKey n = some ikek ∧
      CanWrap S (n + 1) v.vmk ikek (aadForIkek ks.vaultId)
  | .unlockAccountViaBiometric w e ks =>
    checkVersion accountFormatVersion accountMinReadableVersion e.version = .ok () ∧ e.accountId = ks.accountId ∧
      ∃ ark, unwrapKey S w e.wrappedArk (aadForAccountBiometric ks.accountId) = .ok ark
  | .unlockAccountWithArk ark ks =>
    ∃ e kek, ks.vaults.head? = some e ∧ unwrapKey S ark e.wrappedKek (aadForVaultKek ks.accountId e.vaultId) = .ok kek
  | _ => False

variable {S}

theorem canWrap_iff {n : Nat} {k p : SymmetricKey β} {a : List UInt8} :
    (∃ w n', wrapKey S k p a n = .ok (w, n')) ↔ CanWrap S n k p a := by
  simp only [wrapKey_ok, CanWrap, Option.isSome_iff_exists]
  constructor
  · rintro ⟨w, _, hn, hw, rfl⟩
    exact ⟨w.nonce, hn, _, hw⟩
  · rintro ⟨nonce, hn, c, hc⟩
    exact ⟨⟨nonce, c⟩, _, hn, hc, rfl⟩

theorem fails_iff_not_ok {op : Op β} {n : Nat} : op.Fails S n ↔ ¬ ∃ n', op.run S n = .ok ((), n') := by
  unfold Op.Fails
  rcases op.run S n with e | ⟨⟨⟩, n'⟩ <;> simp

/-! ## The gate, call by call -/

theorem unlockVault_readable {pw : String} {ks : EncryptedKeySet β} {v : UnlockedVault β}
    (h : unlockVault S pw ks = .ok v) : checkVersion keysetFormatVersion keysetMinReadableVersion ks.version = .ok () := by
  simp only [unlockVault, except_bind_ok] at h
  obtain ⟨⟨⟩, hver, -⟩ := h
  exact hver

theorem unlockAccount_readable {pw : String} {ks : AccountKeySet β} {a : UnlockedAccount β}
    (h : unlockAccount S pw ks = .ok a) :
    checkVersion accountFormatVersion accountMinReadableVersion ks.version = .ok () := by
  simp only [unlockAccount, except_bind_ok] at h
  obtain ⟨⟨⟩, hver, -⟩ := h
  exact hver

theorem unlockAccountWithRecoveryKey_readable {rk : String} {ks : AccountKeySet β} {a : UnlockedAccount β}
    (h : unlockAccountWithRecoveryKey S rk ks = .ok a) :
    checkVersion accountFormatVersion accountMinReadableVersion ks.version = .ok () := by
  simp only [unlockAccountWithRecoveryKey, except_bind_ok] at h
  obtain ⟨⟨⟩, hver, -⟩ := h
  exact hver

/-- A gated call succeeds on readable keysets only. -/
theorem gated_readable {op : Op β} (hg : op.gated = true) {n n' : Nat} (h : op.run S n = .ok ((), n')) :
    op.Readable := by
  cases op with
  | unlockVault pw ks =>
    simp only [Op.run, Draws.bind_ok, Draws.lift_ok] at h
    obtain ⟨v, _, ⟨hv, -⟩, -⟩ := h
    exact unlockVault_readable hv
  | changeMasterPassword old new ks =>
    simp only [Op.run, Draws.bind_ok] at h
    obtain ⟨ks', _, h, -⟩ := h
    obtain ⟨v, _, hv, -⟩ := changeMasterPassword_ok h
    exact unlockVault_readable hv
  | unlockAccount pw ks =>
    simp only [Op.run, Draws.bind_ok, Draws.lift_ok] at h
    obtain ⟨a, _, ⟨ha, -⟩, -⟩ := h
    exact unlockAccount_readable ha
  | unlockAccountWithRecoveryKey rk ks =>
    simp only [Op.run, Draws.bind_ok, Draws.lift_ok] at h
    obtain ⟨a, _, ⟨ha, -⟩, -⟩ := h
    exact unlockAccountWithRecoveryKey_readable ha
  | changeAccountPassword old new ks =>
    simp only [Op.run, Draws.bind_ok] at h
    obtain ⟨ks', _, h, -⟩ := h
    obtain ⟨a, _, ha, -⟩ := changeAccountPassword_ok h
    exact unlockAccount_readable ha
  | resetPasswordWithRecoveryKey rk new ks =>
    simp only [Op.run, Draws.bind_ok] at h
    obtain ⟨ks', _, h, -⟩ := h
    obtain ⟨a, _, ha, -⟩ := resetPasswordWithRecoveryKey_ok h
    exact unlockAccountWithRecoveryKey_readable ha
  | rotateAccountRootKey pw ks =>
    simp only [Op.run, Draws.bind_ok, rotateAccountRootKey, Draws.lift_ok] at h
    obtain ⟨_, _, ⟨a, _, ⟨ha, -⟩, -⟩, -⟩ := h
    exact unlockAccount_readable ha
  | rekeyAccount old new ks slots =>
    simp only [Op.run, Draws.bind_ok] at h
    obtain ⟨r, _, h, -⟩ := h
    obtain ⟨a, _, ha, -⟩ := rekeyAccount_ok h
    exact unlockAccount_readable ha
  | _ => cases hg

/-! ## The five, call by call -/

theorem rotateIkek_accepts {v : UnlockedVault β} {ks : EncryptedKeySet β} {n : Nat} :
    (∃ r n', rotateIkek S v ks n = .ok (r, n')) ↔ Accepts S n (.rotateIkek v ks) := by
  unfold rotateIkek Accepts
  split
  · rename_i hid
    simp only [Draws.throw_ok, exists_false, false_iff]
    rintro ⟨ha, hv, -⟩
    rcases hid with hid | hid
    · exact hid ha
    · exact hid hv
  · rename_i hid
    simp only [ne_eq, not_or, not_not] at hid
    simp only [Draws.bind_ok, Draws.pure_ok, Draws.lift_ok, randomKey_ok, tryFromSlice_toList, hid, true_and]
    constructor
    · rintro ⟨_, _, k, _, ⟨hk, rfl⟩, w, _, hw, -⟩
      exact ⟨k, hk, canWrap_iff.mp ⟨_, _, hw⟩⟩
    · rintro ⟨k, hk, hw⟩
      obtain ⟨w, m, hw⟩ := canWrap_iff.mpr hw
      exact ⟨_, _, k, _, ⟨hk, rfl⟩, w, m, hw, _, _, ⟨rfl, rfl⟩, _, _, ⟨rfl, rfl⟩, rfl, rfl⟩

theorem rotateVaultKey_accepts {v : UnlockedVault β} {ks : EncryptedKeySet β} {seed : Option (WrappedKey β)} {n : Nat} :
    (∃ r n', rotateVaultKey S v ks seed n = .ok (r, n')) ↔ Accepts S n (.rotateVaultKey v ks seed) := by
  unfold rotateVaultKey Accepts
  split
  · rename_i hid
    simp only [Draws.throw_ok, exists_false, false_iff]
    rintro ⟨ha, hv, -⟩
    rcases hid with hid | hid
    · exact hid ha
    · exact hid hv
  · rename_i hid
    simp only [ne_eq, not_or, not_not] at hid
    constructor
    · rintro ⟨r, n', h⟩
      refine ⟨hid.1, hid.2, ?_⟩
      cases seed with
      | none =>
        simp only [Draws.bind_ok, Draws.pure_ok, Draws.lift_ok, randomKey_ok] at h
        obtain ⟨_, _, ⟨-, rfl⟩, vmk, _, ⟨hvmk, rfl⟩, wv, m, hwv, wi, _, hwi, -⟩ := h
        obtain rfl := (wrapKey_ok.mp hwv).2.2
        exact ⟨vmk, hvmk, canWrap_iff.mp ⟨_, _, hwv⟩, canWrap_iff.mp ⟨_, _, hwi⟩, fun w hw => (by cases hw)⟩
      | some w =>
        simp only [Draws.bind_ok, Draws.pure_ok, Draws.lift_ok, randomKey_ok, tryFromSlice_toList] at h
        obtain ⟨s, _, ⟨hs, rfl⟩, _, _, ⟨rfl, rfl⟩, vmk, _, ⟨hvmk, rfl⟩, wv, m, hwv, wi, m', hwi, _, _, ⟨-, rfl⟩, _, _,
          ⟨-, rfl⟩, h⟩ := h
        simp only [Draws.bind_ok, wrapSigningSeed, Draws.lift_ok, tryFromSlice_toList] at h
        obtain ⟨w', _, ⟨key, _, ⟨hkey, rfl⟩, hw'⟩, -⟩ := h
        cases hkey
        obtain rfl := (wrapKey_ok.mp hwv).2.2
        obtain rfl := (wrapKey_ok.mp hwi).2.2
        refine ⟨vmk, hvmk, canWrap_iff.mp ⟨_, _, hwv⟩, canWrap_iff.mp ⟨_, _, hwi⟩, fun u hu => ?_⟩
        cases hu
        exact ⟨s, hs, canWrap_iff.mp ⟨_, _, hw'⟩⟩
    · rintro ⟨-, -, vmk, hvmk, hwv, hwi, hseed⟩
      obtain ⟨wv, m, hwv⟩ := canWrap_iff.mpr hwv
      obtain ⟨wi, m', hwi⟩ := canWrap_iff.mpr hwi
      obtain rfl := (wrapKey_ok.mp hwv).2.2
      obtain rfl := (wrapKey_ok.mp hwi).2.2
      cases seed with
      | none =>
        simp only [Draws.bind_ok, Draws.pure_ok, Draws.lift_ok, randomKey_ok, tryFromSlice_toList]
        exact ⟨_, _, _, _, ⟨rfl, rfl⟩, vmk, _, ⟨hvmk, rfl⟩, wv, _, hwv, wi, _, hwi, _, _, ⟨rfl, rfl⟩, _, _, ⟨rfl, rfl⟩,
          Draws.bind_ok.mpr ⟨_, _, Draws.pure_ok.mpr ⟨rfl, rfl⟩, Draws.pure_ok.mpr ⟨rfl, rfl⟩⟩⟩
      | some w =>
        obtain ⟨s, hs, hw⟩ := hseed w rfl
        obtain ⟨w', m'', hw⟩ := canWrap_iff.mpr hw
        simp only [Draws.bind_ok, Draws.pure_ok, Draws.lift_ok, randomKey_ok, tryFromSlice_toList]
        have hseal : ∀ u : UnlockedVault β, u.vmk = vmk → u.vaultId = v.vaultId →
            wrapSigningSeed S u s (n + 3) = .ok (w', m'') := by
          intro u hu hid'
          rw [wrapSigningSeed, hu, hid']
          exact Draws.bind_ok.mpr ⟨s, _, Draws.lift_ok.mpr ⟨tryFromSlice_toList s, rfl⟩, hw⟩
        exact ⟨_, _, s, _, ⟨hs, rfl⟩, _, _, ⟨rfl, rfl⟩, vmk, _, ⟨hvmk, rfl⟩, wv, _, hwv, wi, _, hwi, _, _, ⟨rfl, rfl⟩,
          _, _, ⟨rfl, rfl⟩, Draws.bind_ok.mpr ⟨w', _, hseal _ rfl rfl, Draws.bind_ok.mpr ⟨_, _,
            Draws.pure_ok.mpr ⟨rfl, rfl⟩, Draws.pure_ok.mpr ⟨rfl, rfl⟩⟩⟩⟩

theorem unlockViaBiometric_accepts {w : Arr β 32} {e : BiometricEnvelope β} {ks : EncryptedKeySet β} {n : Nat} :
    (∃ v, unlockViaBiometric S w e ks = .ok v) ↔ Accepts S n (.unlockViaBiometric w e ks) := by
  unfold unlockViaBiometric Accepts
  split
  · rename_i hid
    simp only [except_bind_ok]
    exact ⟨fun ⟨_, _, _, h⟩ => (by cases h), fun h => absurd h.2.1 hid⟩
  · rename_i hid
    simp only [except_bind_ok, except_pure_ok, tryFromSlice_toList, unlockBelow]
    constructor
    · rintro ⟨_, ⟨⟩, hver, w', hw, kek, hk, vmk, hv, ikek, hi, -⟩
      cases hw
      exact ⟨hver, by simpa using hid, kek, hk, vmk, ikek, hv, hi⟩
    · rintro ⟨hver, -, kek, hk, vmk, ikek, hv, hi⟩
      exact ⟨_, (), hver, w, rfl, kek, hk, vmk, hv, ikek, hi, rfl⟩

theorem unlockAccountViaBiometric_accepts {w : Arr β 32} {e : AccountBiometricEnvelope β} {ks : AccountKeySet β}
    {n : Nat} : (∃ a, unlockAccountViaBiometric S w e ks = .ok a) ↔ Accepts S n (.unlockAccountViaBiometric w e ks) := by
  unfold unlockAccountViaBiometric Accepts
  split
  · rename_i hid
    simp only [except_bind_ok]
    exact ⟨fun ⟨_, _, _, h⟩ => (by cases h), fun h => absurd h.2.1 hid⟩
  · rename_i hid
    simp only [except_bind_ok, except_pure_ok, tryFromSlice_toList]
    constructor
    · rintro ⟨_, ⟨⟩, hver, w', hw, ark, hk, -⟩
      cases hw
      exact ⟨hver, by simpa using hid, ark, hk⟩
    · rintro ⟨hver, -, ark, hk⟩
      exact ⟨_, (), hver, w, rfl, ark, hk, rfl⟩

theorem unlockAccountWithArk_accepts {ark : Arr β 32} {ks : AccountKeySet β} {n : Nat} :
    (∃ a, unlockAccountWithArk S ark ks = .ok a) ↔ Accepts S n (.unlockAccountWithArk ark ks) := by
  simp only [unlockAccountWithArk, Accepts, except_bind_ok, tryFromSlice_toList]
  cases ks.vaults.head? with
  | none =>
    constructor
    · intro h
      obtain ⟨_, _, _, h⟩ := h
      cases h
    · intro h
      obtain ⟨_, _, h, _⟩ := h
      cases h
  | some e =>
    simp only [except_bind_ok, except_pure_ok]
    constructor
    · rintro ⟨_, ark', hark, kek, hk, -⟩
      cases hark
      exact ⟨e, kek, rfl, hk⟩
    · rintro ⟨_, kek, he, hk⟩
      cases he
      exact ⟨_, ark, rfl, kek, hk, rfl⟩

/-- Dropping a result changes nothing about success. -/
theorem dropped_ok {α : Type} {x : Draw α} {n : Nat} :
    (∃ n', (do let _ ← x; pure () : Draw Unit) n = .ok ((), n')) ↔ ∃ r n', x n = .ok (r, n') := by
  simp only [Draws.bind_ok, Draws.pure_ok]
  exact ⟨fun ⟨_, r, m, h, _⟩ => ⟨r, m, h⟩, fun ⟨r, m, h⟩ => ⟨m, r, m, h, trivial, rfl⟩⟩

theorem dropped_lift_ok {α : Type} {x : Except CryptoError α} {n : Nat} :
    (∃ n', (do let _ ← x; pure () : Draw Unit) n = .ok ((), n')) ↔ ∃ r, x = .ok r := by
  simp only [Draws.bind_ok, Draws.pure_ok, Draws.lift_ok]
  exact ⟨fun ⟨_, r, _, ⟨h, _⟩, _⟩ => ⟨r, h⟩, fun ⟨r, h⟩ => ⟨n, r, n, ⟨h, rfl⟩, trivial, rfl⟩⟩

theorem ungated_accepts {op : Op β} (hg : op.gated = false) (n : Nat) :
    (∃ n', op.run S n = .ok ((), n')) ↔ Accepts S n op := by
  cases op with
  | unlockViaBiometric w e ks => exact dropped_lift_ok.trans unlockViaBiometric_accepts
  | rotateVaultKey v ks seed => exact dropped_ok.trans rotateVaultKey_accepts
  | rotateIkek v ks => exact dropped_ok.trans rotateIkek_accepts
  | unlockAccountViaBiometric w e ks => exact dropped_lift_ok.trans unlockAccountViaBiometric_accepts
  | unlockAccountWithArk ark ks => exact dropped_lift_ok.trans unlockAccountWithArk_accepts
  | _ => cases hg

/-- On a keyset of another format a call fails exactly when it compares the version or does
    not accept its other arguments. -/
theorem unreadable_fails_iff {op : Op β} (hout : ¬ op.Readable) (n : Nat) :
    op.Fails S n ↔ op.gated = true ∨ ¬ Accepts S n op := by
  rw [fails_iff_not_ok]
  cases hg : op.gated with
  | true =>
    simp only [true_or, iff_true]
    rintro ⟨n', h⟩
    exact hout (gated_readable hg h)
  | false => simp only [Bool.false_eq_true, false_or, ungated_accepts hg]

/-! ## Traces -/

/-- The keyset of a new vault, marked with the next format version. -/
def demoNewer : EncryptedKeySet Term := { demoVault.1.encrypted with version := keysetFormatVersion + 1 }

theorem demoNewer_unreadable : checkVersion keysetFormatVersion keysetMinReadableVersion demoNewer.version ≠ .ok () := by
  decide +kernel

/-- The password path refuses it. -/
theorem unreadable_fails_unlock : (Op.unlockVault "a" demoNewer).Fails demo.suite 0 := by
  have hout : ¬ (Op.unlockVault "a" demoNewer).Readable := demoNewer_unreadable
  exact (unreadable_fails_iff hout 0).mpr (Or.inl rfl)

def demoReemitted : (EncryptedKeySet Term × UnlockedVault Term) × Nat :=
  okVal (rotateIkek demo.suite demoVault.1.unlocked demoNewer demoVault.2) (by decide +kernel)

/-- `rotate_ikek` writes it again. -/
theorem rotate_ikek_reemits_newer :
    ¬ (Op.rotateIkek demoVault.1.unlocked demoNewer).Readable ∧
      rotateIkek demo.suite demoVault.1.unlocked demoNewer demoVault.2 =
        .ok ((demoReemitted.1.1, demoReemitted.1.2), demoReemitted.2) ∧
      demoReemitted.1.1.version = keysetFormatVersion + 1 ∧
      ¬ (Op.rotateIkek demoVault.1.unlocked demoNewer).Fails demo.suite demoVault.2 := by
  have h : rotateIkek demo.suite demoVault.1.unlocked demoNewer demoVault.2 =
      .ok ((demoReemitted.1.1, demoReemitted.1.2), demoReemitted.2) := okVal_eq _
  refine ⟨demoNewer_unreadable, h, by decide +kernel, fun hf => ?_⟩
  exact fails_iff_not_ok.mp hf (dropped_ok.mpr ⟨_, _, h⟩)

end RootkeyCrypto.Versions
