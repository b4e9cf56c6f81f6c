/-
  RootkeyCrypto.Core.Vault — `vault.rs`: creating, unlocking, changing the password of and
  rotating the keys of one vault.

  The stored `EncryptedKeySet` is a chain of wrapped keys, MUK → KEK → VMK → IKEK; an
  `UnlockedVault` is the handle that holds the last three. `Below v wv wi` says that the
  stored `wv`, `wi` wrap the handle's VMK and IKEK, `Holds muk ks v` that the keyset wraps
  the whole handle. Each function has one lemma `f_ok` that says what a successful call
  took and gave; the modules above use these and unfold no function.

  `unlockBelow` is the part that `unlock_vault`, `unlock_via_biometric` and
  `unlock_account_vault` have in common once the KEK is known.
-/

import RootkeyCrypto.Core.Wrapping
import RootkeyCrypto.Lib.Symbolic

namespace RootkeyCrypto

open Lib

def keysetFormatVersion : UInt16 := 2
def keysetMinReadableVersion : UInt16 := 2

/-- What this client writes it reads. -/
theorem keyset_readable : checkVersion keysetFormatVersion keysetMinReadableVersion keysetFormatVersion = .ok () := by
  decide

/-- The persisted part of a vault: ciphertexts and public parameters. -/
structure EncryptedKeySet (β : Type) where
  version : UInt16
  accountId : Id
  vaultId : Id
  kdf : KdfParams
  wrappedKek : WrappedKey β
  wrappedVmk : WrappedKey β
  wrappedIkek : WrappedKey β
  deriving DecidableEq

/-- An unlocked vault's handle. -/
@[ext] structure UnlockedVault (β : Type) where
  accountId : Id
  vaultId : Id
  kek : KeyEncryptionKey β
  vmk : VaultMasterKey β
  ikek : ItemKekKey β
  deriving DecidableEq

structure VaultKeySet (β : Type) where
  encrypted : EncryptedKeySet β
  unlocked : UnlockedVault β

structure BiometricEnvelope (β : Type) where
  version : UInt16
  vaultId : Id
  wrappedKek : WrappedKey β
  deriving DecidableEq

structure BiometricUnlockSetup (β : Type) where
  wrapperKey : Arr β 32
  envelope : BiometricEnvelope β

variable {β : Type} (S : Suite β)

def createVaultKeys (masterPassword : String) : Draw (VaultKeySet β) := do
  let accountId ← randomBytes S 16
  let vaultId ← randomBytes S 16
  let kdf ← KdfParams.generateDefault S
  let muk ← deriveMuk S masterPassword kdf
  let kek ← randomKey S
  let vmk ← randomKey S
  let ikek ← randomKey S
  let wrappedKek ← wrapKey S muk kek (aadForKek accountId vaultId kdf)
  let wrappedVmk ← wrapKey S kek vmk (aadForVmk accountId vaultId)
  let wrappedIkek ← wrapKey S vmk ikek (aadForIkek vaultId)
  pure { encrypted := { version := keysetFormatVersion, accountId := accountId, vaultId := vaultId, kdf := kdf,
                        wrappedKek := wrappedKek, wrappedVmk := wrappedVmk, wrappedIkek := wrappedIkek }
         unlocked := { accountId := accountId, vaultId := vaultId, kek := kek, vmk := vmk, ikek := ikek } }

/-- KEK → VMK → IKEK. -/
def unlockBelow (accountId vaultId : Id) (kek : KeyEncryptionKey β) (wrappedVmk wrappedIkek : WrappedKey β) :
    Except CryptoError (UnlockedVault β) := do
  let vmk ← unwrapKey S kek wrappedVmk (aadForVmk accountId vaultId)
  let ikek ← unwrapKey S vmk wrappedIkek (aadForIkek vaultId)
  pure { accountId := accountId, vaultId := vaultId, kek := kek, vmk := vmk, ikek := ikek }

def unlockVault (masterPassword : String) (keyset : EncryptedKeySet β) : Except CryptoError (UnlockedVault β) := do
  checkVersion keysetFormatVersion keysetMinReadableVersion keyset.version
  keyset.kdf.validate
  let muk ← deriveMuk S masterPassword keyset.kdf
  let kek ← unwrapKey S muk keyset.wrappedKek (aadForKek keyset.accountId keyset.vaultId keyset.kdf)
  unlockBelow S keyset.accountId keyset.vaultId kek keyset.wrappedVmk keyset.wrappedIkek

def changeMasterPassword (oldPassword newPassword : String) (current : EncryptedKeySet β) :
    Draw (EncryptedKeySet β) := do
  if newPassword = "" then Draws.throw (.invalidArgument "new password is empty")
  else
    let unlocked ← unlockVault S oldPassword current
    let newKdf ← KdfParams.generateDefault S
    let newMuk ← deriveMuk S newPassword newKdf
    let wrappedKek ← wrapKey S newMuk unlocked.kek (aadForKek current.accountId current.vaultId newKdf)
    pure { version := current.version, accountId := current.accountId, vaultId := current.vaultId, kdf := newKdf,
           wrappedKek := wrappedKek, wrappedVmk := current.wrappedVmk, wrappedIkek := current.wrappedIkek }

/-- Wrap an Ed25519 seed with the VMK. -/
def wrapSigningSeed (unlocked : UnlockedVault β) (seed : Arr β 32) : Draw (WrappedKey β) := do
  let key ← tryFromSlice seed.toList
  wrapKey S unlocked.vmk key (aadForSigningSeed unlocked.vaultId)

def unwrapSigningSeed (unlocked : UnlockedVault β) (wrapped : WrappedKey β) : Except CryptoError (Arr β 32) :=
  unwrapKey S unlocked.vmk wrapped (aadForSigningSeed unlocked.vaultId)

/-- A new VMK under the same KEK; the IKEK and the signing seed are re-wrapped with it. -/
def rotateVaultKey (unlocked : UnlockedVault β) (current : EncryptedKeySet β)
    (wrappedSigningSeed : Option (WrappedKey β)) :
    Draw (EncryptedKeySet β × UnlockedVault β × Option (WrappedKey β)) := do
  if current.accountId ≠ unlocked.accountId ∨ current.vaultId ≠ unlocked.vaultId then
    Draws.throw (.invalidArgument "keyset/vault id mismatch")
  else
    let signingSeed : Option (Arr β 32) ← match wrappedSigningSeed with
      | some w => do
        let seed ← unwrapSigningSeed S unlocked w
        pure (some seed)
      | none => pure none
    let newVmk ← randomKey S
    let wrappedVmk ← wrapKey S unlocked.kek newVmk (aadForVmk current.accountId current.vaultId)
    let wrappedIkek ← wrapKey S newVmk unlocked.ikek (aadForIkek current.vaultId)
    let kek ← tryFromSlice unlocked.kek.toList
    let ikek ← tryFromSlice unlocked.ikek.toList
    let nextKeyset := { version := current.version, accountId := current.accountId, vaultId := current.vaultId,
                        kdf := current.kdf, wrappedKek := current.wrappedKek, wrappedVmk := wrappedVmk,
                        wrappedIkek := wrappedIkek }
    let nextUnlocked : UnlockedVault β := { accountId := unlocked.accountId, vaultId := unlocked.vaultId, kek := kek,
                                            vmk := newVmk, ikek := ikek }
    let rewrappedSigningSeed : Option (WrappedKey β) ← match signingSeed with
      | some seed => do
        let w ← wrapSigningSeed S nextUnlocked seed
        pure (some w)
      | none => pure none
    pure (nextKeyset, nextUnlocked, rewrappedSigningSeed)

/-- A new IKEK under the same VMK; the caller re-wraps every item key. -/
def rotateIkek (unlocked : UnlockedVault β) (current : EncryptedKeySet β) :
    Draw (EncryptedKeySet β × UnlockedVault β) := do
  if current.accountId ≠ unlocked.accountId ∨ current.vaultId ≠ unlocked.vaultId then
    Draws.throw (.invalidArgument "keyset/vault id mismatch")
  else
    let newIkek ← randomKey S
    let wrappedIkek ← wrapKey S unlocked.vmk newIkek (aadForIkek current.vaultId)
    let kek ← tryFromSlice unlocked.kek.toList
    let vmk ← tryFromSlice unlocked.vmk.toList
    pure ({ version := current.version, accountId := current.accountId, vaultId := current.vaultId,
            kdf := current.kdf, wrappedKek := current.wrappedKek, wrappedVmk := current.wrappedVmk,
            wrappedIkek := wrappedIkek },
          { accountId := unlocked.accountId, vaultId := unlocked.vaultId, kek := kek, vmk := vmk, ikek := newIkek })

def enableBiometricUnlock (unlocked : UnlockedVault β) : Draw (BiometricUnlockSetup β) := do
  let wrapperBytes ← randomKey S
  let wrapperKey ← tryFromSlice wrapperBytes.toList
  let wrappedKek ← wrapKey S wrapperKey unlocked.kek (aadForBiometric unlocked.vaultId)
  pure { wrapperKey := wrapperBytes
         envelope := { version := keysetFormatVersion, vaultId := unlocked.vaultId, wrappedKek := wrappedKek } }

def unlockViaBiometric (wrapperKey : Arr β 32) (envelope : BiometricEnvelope β) (keyset : EncryptedKeySet β) :
    Except CryptoError (UnlockedVault β) := do
  checkVersion keysetFormatVersion keysetMinReadableVersion envelope.version
  if envelope.vaultId ≠ keyset.vaultId then .error .decryptFailed
  else
    let wrapperSym ← tryFromSlice wrapperKey.toList
    let kek ← unwrapKey S wrapperSym envelope.wrappedKek (aadForBiometric keyset.vaultId)
    unlockBelow S keyset.accountId keyset.vaultId kek keyset.wrappedVmk keyset.wrappedIkek

variable {S}

/-! ## What a stored chain holds -/

/-- The stored keys wrap the handle's VMK and IKEK. -/
structure Below (S : Suite β) (v : UnlockedVault β) (wrappedVmk wrappedIkek : WrappedKey β) : Prop where
  vmk : Wraps S v.kek v.vmk (aadForVmk v.accountId v.vaultId) wrappedVmk
  ikek : Wraps S v.vmk v.ikek (aadForIkek v.vaultId) wrappedIkek

/-- The keyset wraps the handle, under `muk`. -/
structure Holds (S : Suite β) (muk : MasterUnlockKey β) (ks : EncryptedKeySet β) (v : UnlockedVault β) : Prop where
  account : v.accountId = ks.accountId
  vault : v.vaultId = ks.vaultId
  kek : Wraps S muk v.kek (aadForKek ks.accountId ks.vaultId ks.kdf) ks.wrappedKek
  below : Below S v ks.wrappedVmk ks.wrappedIkek

theorem Below.unique (hS : S.Ideal) {v v' : UnlockedVault β} {wv wi : WrappedKey β} (h : Below S v wv wi)
    (h' : Below S v' wv wi) : v.kek = v'.kek ∧ v.vmk = v'.vmk ∧ v.ikek = v'.ikek := by
  obtain ⟨hk, -, hv⟩ := h.vmk.unique hS h'.vmk
  exact ⟨hk, hv, (h.ikek.unique hS h'.ikek).2.2⟩

theorem Holds.unique (hS : S.Ideal) {muk muk' : MasterUnlockKey β} {ks : EncryptedKeySet β} {v v' : UnlockedVault β}
    (h : Holds S muk ks v) (h' : Holds S muk' ks v') : muk = muk' ∧ v = v' := by
  obtain ⟨hk, hv, hi⟩ := h.below.unique hS h'.below
  exact ⟨(h.kek.unique hS h'.kek).1, UnlockedVault.ext (h.account.trans h'.account.symm)
    (h.vault.trans h'.vault.symm) hk hv hi⟩

/-! ## What each call takes and gives -/

theorem unlockBelow_ok (hS : S.Ideal) {a v : Id} {kek : KeyEncryptionKey β} {wv wi : WrappedKey β}
    {u : UnlockedVault β} : unlockBelow S a v kek wv wi = .ok u ↔
      u.accountId = a ∧ u.vaultId = v ∧ u.kek = kek ∧ Below S u wv wi := by
  simp only [unlockBelow, except_bind_ok, except_pure_ok, unwrapKey_ok hS]
  constructor
  · rintro ⟨vmk, hv, ikek, hi, rfl⟩
    exact ⟨rfl, rfl, rfl, hv, hi⟩
  · rintro ⟨rfl, rfl, rfl, hb⟩
    exact ⟨u.vmk, hb.vmk, u.ikek, hb.ikek, rfl⟩

theorem unlockVault_ok (hS : S.Ideal) {pw : String} {ks : EncryptedKeySet β} {v : UnlockedVault β} :
    unlockVault S pw ks = .ok v ↔
      checkVersion keysetFormatVersion keysetMinReadableVersion ks.version = .ok () ∧
        ∃ muk, deriveMuk S pw ks.kdf = .ok muk ∧ Holds S muk ks v := by
  simp only [unlockVault, except_bind_ok, unlockBelow_ok hS, unwrapKey_ok hS]
  constructor
  · rintro ⟨⟨⟩, hver, ⟨⟩, -, muk, hmuk, kek, hk, ha, hv, rfl, hb⟩
    exact ⟨hver, muk, hmuk, ha, hv, hk, hb⟩
  · rintro ⟨hver, muk, hmuk, h⟩
    exact ⟨(), hver, (), (deriveMuk_ok.mp hmuk).2.1, muk, hmuk, v.kek, h.kek, h.account, h.vault, rfl, h.below⟩

/-- Any other non-empty password fails with `decryptFailed`. -/
theorem unlockVault_other (hS : S.Ideal) {pw pw' : String} {ks : EncryptedKeySet β} {v : UnlockedVault β}
    (h : unlockVault S pw ks = .ok v) (h0 : pw' ≠ "") (hne : S.nfkd pw' ≠ S.nfkd pw) :
    unlockVault S pw' ks = .error .decryptFailed := by
  obtain ⟨hver, muk, hmuk, hh⟩ := (unlockVault_ok hS).mp h
  obtain ⟨muk', hmuk'⟩ := deriveMuk_takes hS hmuk h0
  have hk : muk' ≠ muk := fun e => hne (deriveMuk_inj hS hmuk' (e ▸ hmuk)).2
  unfold unlockVault
  rw [hver, (deriveMuk_ok.mp hmuk).2.1, hmuk']
  show (unwrapKey S muk' ks.wrappedKek _ >>= _) = _
  rw [unwrapKey_other hS hh.kek (Or.inl hk)]
  rfl

theorem unlockViaBiometric_ok (hS : S.Ideal) {w : Arr β 32} {e : BiometricEnvelope β} {ks : EncryptedKeySet β}
    {v : UnlockedVault β} : unlockViaBiometric S w e ks = .ok v ↔
      checkVersion keysetFormatVersion keysetMinReadableVersion e.version = .ok () ∧ e.vaultId = ks.vaultId ∧
        v.accountId = ks.accountId ∧ v.vaultId = ks.vaultId ∧
        Wraps S w v.kek (aadForBiometric ks.vaultId) e.wrappedKek ∧ Below S v ks.wrappedVmk ks.wrappedIkek := by
  unfold unlockViaBiometric
  split
  · rename_i hid
    simp only [except_bind_ok]
    exact ⟨fun ⟨_, _, h⟩ => (by cases h), fun h => absurd h.2.1 hid⟩
  · rename_i hid
    simp only [except_bind_ok, tryFromSlice_toList, unlockBelow_ok hS, unwrapKey_ok hS]
    constructor
    · rintro ⟨⟨⟩, hver, w', hw, kek, hk, ha, hv, rfl, hb⟩
      cases hw
      exact ⟨hver, by simpa using hid, ha, hv, hk, hb⟩
    · rintro ⟨hver, -, ha, hv, hk, hb⟩
      exact ⟨(), hver, w, rfl, v.kek, hk, ha, hv, rfl, hb⟩

theorem createVaultKeys_ok {pw : String} {r : VaultKeySet β} {n n' : Nat}
    (h : createVaultKeys S pw n = .ok (r, n')) :
    r.encrypted.version = keysetFormatVersion ∧ (∃ muk, deriveMuk S pw r.encrypted.kdf = .ok muk ∧
      Holds S muk r.encrypted r.unlocked) ∧ n < n' ∧ Drawn S n n' r.unlocked.kek ∧ Drawn S n n' r.unlocked.vmk ∧
      Drawn S n n' r.unlocked.ikek := by
  simp only [createVaultKeys, Draws.bind_ok, Draws.pure_ok, Draws.lift_ok, randomBytes_ok, randomKey_ok,
    KdfParams.generateDefault_ok, wrapKey_ok] at h
  obtain ⟨a, m₁, ⟨-, h₁⟩, v, m₂, ⟨-, h₂⟩, kdf, m₃, ⟨-, h₃, -⟩, muk, m₄, ⟨hmuk, h₄⟩, kek, m₅, ⟨hkek, h₅⟩, vmk, m₆,
    ⟨hvmk, h₆⟩, ikek, m₇, ⟨hikek, h₇⟩, wk, m₈, ⟨-, hk, h₈⟩, wv, m₉, ⟨-, hv, h₉⟩, wi, m₁₀, ⟨-, hi, h₁₀⟩, hr, hn⟩ := h
  rw [hr]
  exact ⟨rfl, ⟨muk, hmuk, rfl, rfl, hk, hv, hi⟩, by omega, ⟨_, by omega, by omega, hkek⟩, ⟨_, by omega, by omega, hvmk⟩,
    ⟨_, by omega, by omega, hikek⟩⟩

theorem changeMasterPassword_ok {old new : String} {ks next : EncryptedKeySet β} {n n' : Nat}
    (h : changeMasterPassword S old new ks n = .ok (next, n')) :
    ∃ v muk, unlockVault S old ks = .ok v ∧ deriveMuk S new next.kdf = .ok muk ∧
      Wraps S muk v.kek (aadForKek ks.accountId ks.vaultId next.kdf) next.wrappedKek ∧
      next = { ks with kdf := next.kdf, wrappedKek := next.wrappedKek } ∧ n < n' := by
  unfold changeMasterPassword at h
  split at h
  · exact (Draws.throw_ok.mp h).elim
  · simp only [Draws.bind_ok, Draws.pure_ok, Draws.lift_ok, KdfParams.generateDefault_ok, wrapKey_ok] at h
    obtain ⟨v, _, ⟨hv, rfl⟩, kdf, _, ⟨-, rfl, -⟩, muk, _, ⟨hmuk, rfl⟩, wk, _, ⟨-, hk, rfl⟩, rfl, rfl⟩ := h
    exact ⟨v, muk, hv, hmuk, hk, rfl, by omega⟩

theorem wrapSigningSeed_ok {v : UnlockedVault β} {seed : Arr β 32} {w : WrappedKey β} {n n' : Nat}
    (h : wrapSigningSeed S v seed n = .ok (w, n')) :
    Wraps S v.vmk seed (aadForSigningSeed v.vaultId) w ∧ n < n' := by
  simp only [wrapSigningSeed, Draws.bind_ok, Draws.lift_ok, tryFromSlice_toList, wrapKey_ok] at h
  obtain ⟨key, _, ⟨hkey, rfl⟩, -, hw, rfl⟩ := h
  cases hkey
  exact ⟨hw, by omega⟩

/-- The signing seed of a rotation: `none` stays `none`, a wrapped seed is unwrapped with
    the old VMK and wrapped with the new one. -/
def Reseeded (S : Suite β) (v v' : UnlockedVault β) : Option (WrappedKey β) → Option (WrappedKey β) → Prop
  | none, none => True
  | some w, some w' => ∃ seed, unwrapSigningSeed S v w = .ok seed ∧ Wraps S v'.vmk seed (aadForSigningSeed v'.vaultId) w'
  | _, _ => False

theorem rotateVaultKey_ok {v v' : UnlockedVault β} {ks ks' : EncryptedKeySet β} {seed seed' : Option (WrappedKey β)}
    {n n' : Nat} (h : rotateVaultKey S v ks seed n = .ok ((ks', v', seed'), n')) :
    ks.accountId = v.accountId ∧ ks.vaultId = v.vaultId ∧ v' = { v with vmk := v'.vmk } ∧
      ks' = { ks with wrappedVmk := ks'.wrappedVmk, wrappedIkek := ks'.wrappedIkek } ∧
      Below S v' ks'.wrappedVmk ks'.wrappedIkek ∧ Reseeded S v v' seed seed' ∧ S.osKey n = some v'.vmk ∧ n < n' := by
  unfold rotateVaultKey at h
  split at h
  · exact (Draws.throw_ok.mp h).elim
  · rename_i hid
    simp only [ne_eq, not_or, not_not] at hid
    obtain ⟨ha, hv⟩ := hid
    cases seed with
    | none =>
      simp only [Draws.bind_ok, Draws.pure_ok, Draws.lift_ok, randomKey_ok, wrapKey_ok, tryFromSlice_toList] at h
      obtain ⟨_, _, ⟨rfl, rfl⟩, vmk, _, ⟨hvmk, rfl⟩, wv, _, ⟨-, hwv, rfl⟩, wi, _, ⟨-, hwi, rfl⟩, kek, _, ⟨hkek, rfl⟩,
        ikek, _, ⟨hikek, rfl⟩, h⟩ := h
      cases hkek
      cases hikek
      simp only [Draws.bind_ok, Draws.pure_ok] at h
      obtain ⟨_, _, ⟨rfl, rfl⟩, h, rfl⟩ := h
      cases h
      rw [ha, hv] at hwv
      rw [hv] at hwi
      exact ⟨ha, hv, rfl, rfl, ⟨hwv, hwi⟩, trivial, hvmk, by omega⟩
    | some w =>
      simp only [Draws.bind_ok, Draws.pure_ok, Draws.lift_ok, randomKey_ok, wrapKey_ok, tryFromSlice_toList] at h
      obtain ⟨s, _, ⟨hs, rfl⟩, _, _, ⟨rfl, rfl⟩, vmk, _, ⟨hvmk, rfl⟩, wv, _, ⟨-, hwv, rfl⟩, wi, _, ⟨-, hwi, rfl⟩, kek, _,
        ⟨hkek, rfl⟩, ikek, _, ⟨hikek, rfl⟩, h⟩ := h
      cases hkek
      cases hikek
      simp only [Draws.bind_ok, Draws.pure_ok] at h
      obtain ⟨w', _, hw', _, _, ⟨rfl, rfl⟩, h, rfl⟩ := h
      cases h
      obtain ⟨hw', hlt⟩ := wrapSigningSeed_ok hw'
      rw [ha, hv] at hwv
      rw [hv] at hwi
      exact ⟨ha, hv, rfl, rfl, ⟨hwv, hwi⟩, ⟨s, hs, hw'⟩, hvmk, by omega⟩

theorem rotateIkek_ok {v v' : UnlockedVault β} {ks ks' : EncryptedKeySet β} {n n' : Nat}
    (h : rotateIkek S v ks n = .ok ((ks', v'), n')) :
    ks.accountId = v.accountId ∧ ks.vaultId = v.vaultId ∧ v' = { v with ikek := v'.ikek } ∧
      ks' = { ks with wrappedIkek := ks'.wrappedIkek } ∧
      Wraps S v.vmk v'.ikek (aadForIkek v.vaultId) ks'.wrappedIkek ∧ S.osKey n = some v'.ikek ∧ n < n' := by
  unfold rotateIkek at h
  split at h
  · exact (Draws.throw_ok.mp h).elim
  · rename_i hid
    simp only [ne_eq, not_or, not_not] at hid
    obtain ⟨ha, hv⟩ := hid
    simp only [Draws.bind_ok, Draws.pure_ok, Draws.lift_ok, randomKey_ok, wrapKey_ok, tryFromSlice_toList] at h
    obtain ⟨ikek, _, ⟨hikek, rfl⟩, wi, _, ⟨-, hwi, rfl⟩, kek, _, ⟨hkek, rfl⟩, vmk, _, ⟨hvmk, rfl⟩, h, rfl⟩ := h
    cases hkek
    cases hvmk
    cases h
    rw [hv] at hwi
    exact ⟨ha, hv, rfl, rfl, hwi, hikek, by omega⟩

theorem enableBiometricUnlock_ok {v : UnlockedVault β} {r : BiometricUnlockSetup β} {n n' : Nat}
    (h : enableBiometricUnlock S v n = .ok (r, n')) :
    r.envelope.version = keysetFormatVersion ∧ r.envelope.vaultId = v.vaultId ∧
      Wraps S r.wrapperKey v.kek (aadForBiometric v.vaultId) r.envelope.wrappedKek ∧ n < n' ∧
      Drawn S n n' r.wrapperKey := by
  simp only [enableBiometricUnlock, Draws.bind_ok, Draws.pure_ok, Draws.lift_ok, randomKey_ok, wrapKey_ok,
    tryFromSlice_toList] at h
  obtain ⟨w, _, ⟨hdraw, rfl⟩, w', _, ⟨hw, rfl⟩, wk, _, ⟨-, hk, rfl⟩, rfl, rfl⟩ := h
  cases hw
  exact ⟨rfl, rfl, hk, by omega, _, Nat.le_refl _, by omega, hdraw⟩

/-! ## A trace -/

/-- A new vault. -/
def demoVault : VaultKeySet Term × Nat := okVal (createVaultKeys demo.suite "a" 0) (by decide +kernel)

theorem demoVault_created : createVaultKeys demo.suite "a" 0 = .ok (demoVault.1, demoVault.2) := okVal_eq _

end RootkeyCrypto
