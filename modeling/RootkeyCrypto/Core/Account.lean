/-
  RootkeyCrypto.Core.Account — `account.rs`: one master password opens an account, the
  account's root key (ARK) opens every vault in it. Recovery keys are in `Core.Recovery`.

  The stored `AccountKeySet` wraps the ARK under the password (and, when set up, under a
  recovery key) and one KEK per vault under the ARK; what lies below a KEK is in the
  vault's own `VaultKeySlot`. As in `Core.Vault`, each function has one lemma `f_ok` that
  says what a successful call took and gave.
-/

import RootkeyCrypto.Core.Item
import RootkeyCrypto.Core.SharedVault

namespace RootkeyCrypto

open Lib

def accountFormatVersion : UInt16 := 2
def accountMinReadableVersion : UInt16 := 2

/-- What this client writes it reads. -/
theorem account_readable : checkVersion accountFormatVersion accountMinReadableVersion accountFormatVersion = .ok () := by
  decide

/-- One vault's key in the account: its KEK, wrapped with the ARK. -/
structure AccountVaultEntry (β : Type) where
  vaultId : Id
  wrappedKek : WrappedKey β
  deriving DecidableEq

/-- The persisted part of an account. -/
structure AccountKeySet (β : Type) where
  version : UInt16
  accountId : Id
  createdAt : Int64
  kdf : KdfParams
  wrappedArk : WrappedKey β
  wrappedArkRecovery : Option (WrappedKey β)
  vaults : List (AccountVaultEntry β)
  deriving DecidableEq

/-- What a vault directory keeps: the keys below the KEK. -/
structure VaultKeySlot (β : Type) where
  version : UInt16
  accountId : Id
  vaultId : Id
  wrappedVmk : WrappedKey β
  wrappedIkek : WrappedKey β
  deriving DecidableEq

@[ext] structure UnlockedAccount (β : Type) where
  accountId : Id
  ark : AccountRootKey β
  deriving DecidableEq

structure AccountKeys (β : Type) where
  encrypted : AccountKeySet β
  unlocked : UnlockedAccount β

structure VaultUnderAccount (β : Type) where
  entry : AccountVaultEntry β
  slot : VaultKeySlot β
  unlocked : UnlockedVault β
  deriving DecidableEq

structure RekeyedVault (β : Type) where
  old : UnlockedVault β
  new : UnlockedVault β
  entry : AccountVaultEntry β
  slot : VaultKeySlot β

structure RekeyedAccount (β : Type) where
  encrypted : AccountKeySet β
  unlocked : UnlockedAccount β
  vaults : List (RekeyedVault β)

structure AccountBiometricEnvelope (β : Type) where
  version : UInt16
  accountId : Id
  wrappedArk : WrappedKey β
  deriving DecidableEq

structure AccountBiometricSetup (β : Type) where
  wrapperKey : Arr β 32
  envelope : AccountBiometricEnvelope β

variable {β : Type} (S : Suite β)

/-! ## Keys derived from the ARK -/

namespace UnlockedAccount

/-- The root key followed by the account id. -/
def material (a : UnlockedAccount β) : List β := a.ark.toList ++ a.accountId.toList.map S.lit

def aiInboxKeypair (a : UnlockedAccount β) : SharedIdentityKeyPair β :=
  .fromSecret S (S.blake3 "root-key/ai-inbox/v1" (a.material S))

def relayAuthKey (a : UnlockedAccount β) : Arr β 32 :=
  S.blake3 "root-key/relay-auth/v1" (a.material S)

def exportArkForHandoff (a : UnlockedAccount β) : Arr β 32 := a.ark

end UnlockedAccount

/-! ## Create and unlock -/

def createAccount (masterPassword : String) : Draw (AccountKeys β) := do
  if masterPassword = "" then Draws.throw (.invalidArgument "master password is empty")
  else
    let accountId ← randomBytes S 16
    let kdf ← KdfParams.generateDefault S
    let muk ← deriveMuk S masterPassword kdf
    let ark ← randomKey S
    let wrappedArk ← wrapKey S muk ark (aadForArk accountId kdf)
    pure { encrypted := { version := accountFormatVersion, accountId := accountId, createdAt := 0, kdf := kdf,
                          wrappedArk := wrappedArk, wrappedArkRecovery := none, vaults := [] }
           unlocked := { accountId := accountId, ark := ark } }

def unlockAccount (masterPassword : String) (keyset : AccountKeySet β) :
    Except CryptoError (UnlockedAccount β) := do
  checkVersion accountFormatVersion accountMinReadableVersion keyset.version
  keyset.kdf.validate
  let muk ← deriveMuk S masterPassword keyset.kdf
  let ark ← unwrapKey S muk keyset.wrappedArk (aadForArk keyset.accountId keyset.kdf)
  pure { accountId := keyset.accountId, ark := ark }

/-- Open the account with a handed-over ARK: it must open the first vault's KEK. -/
def unlockAccountWithArk (ark : Arr β 32) (keyset : AccountKeySet β) : Except CryptoError (UnlockedAccount β) := do
  let ark ← tryFromSlice ark.toList
  let account : UnlockedAccount β := { accountId := keyset.accountId, ark := ark }
  match keyset.vaults.head? with
  | none => .error .decryptFailed
  | some entry =>
    let _ ← unwrapKey S account.ark entry.wrappedKek (aadForVaultKek account.accountId entry.vaultId)
    pure account

def unlockAccountVault (account : UnlockedAccount β) (entry : AccountVaultEntry β) (slot : VaultKeySlot β) :
    Except CryptoError (UnlockedVault β) := do
  checkVersion accountFormatVersion accountMinReadableVersion slot.version
  if slot.accountId ≠ account.accountId ∨ slot.vaultId ≠ entry.vaultId then .error .decryptFailed
  else
    let kek ← unwrapKey S account.ark entry.wrappedKek (aadForVaultKek account.accountId entry.vaultId)
    unlockBelow S account.accountId slot.vaultId kek slot.wrappedVmk slot.wrappedIkek

def createVaultUnderAccount (account : UnlockedAccount β) : Draw (VaultUnderAccount β) := do
  let vaultId ← randomBytes S 16
  let kek ← randomKey S
  let vmk ← randomKey S
  let ikek ← randomKey S
  let wrappedKek ← wrapKey S account.ark kek (aadForVaultKek account.accountId vaultId)
  let wrappedVmk ← wrapKey S kek vmk (aadForVmk account.accountId vaultId)
  let wrappedIkek ← wrapKey S vmk ikek (aadForIkek vaultId)
  pure { entry := { vaultId := vaultId, wrappedKek := wrappedKek }
         slot := { version := accountFormatVersion, accountId := account.accountId, vaultId := vaultId,
                   wrappedVmk := wrappedVmk, wrappedIkek := wrappedIkek }
         unlocked := { accountId := account.accountId, vaultId := vaultId, kek := kek, vmk := vmk, ikek := ikek } }

/-! ## Change the password, rotate the root key, replace everything -/

def changeAccountPassword (oldPassword newPassword : String) (current : AccountKeySet β) :
    Draw (AccountKeySet β) := do
  if newPassword = "" then Draws.throw (.invalidArgument "new password is empty")
  else
    let unlocked ← unlockAccount S oldPassword current
    let newKdf ← KdfParams.generateDefault S
    let newMuk ← deriveMuk S newPassword newKdf
    let wrappedArk ← wrapKey S newMuk unlocked.ark (aadForArk current.accountId newKdf)
    pure { version := current.version, accountId := current.accountId, createdAt := current.createdAt, kdf := newKdf,
           wrappedArk := wrappedArk, wrappedArkRecovery := current.wrappedArkRecovery, vaults := current.vaults }

/-- One entry's KEK, from the old root key to the new one. -/
def rewrapEntry (accountId : Id) (oldArk newArk : AccountRootKey β) (entry : AccountVaultEntry β) :
    Draw (AccountVaultEntry β) := do
  let kek ← unwrapKey S oldArk entry.wrappedKek (aadForVaultKek accountId entry.vaultId)
  let rewrapped ← wrapKey S newArk kek (aadForVaultKek accountId entry.vaultId)
  pure { vaultId := entry.vaultId, wrappedKek := rewrapped }

def rotateAccountRootKey (password : String) (current : AccountKeySet β) :
    Draw (AccountKeySet β × UnlockedAccount β) := do
  let old ← unlockAccount S password current
  let newArk ← randomKey S
  let newVaults ← Draws.each (rewrapEntry S current.accountId old.ark newArk) current.vaults
  let newKdf ← KdfParams.generateDefault S
  let newMuk ← deriveMuk S password newKdf
  let wrappedArk ← wrapKey S newMuk newArk (aadForArk current.accountId newKdf)
  pure ({ version := current.version, accountId := current.accountId, createdAt := current.createdAt, kdf := newKdf,
          wrappedArk := wrappedArk, wrappedArkRecovery := none, vaults := newVaults },
        { accountId := current.accountId, ark := newArk })

/-- One vault of a re-key: opened with the old keys, given a new KEK, VMK and IKEK. -/
def rekeyVault (current : AccountKeySet β) (old unlocked : UnlockedAccount β) (slot : VaultKeySlot β) :
    Draw (RekeyedVault β) := do
  match current.vaults.find? (fun e => e.vaultId = slot.vaultId) with
  | none => Draws.throw (.invalidArgument "slot without account entry")
  | some entry =>
    let oldVault ← unlockAccountVault S old entry slot
    let vaultId := slot.vaultId
    let kek ← randomKey S
    let vmk ← randomKey S
    let ikek ← randomKey S
    let wrappedKek ← wrapKey S unlocked.ark kek (aadForVaultKek current.accountId vaultId)
    let wrappedVmk ← wrapKey S kek vmk (aadForVmk current.accountId vaultId)
    let wrappedIkek ← wrapKey S vmk ikek (aadForIkek vaultId)
    pure { old := oldVault
           new := { accountId := current.accountId, vaultId := vaultId, kek := kek, vmk := vmk, ikek := ikek }
           entry := { vaultId := vaultId, wrappedKek := wrappedKek }
           slot := { version := accountFormatVersion, accountId := current.accountId, vaultId := vaultId,
                     wrappedVmk := wrappedVmk, wrappedIkek := wrappedIkek } }

def rekeyAccount (oldPassword newPassword : String) (current : AccountKeySet β) (slots : List (VaultKeySlot β)) :
    Draw (RekeyedAccount β) := do
  if newPassword = "" then Draws.throw (.invalidArgument "new password is empty")
  else
    let old ← unlockAccount S oldPassword current
    if slots.length ≠ current.vaults.length ∨
        ¬ current.vaults.all (fun e => slots.any (fun s => s.vaultId = e.vaultId)) then
      Draws.throw (.invalidArgument "rekey must cover every vault of the account")
    else
      let newArk ← randomKey S
      let newKdf ← KdfParams.generateDefault S
      let newMuk ← deriveMuk S newPassword newKdf
      let wrappedArk ← wrapKey S newMuk newArk (aadForArk current.accountId newKdf)
      let unlocked : UnlockedAccount β := { accountId := current.accountId, ark := newArk }
      let vaults ← Draws.each (rekeyVault S current old unlocked) slots
      pure { encrypted := { version := accountFormatVersion, accountId := current.accountId,
                            createdAt := current.createdAt, kdf := newKdf, wrappedArk := wrappedArk,
                            wrappedArkRecovery := none, vaults := vaults.map (·.entry) }
             unlocked := unlocked
             vaults := vaults }

/-! ## Biometrics -/

def enableAccountBiometric (account : UnlockedAccount β) : Draw (AccountBiometricSetup β) := do
  let wrapperBytes ← randomKey S
  let wrapperKey ← tryFromSlice wrapperBytes.toList
  let wrappedArk ← wrapKey S wrapperKey account.ark (aadForAccountBiometric account.accountId)
  pure { wrapperKey := wrapperBytes
         envelope := { version := accountFormatVersion, accountId := account.accountId, wrappedArk := wrappedArk } }

def unlockAccountViaBiometric (wrapperKey : Arr β 32) (envelope : AccountBiometricEnvelope β)
    (keyset : AccountKeySet β) : Except CryptoError (UnlockedAccount β) := do
  checkVersion accountFormatVersion accountMinReadableVersion envelope.version
  if envelope.accountId ≠ keyset.accountId then .error .decryptFailed
  else
    let wrapperSym ← tryFromSlice wrapperKey.toList
    let ark ← unwrapKey S wrapperSym envelope.wrappedArk (aadForAccountBiometric keyset.accountId)
    pure { accountId := keyset.accountId, ark := ark }

variable {S}

/-! ## What a stored account holds -/

/-- Entry and slot wrap the handle, under the account's root key. -/
structure Mounts (S : Suite β) (a : UnlockedAccount β) (e : AccountVaultEntry β) (s : VaultKeySlot β)
    (v : UnlockedVault β) : Prop where
  account : v.accountId = a.accountId
  vault : v.vaultId = e.vaultId
  slotAccount : s.accountId = a.accountId
  slotVault : s.vaultId = e.vaultId
  kek : Wraps S a.ark v.kek (aadForVaultKek a.accountId e.vaultId) e.wrappedKek
  below : Below S v s.wrappedVmk s.wrappedIkek

theorem Mounts.unique (hS : S.Ideal) {a a' : UnlockedAccount β} {e : AccountVaultEntry β} {s : VaultKeySlot β}
    {v v' : UnlockedVault β} (h : Mounts S a e s v) (h' : Mounts S a' e s v') : a = a' ∧ v = v' := by
  obtain ⟨hk, hv, hi⟩ := h.below.unique hS h'.below
  have ha : a.accountId = a'.accountId := h.slotAccount.symm.trans h'.slotAccount
  refine ⟨UnlockedAccount.ext ha (h.kek.unique hS h'.kek).1, UnlockedVault.ext ?_ ?_ hk hv hi⟩
  · rw [h.account, h'.account, ha]
  · rw [h.vault, h'.vault]

/-- The entries after storing a new one: it replaces one of the same vault. -/
def Stores (es es' : List (AccountVaultEntry β)) (e : AccountVaultEntry β) : Prop :=
  es'.Perm (e :: es.filter (fun x => x.vaultId ≠ e.vaultId))

theorem Stores.mem {es es' : List (AccountVaultEntry β)} {e x : AccountVaultEntry β} (h : Stores es es' e) :
    x ∈ es' ↔ x = e ∨ x ∈ es ∧ x.vaultId ≠ e.vaultId := by
  rw [h.mem_iff, List.mem_cons, List.mem_filter, decide_eq_true_iff]

/-! ## What each call takes and gives -/

theorem unlockAccount_ok (hS : S.Ideal) {pw : String} {ks : AccountKeySet β} {a : UnlockedAccount β} :
    unlockAccount S pw ks = .ok a ↔
      checkVersion accountFormatVersion accountMinReadableVersion ks.version = .ok () ∧ a.accountId = ks.accountId ∧
        ∃ muk, deriveMuk S pw ks.kdf = .ok muk ∧ Wraps S muk a.ark (aadForArk ks.accountId ks.kdf) ks.wrappedArk := by
  simp only [unlockAccount, except_bind_ok, except_pure_ok, unwrapKey_ok hS]
  constructor
  · rintro ⟨⟨⟩, hver, ⟨⟩, -, muk, hmuk, ark, hw, rfl⟩
    exact ⟨hver, rfl, muk, hmuk, hw⟩
  · rintro ⟨hver, ha, muk, hmuk, hw⟩
    exact ⟨(), hver, (), (deriveMuk_ok.mp hmuk).2.1, muk, hmuk, a.ark, hw, UnlockedAccount.ext ha.symm rfl⟩

/-- The passwords that open a keyset open it to one account. -/
theorem unlockAccount_unique (hS : S.Ideal) {pw pw' : String} {ks : AccountKeySet β} {a a' : UnlockedAccount β}
    (h : unlockAccount S pw ks = .ok a) (h' : unlockAccount S pw' ks = .ok a') : a = a' := by
  obtain ⟨-, ha, _, -, hw⟩ := (unlockAccount_ok hS).mp h
  obtain ⟨-, ha', _, -, hw'⟩ := (unlockAccount_ok hS).mp h'
  exact UnlockedAccount.ext (ha.trans ha'.symm) (hw.unique hS hw').2.2

/-- Any other non-empty password fails with `decryptFailed`. -/
theorem unlockAccount_other (hS : S.Ideal) {pw pw' : String} {ks : AccountKeySet β} {a : UnlockedAccount β}
    (h : unlockAccount S pw ks = .ok a) (h0 : pw' ≠ "") (hne : S.nfkd pw' ≠ S.nfkd pw) :
    unlockAccount S pw' ks = .error .decryptFailed := by
  obtain ⟨hver, -, muk, hmuk, hw⟩ := (unlockAccount_ok hS).mp h
  obtain ⟨muk', hmuk'⟩ := deriveMuk_takes hS hmuk h0
  have hk : muk' ≠ muk := fun e => hne (deriveMuk_inj hS hmuk' (e ▸ hmuk)).2
  unfold unlockAccount
  rw [hver, (deriveMuk_ok.mp hmuk).2.1, hmuk']
  show (unwrapKey S muk' ks.wrappedArk _ >>= _) = _
  rw [unwrapKey_other hS hw (Or.inl hk)]
  rfl

theorem unlockAccountWithArk_ok (hS : S.Ideal) {ark : Arr β 32} {ks : AccountKeySet β} {a : UnlockedAccount β} :
    unlockAccountWithArk S ark ks = .ok a ↔ a.accountId = ks.accountId ∧ a.ark = ark ∧
      ∃ e kek, ks.vaults.head? = some e ∧ Wraps S ark kek (aadForVaultKek ks.accountId e.vaultId) e.wrappedKek := by
  simp only [unlockAccountWithArk, except_bind_ok, tryFromSlice_toList]
  constructor
  · rintro ⟨ark', hark, h⟩
    cases hark
    cases he : ks.vaults.head? with
    | none => rw [he] at h; cases h
    | some e =>
      rw [he] at h
      simp only [except_bind_ok, except_pure_ok, unwrapKey_ok hS] at h
      obtain ⟨kek, hk, rfl⟩ := h
      exact ⟨rfl, rfl, e, kek, rfl, hk⟩
  · rintro ⟨ha, rfl, e, kek, he, hk⟩
    refine ⟨a.ark, rfl, ?_⟩
    rw [he]
    simp only [except_bind_ok, except_pure_ok, unwrapKey_ok hS]
    exact ⟨kek, hk, UnlockedAccount.ext ha.symm rfl⟩

theorem unlockAccountVault_ok (hS : S.Ideal) {a : UnlockedAccount β} {e : AccountVaultEntry β} {s : VaultKeySlot β}
    {v : UnlockedVault β} : unlockAccountVault S a e s = .ok v ↔
      checkVersion accountFormatVersion accountMinReadableVersion s.version = .ok () ∧ Mounts S a e s v := by
  unfold unlockAccountVault
  split
  · rename_i hid
    simp only [except_bind_ok]
    refine ⟨fun ⟨_, _, h⟩ => (by cases h), fun h => ?_⟩
    rcases hid with hid | hid
    · exact absurd h.2.slotAccount hid
    · exact absurd h.2.slotVault hid
  · rename_i hid
    simp only [ne_eq, not_or, not_not] at hid
    simp only [except_bind_ok, unlockBelow_ok hS, unwrapKey_ok hS]
    constructor
    · rintro ⟨⟨⟩, hver, kek, hk, ha, hv, rfl, hb⟩
      exact ⟨hver, ha, hv.trans hid.2, hid.1, hid.2, hk, hb⟩
    · rintro ⟨hver, h⟩
      exact ⟨(), hver, v.kek, h.kek, h.account, h.vault.trans hid.2.symm, rfl, h.below⟩

theorem createAccount_ok {pw : String} {r : AccountKeys β} {n n' : Nat} (h : createAccount S pw n = .ok (r, n')) :
    ∃ kdf muk wa, r.encrypted = { version := accountFormatVersion, accountId := r.unlocked.accountId, createdAt := 0,
                                  kdf := kdf, wrappedArk := wa, wrappedArkRecovery := none, vaults := [] } ∧
      deriveMuk S pw kdf = .ok muk ∧ Wraps S muk r.unlocked.ark (aadForArk r.unlocked.accountId kdf) wa ∧
      n < n' ∧ Drawn S n n' r.unlocked.ark := by
  unfold createAccount at h
  split at h
  · exact (Draws.throw_ok.mp h).elim
  · simp only [Draws.bind_ok, Draws.pure_ok, Draws.lift_ok, randomBytes_ok, randomKey_ok,
      KdfParams.generateDefault_ok, wrapKey_ok] at h
    obtain ⟨a, _, ⟨-, rfl⟩, kdf, _, ⟨-, rfl, -⟩, muk, _, ⟨hmuk, rfl⟩, ark, _, ⟨hark, rfl⟩, wa, _, ⟨-, hw, rfl⟩,
      rfl, rfl⟩ := h
    exact ⟨kdf, muk, wa, rfl, hmuk, hw, by omega, _, by omega, by omega, hark⟩

theorem createVaultUnderAccount_ok {a : UnlockedAccount β} {r : VaultUnderAccount β} {n n' : Nat}
    (h : createVaultUnderAccount S a n = .ok (r, n')) :
    r.slot.version = accountFormatVersion ∧ Mounts S a r.entry r.slot r.unlocked ∧ n < n' ∧
      Drawn S n n' r.unlocked.kek ∧ Drawn S n n' r.unlocked.vmk ∧ Drawn S n n' r.unlocked.ikek := by
  simp only [createVaultUnderAccount, Draws.bind_ok, Draws.pure_ok, randomBytes_ok, randomKey_ok, wrapKey_ok] at h
  obtain ⟨v, _, ⟨-, rfl⟩, kek, _, ⟨hkek, rfl⟩, vmk, _, ⟨hvmk, rfl⟩, ikek, _, ⟨hikek, rfl⟩, wk, _, ⟨-, hk, rfl⟩, wv, _,
    ⟨-, hv, rfl⟩, wi, _, ⟨-, hi, rfl⟩, rfl, rfl⟩ := h
  exact ⟨rfl, ⟨rfl, rfl, rfl, rfl, hk, hv, hi⟩, by omega, ⟨_, by omega, by omega, hkek⟩, ⟨_, by omega, by omega, hvmk⟩,
    ⟨_, by omega, by omega, hikek⟩⟩

theorem changeAccountPassword_ok {old new : String} {ks next : AccountKeySet β} {n n' : Nat}
    (h : changeAccountPassword S old new ks n = .ok (next, n')) :
    ∃ a muk, unlockAccount S old ks = .ok a ∧ deriveMuk S new next.kdf = .ok muk ∧
      Wraps S muk a.ark (aadForArk ks.accountId next.kdf) next.wrappedArk ∧
      next = { ks with kdf := next.kdf, wrappedArk := next.wrappedArk } ∧ n < n' := by
  unfold changeAccountPassword at h
  split at h
  · exact (Draws.throw_ok.mp h).elim
  · simp only [Draws.bind_ok, Draws.pure_ok, Draws.lift_ok, KdfParams.generateDefault_ok, wrapKey_ok] at h
    obtain ⟨a, _, ⟨ha, rfl⟩, kdf, _, ⟨-, rfl, -⟩, muk, _, ⟨hmuk, rfl⟩, wa, _, ⟨-, hw, rfl⟩, rfl, rfl⟩ := h
    exact ⟨a, muk, ha, hmuk, hw, rfl, by omega⟩

/-- The new password opens the new keyset to what the old one opened the old keyset to. -/
theorem changeAccountPassword_opens (hS : S.Ideal) {old new : String} {ks next : AccountKeySet β} {n n' : Nat}
    (h : changeAccountPassword S old new ks n = .ok (next, n')) :
    ∃ a, unlockAccount S old ks = .ok a ∧ unlockAccount S new next = .ok a ∧ next.vaults = ks.vaults := by
  obtain ⟨a, muk, ha, hmuk, hw, hks, -⟩ := changeAccountPassword_ok h
  obtain ⟨hver, hid, -⟩ := (unlockAccount_ok hS).mp ha
  refine ⟨a, ha, ?_, by rw [hks]⟩
  rw [unlockAccount_ok hS, hks]
  exact ⟨hver, hid, muk, hmuk, hw⟩

/-- The same KEK, under another root key. -/
def Rewrapped (S : Suite β) (accountId : Id) (ark ark' : AccountRootKey β) (e e' : AccountVaultEntry β) : Prop :=
  e'.vaultId = e.vaultId ∧ ∃ kek, Wraps S ark kek (aadForVaultKek accountId e.vaultId) e.wrappedKek ∧
    Wraps S ark' kek (aadForVaultKek accountId e.vaultId) e'.wrappedKek

/-- A re-wrapped entry mounts the same handle, under the new root key. -/
theorem Mounts.rewrapped (hS : S.Ideal) {a a' : UnlockedAccount β} {e e' : AccountVaultEntry β} {s : VaultKeySlot β}
    {v : UnlockedVault β} (h : Mounts S a e s v) (ha : a'.accountId = a.accountId)
    (hr : Rewrapped S a.accountId a.ark a'.ark e e') : Mounts S a' e' s v := by
  obtain ⟨hv, kek, hk, hk'⟩ := hr
  obtain ⟨-, -, rfl⟩ := hk.unique hS h.kek
  refine ⟨h.account.trans ha.symm, h.vault.trans hv.symm, h.slotAccount.trans ha.symm, h.slotVault.trans hv.symm, ?_,
    h.below⟩
  rw [ha, hv]
  exact hk'

theorem rewrapEntry_ok (hS : S.Ideal) {accountId : Id} {ark ark' : AccountRootKey β} {e e' : AccountVaultEntry β}
    {n n' : Nat} (h : rewrapEntry S accountId ark ark' e n = .ok (e', n')) :
    Rewrapped S accountId ark ark' e e' ∧ n < n' := by
  simp only [rewrapEntry, Draws.bind_ok, Draws.pure_ok, Draws.lift_ok, wrapKey_ok, unwrapKey_ok hS] at h
  obtain ⟨kek, _, ⟨hk, rfl⟩, w, _, ⟨-, hw, rfl⟩, rfl, rfl⟩ := h
  exact ⟨⟨rfl, kek, hk, hw⟩, by omega⟩

theorem rotateAccountRootKey_ok (hS : S.Ideal) {pw : String} {ks next : AccountKeySet β} {a' : UnlockedAccount β}
    {n n' : Nat} (h : rotateAccountRootKey S pw ks n = .ok ((next, a'), n')) :
    ∃ a muk, unlockAccount S pw ks = .ok a ∧ a'.accountId = ks.accountId ∧ S.osKey n = some a'.ark ∧
      deriveMuk S pw next.kdf = .ok muk ∧ Wraps S muk a'.ark (aadForArk ks.accountId next.kdf) next.wrappedArk ∧
      List.Forall₂ (Rewrapped S ks.accountId a.ark a'.ark) ks.vaults next.vaults ∧
      next = { ks with kdf := next.kdf, wrappedArk := next.wrappedArk, wrappedArkRecovery := none,
                       vaults := next.vaults } ∧ n < n' := by
  simp only [rotateAccountRootKey, Draws.bind_ok, Draws.pure_ok, Draws.lift_ok, randomKey_ok,
    KdfParams.generateDefault_ok, wrapKey_ok] at h
  obtain ⟨a, _, ⟨ha, rfl⟩, ark, _, ⟨hark, rfl⟩, es, m, hes, kdf, _, ⟨-, rfl, -⟩, muk, _, ⟨hmuk, rfl⟩, wa, _,
    ⟨-, hw, rfl⟩, h, rfl⟩ := h
  cases h
  have hf : ∀ e, (rewrapEntry S ks.accountId a.ark ark e).Forward :=
    fun e i e' j he => Nat.le_of_lt (rewrapEntry_ok hS he).2
  obtain ⟨hle, hall⟩ := Draws.each_ok hf hes
  refine ⟨a, muk, ha, rfl, hark, hmuk, hw, hall.imp fun e e' he => ?_, rfl, by omega⟩
  obtain ⟨i, j, -, -, -, he⟩ := he
  exact (rewrapEntry_ok hS he).1

/-- The new root key is under the same password. -/
theorem rotateAccountRootKey_derives {pw : String} {ks next : AccountKeySet β} {a : UnlockedAccount β} {n n' : Nat}
    (h : rotateAccountRootKey S pw ks n = .ok ((next, a), n')) : ∃ muk, deriveMuk S pw next.kdf = .ok muk := by
  simp only [rotateAccountRootKey, Draws.bind_ok, Draws.pure_ok, Draws.lift_ok] at h
  obtain ⟨_, _, -, _, _, -, _, _, -, kdf, _, -, muk, _, ⟨hmuk, -⟩, _, _, -, h, -⟩ := h
  cases h
  exact ⟨muk, hmuk⟩

theorem rotateAccountRootKey_opens (hS : S.Ideal) {pw : String} {ks next : AccountKeySet β} {a' : UnlockedAccount β}
    {n n' : Nat} (h : rotateAccountRootKey S pw ks n = .ok ((next, a'), n')) :
    ∃ a, unlockAccount S pw ks = .ok a ∧ unlockAccount S pw next = .ok a' ∧ a'.accountId = a.accountId ∧
      List.Forall₂ (Rewrapped S a.accountId a.ark a'.ark) ks.vaults next.vaults := by
  obtain ⟨a, muk, ha, hid', -, hmuk, hw, hall, hks, -⟩ := rotateAccountRootKey_ok hS h
  obtain ⟨hver, hid, -⟩ := (unlockAccount_ok hS).mp ha
  refine ⟨a, ha, ?_, hid'.trans hid.symm, hid ▸ hall⟩
  rw [unlockAccount_ok hS, hks]
  exact ⟨hver, hid', muk, hmuk, hw⟩

/-- One vault of a re-key: the old keys opened from the entry of the slot's vault, the new
    ones drawn and wrapped under the new root key. -/
structure Rekeyed (S : Suite β) (ks : AccountKeySet β) (old new : UnlockedAccount β) (n n' : Nat) (s : VaultKeySlot β)
    (r : RekeyedVault β) : Prop where
  old : ∃ e ∈ ks.vaults, e.vaultId = s.vaultId ∧ unlockAccountVault S old e s = .ok r.old
  vault : r.entry.vaultId = s.vaultId
  version : r.slot.version = accountFormatVersion
  mounts : Mounts S new r.entry r.slot r.new
  fresh : Drawn S n n' r.new.kek ∧ Drawn S n n' r.new.vmk ∧ Drawn S n n' r.new.ikek

theorem rekeyVault_ok {ks : AccountKeySet β} {old new : UnlockedAccount β} {s : VaultKeySlot β} {r : RekeyedVault β}
    {n n' : Nat} (ha : new.accountId = ks.accountId) (h : rekeyVault S ks old new s n = .ok (r, n')) :
    Rekeyed S ks old new n n' s r ∧ n < n' := by
  unfold rekeyVault at h
  cases he : ks.vaults.find? (fun e => e.vaultId = s.vaultId) with
  | none => rw [he] at h; exact (Draws.throw_ok.mp h).elim
  | some e =>
    have hid : e.vaultId = s.vaultId := by simpa using List.find?_some he
    rw [he] at h
    simp only [Draws.bind_ok, Draws.pure_ok, Draws.lift_ok, randomKey_ok, wrapKey_ok, ← ha] at h
    obtain ⟨v, _, ⟨hv, rfl⟩, kek, _, ⟨hkek, rfl⟩, vmk, _, ⟨hvmk, rfl⟩, ikek, _, ⟨hikek, rfl⟩, wk, _, ⟨-, hwk, rfl⟩,
      wv, _, ⟨-, hwv, rfl⟩, wi, _, ⟨-, hwi, rfl⟩, rfl, rfl⟩ := h
    refine ⟨⟨⟨e, List.mem_of_find?_eq_some he, hid, hv⟩, rfl, rfl, ⟨rfl, rfl, rfl, rfl, hwk, hwv, hwi⟩, ?_⟩, by omega⟩
    exact ⟨⟨_, Nat.le_refl _, by omega, hkek⟩, ⟨_, by omega, by omega, hvmk⟩, ⟨_, by omega, by omega, hikek⟩⟩

theorem rekeyAccount_ok {old new : String} {ks : AccountKeySet β} {slots : List (VaultKeySlot β)}
    {r : RekeyedAccount β} {n n' : Nat} (h : rekeyAccount S old new ks slots n = .ok (r, n')) :
    ∃ a muk, unlockAccount S old ks = .ok a ∧ r.unlocked.accountId = ks.accountId ∧
      S.osKey n = some r.unlocked.ark ∧ deriveMuk S new r.encrypted.kdf = .ok muk ∧
      Wraps S muk r.unlocked.ark (aadForArk ks.accountId r.encrypted.kdf) r.encrypted.wrappedArk ∧
      r.encrypted = { version := accountFormatVersion, accountId := ks.accountId, createdAt := ks.createdAt,
                      kdf := r.encrypted.kdf, wrappedArk := r.encrypted.wrappedArk, wrappedArkRecovery := none,
                      vaults := r.vaults.map (·.entry) } ∧
      List.Forall₂ (Rekeyed S ks a r.unlocked (n + 1) n') slots r.vaults ∧ n < n' := by
  unfold rekeyAccount at h
  split at h
  · exact (Draws.throw_ok.mp h).elim
  · simp only [Draws.bind_ok, Draws.lift_ok] at h
    obtain ⟨a, _, ⟨ha, rfl⟩, h⟩ := h
    split at h
    · exact (Draws.throw_ok.mp h).elim
    · simp only [Draws.bind_ok, Draws.pure_ok, Draws.lift_ok, randomKey_ok, KdfParams.generateDefault_ok,
        wrapKey_ok] at h
      obtain ⟨ark, _, ⟨hark, rfl⟩, kdf, _, ⟨-, rfl, -⟩, muk, _, ⟨hmuk, rfl⟩, wa, _, ⟨-, hw, rfl⟩, rs, m, hrs, h, rfl⟩ := h
      subst h
      have hf : ∀ s, (rekeyVault S ks a { accountId := ks.accountId, ark := ark } s).Forward :=
        fun s i r j hr => Nat.le_of_lt (rekeyVault_ok rfl hr).2
      obtain ⟨hle, hall⟩ := Draws.each_ok hf hrs
      refine ⟨a, muk, ha, rfl, hark, hmuk, hw, rfl, hall.imp fun s r hr => ?_, by omega⟩
      obtain ⟨i, j, hi, -, hj, hr⟩ := hr
      obtain ⟨hr, -⟩ := rekeyVault_ok rfl hr
      obtain ⟨hk, hv, hik⟩ := hr.fresh
      exact ⟨hr.old, hr.vault, hr.version, hr.mounts, hk.widen (by omega) (by omega), hv.widen (by omega) (by omega),
        hik.widen (by omega) (by omega)⟩

/-- What the call checked before it drew anything, and the loop it then ran. -/
theorem rekeyAccount_run {old new : String} {ks : AccountKeySet β} {slots : List (VaultKeySlot β)}
    {r : RekeyedAccount β} {n n' : Nat} (h : rekeyAccount S old new ks slots n = .ok (r, n')) :
    slots.length = ks.vaults.length ∧ (∀ e ∈ ks.vaults, ∃ s ∈ slots, s.vaultId = e.vaultId) ∧
      ∃ a m, unlockAccount S old ks = .ok a ∧ Draws.each (rekeyVault S ks a r.unlocked) slots m = .ok (r.vaults, n') := by
  unfold rekeyAccount at h
  split at h
  · exact (Draws.throw_ok.mp h).elim
  · simp only [Draws.bind_ok, Draws.lift_ok] at h
    obtain ⟨a, _, ⟨ha, rfl⟩, h⟩ := h
    split at h
    · exact (Draws.throw_ok.mp h).elim
    · rename_i hguard
      simp only [not_or, ne_eq, not_not] at hguard
      simp only [Draws.bind_ok, Draws.pure_ok, Draws.lift_ok] at h
      obtain ⟨ark, _, -, kdf, _, -, muk, _, -, wa, _, -, rs, m, hrs, h, rfl⟩ := h
      subst h
      refine ⟨hguard.1, ?_, a, _, ha, hrs⟩
      intro e he
      have hany := List.all_eq_true.mp hguard.2 e he
      simpa using hany

/-- No two re-keyed vaults have one KEK. -/
theorem rekeyAccount_apart (hS : S.Ideal) {old new : String} {ks : AccountKeySet β} {slots : List (VaultKeySlot β)}
    {r : RekeyedAccount β} {n n' : Nat} (h : rekeyAccount S old new ks slots n = .ok (r, n')) :
    r.vaults.Pairwise fun x y => x.new.kek ≠ y.new.kek := by
  obtain ⟨a₀, muk, ha₀, hid, -⟩ := rekeyAccount_ok h
  obtain ⟨-, -, a, m, ha, hrun⟩ := rekeyAccount_run h
  have hf : ∀ s, (rekeyVault S ks a r.unlocked s).Forward :=
    fun s i x j hx => Nat.le_of_lt (rekeyVault_ok hid hx).2
  refine (Draws.each_apart hf hrun).imp ?_
  intro x y hxy heq
  obtain ⟨s, i, j, s', k, l, hx, hy, hle⟩ := hxy
  obtain ⟨p, -, hp, hpk⟩ := (rekeyVault_ok hid hx).1.fresh.1
  obtain ⟨q, hq, -, hqk⟩ := (rekeyVault_ok hid hy).1.fresh.1
  rw [heq] at hpk
  have := hS.key_fresh hpk hqk
  omega

theorem rekeyAccount_opens (hS : S.Ideal) {old new : String} {ks : AccountKeySet β} {slots : List (VaultKeySlot β)}
    {r : RekeyedAccount β} {n n' : Nat} (h : rekeyAccount S old new ks slots n = .ok (r, n')) :
    unlockAccount S new r.encrypted = .ok r.unlocked := by
  obtain ⟨a, muk, -, hid, -, hmuk, hw, henc, -⟩ := rekeyAccount_ok h
  rw [unlockAccount_ok hS, henc]
  exact ⟨account_readable, hid, muk, hmuk, hw⟩

theorem enableAccountBiometric_ok {a : UnlockedAccount β} {r : AccountBiometricSetup β} {n n' : Nat}
    (h : enableAccountBiometric S a n = .ok (r, n')) :
    r.envelope.version = accountFormatVersion ∧ r.envelope.accountId = a.accountId ∧
      Wraps S r.wrapperKey a.ark (aadForAccountBiometric a.accountId) r.envelope.wrappedArk ∧ n < n' ∧
      Drawn S n n' r.wrapperKey := by
  simp only [enableAccountBiometric, Draws.bind_ok, Draws.pure_ok, Draws.lift_ok, randomKey_ok, wrapKey_ok,
    tryFromSlice_toList] at h
  obtain ⟨w, _, ⟨hdraw, rfl⟩, w', _, ⟨hw, rfl⟩, wk, _, ⟨-, hk, rfl⟩, rfl, rfl⟩ := h
  cases hw
  exact ⟨rfl, rfl, hk, by omega, _, Nat.le_refl _, by omega, hdraw⟩

theorem unlockAccountViaBiometric_ok (hS : S.Ideal) {w : Arr β 32} {e : AccountBiometricEnvelope β}
    {ks : AccountKeySet β} {a : UnlockedAccount β} : unlockAccountViaBiometric S w e ks = .ok a ↔
      checkVersion accountFormatVersion accountMinReadableVersion e.version = .ok () ∧ e.accountId = ks.accountId ∧
        a.accountId = ks.accountId ∧ Wraps S w a.ark (aadForAccountBiometric ks.accountId) e.wrappedArk := by
  unfold unlockAccountViaBiometric
  split
  · rename_i hid
    simp only [except_bind_ok]
    exact ⟨fun ⟨_, _, h⟩ => (by cases h), fun h => absurd h.2.1 hid⟩
  · rename_i hid
    simp only [except_bind_ok, except_pure_ok, tryFromSlice_toList, unwrapKey_ok hS]
    constructor
    · rintro ⟨⟨⟩, hver, w', hw, ark, hk, rfl⟩
      cases hw
      exact ⟨hver, by simpa using hid, rfl, hk⟩
    · rintro ⟨hver, -, ha, hk⟩
      exact ⟨(), hver, w, rfl, a.ark, hk, UnlockedAccount.ext ha.symm rfl⟩

/-! ## A trace -/

/-- A new account. -/
def demoAccount : AccountKeys Term × Nat := okVal (createAccount demo.suite "a" 0) (by decide +kernel)

theorem demoAccount_created : createAccount demo.suite "a" 0 = .ok (demoAccount.1, demoAccount.2) := okVal_eq _

/-- Its first vault. -/
def demoMount : VaultUnderAccount Term × Nat :=
  okVal (createVaultUnderAccount demo.suite demoAccount.1.unlocked demoAccount.2) (by decide +kernel)

theorem demoMount_created : createVaultUnderAccount demo.suite demoAccount.1.unlocked demoAccount.2 =
    .ok (demoMount.1, demoMount.2) := okVal_eq _

/-- The keyset with that vault. -/
def demoKeyset : AccountKeySet Term := { demoAccount.1.encrypted with vaults := [demoMount.1.entry] }

/-- And with the vault named twice. -/
def demoTwice : AccountKeySet Term := { demoKeyset with vaults := [demoMount.1.entry, demoMount.1.entry] }

end RootkeyCrypto
