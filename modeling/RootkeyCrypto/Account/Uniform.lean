/-
  RootkeyCrypto.Account.Uniform — which errors an opening function tells apart.

  A wrong secret and a damaged record are to give one error, `DecryptFailed`. A wrapped key
  that authenticates is then turned into a 32-byte key, and a plaintext of another length
  is reported as `InvalidArgument`; whoever holds the wrapping key can make one.

  Proved, over every suite, every opening function and every content of the records:
  - `uniform_iff`: the only error is `decryptFailed` exactly when every wrapped key the
    function reaches holds 32 bytes, if it authenticates at all (`Sized`); so two runs of
    such openings that fail give one error.
  - `a_short_item_key`: an item key of 31 bytes, sealed by a holder of the IKEK, gives
    another.
-/

import RootkeyCrypto.Account.Formats

namespace RootkeyCrypto

open Lib

variable {β : Type} (S : Suite β)

/-- If the wrapped key authenticates, it holds 32 bytes, and `next` is true of them. -/
def SizedKey (k : SymmetricKey β) (w : WrappedKey β) (aad : List UInt8) (next : SymmetricKey β → Prop) : Prop :=
  ∀ plaintext, S.aesGcmSiv.decrypt k w.nonce aad w.ciphertext = some plaintext →
    ∃ key : SymmetricKey β, plaintext = key.toList ∧ next key

/-- The same of the two keys below a KEK. -/
def SizedBelow (accountId vaultId : Id) (kek : KeyEncryptionKey β) (wrappedVmk wrappedIkek : WrappedKey β) : Prop :=
  SizedKey S kek wrappedVmk (aadForVmk accountId vaultId) fun vmk =>
    SizedKey S vmk wrappedIkek (aadForIkek vaultId) fun _ => True

namespace Reader

/-- An opening function, given a record it can read and a secret of the right form. -/
def Ready : Reader β → Prop
  | unlockVault pw ks =>
    checkVersion keysetFormatVersion keysetMinReadableVersion ks.version = .ok () ∧ ∃ muk, deriveMuk S pw ks.kdf = .ok muk
  | unlockViaBiometric _ env _ => checkVersion keysetFormatVersion keysetMinReadableVersion env.version = .ok ()
  | unlockAccount pw ks =>
    checkVersion accountFormatVersion accountMinReadableVersion ks.version = .ok () ∧
      ∃ muk, deriveMuk S pw ks.kdf = .ok muk
  | unlockAccountVault _ _ slot => checkVersion accountFormatVersion accountMinReadableVersion slot.version = .ok ()
  | unlockAccountWithRecoveryKey rk ks =>
    checkVersion accountFormatVersion accountMinReadableVersion ks.version = .ok () ∧
      (∃ w, ks.wrappedArkRecovery = some w) ∧ ∃ raw, normalizeRecoveryKey rk = .ok raw
  | unlockAccountViaBiometric _ env _ =>
    checkVersion accountFormatVersion accountMinReadableVersion env.version = .ok ()
  | decryptItem x _ _ => checkVersion itemFormatVersion itemMinReadableVersion x.version = .ok ()
  | _ => False

/-- Every wrapped key on the function's way holds 32 bytes, if it authenticates. -/
def Sized : Reader β → Prop
  | unlockVault pw ks => ∀ muk, deriveMuk S pw ks.kdf = .ok muk →
    SizedKey S muk ks.wrappedKek (aadForKek ks.accountId ks.vaultId ks.kdf) fun kek =>
      SizedBelow S ks.accountId ks.vaultId kek ks.wrappedVmk ks.wrappedIkek
  | unlockViaBiometric w env ks => env.vaultId = ks.vaultId →
    SizedKey S w env.wrappedKek (aadForBiometric ks.vaultId) fun kek =>
      SizedBelow S ks.accountId ks.vaultId kek ks.wrappedVmk ks.wrappedIkek
  | unlockAccount pw ks => ∀ muk, deriveMuk S pw ks.kdf = .ok muk →
    SizedKey S muk ks.wrappedArk (aadForArk ks.accountId ks.kdf) fun _ => True
  | unlockAccountVault a entry slot => slot.accountId = a.accountId ∧ slot.vaultId = entry.vaultId →
    SizedKey S a.ark entry.wrappedKek (aadForVaultKek a.accountId entry.vaultId) fun kek =>
      SizedBelow S a.accountId slot.vaultId kek slot.wrappedVmk slot.wrappedIkek
  | unlockAccountWithRecoveryKey rk ks => ∀ w raw, ks.wrappedArkRecovery = some w →
    normalizeRecoveryKey rk = .ok raw →
      SizedKey S (recoveryKekFrom S raw ks.accountId) w (aadForRecovery ks.accountId) fun _ => True
  | unlockAccountViaBiometric w env ks => env.accountId = ks.accountId →
    SizedKey S w env.wrappedArk (aadForAccountBiometric ks.accountId) fun _ => True
  | decryptItem x id v => SizedKey S v.ikek x.wrappedItemKey (aadForItemKey v.vaultId id) fun _ => True
  | _ => True

/-- The function succeeds or fails with `decryptFailed`. -/
def Uniform (r : Reader β) : Prop := ∀ e, r.Fails S e → e = .decryptFailed

end Reader

variable {S}

/-! ## Chains of unwrapping -/

/-- The computation has no other error. -/
def OnlyDecryptFailed {α : Type} (x : Except CryptoError α) : Prop := ∀ e, x = .error e → e = .decryptFailed

section Chains

variable {α : Type}

theorem onlyDecryptFailed_ok (a : α) : OnlyDecryptFailed (.ok a) := by
  intro e h
  cases h

theorem onlyDecryptFailed_fail : OnlyDecryptFailed (.error .decryptFailed : Except CryptoError α) := by
  intro e h
  cases h
  rfl

theorem onlyDecryptFailed_openBlob (k : SymmetricKey β) (b : SealedBlob β) (a : List UInt8) :
    OnlyDecryptFailed (openBlob S k b a) := by
  unfold openBlob
  split
  · exact onlyDecryptFailed_ok _
  · exact onlyDecryptFailed_fail

/-- One step of a chain: the wrapped key fails to authenticate, or holds no key, or the
    rest of the chain goes on with the key it holds. -/
theorem unwrapKey_only {k : SymmetricKey β} {w : WrappedKey β} {a : List UInt8}
    {f : SymmetricKey β → Except CryptoError α} {next : SymmetricKey β → Prop}
    (hf : ∀ key, OnlyDecryptFailed (f key) ↔ next key) :
    OnlyDecryptFailed (unwrapKey S k w a >>= f) ↔ SizedKey S k w a next := by
  unfold unwrapKey SizedKey
  cases hd : S.aesGcmSiv.decrypt k w.nonce a w.ciphertext with
  | none =>
    refine ⟨fun _ p hp => (by cases hp), fun _ => ?_⟩
    exact onlyDecryptFailed_fail
  | some p =>
    show OnlyDecryptFailed (tryFromSlice p >>= f) ↔ _
    cases hp : Arr.ofList? 32 p with
    | none =>
      -- The key check has an error of its own.
      have htry : tryFromSlice p = .error (.invalidArgument "symmetric key must be 32 bytes") := by
        rw [tryFromSlice, hp]
      rw [htry]
      constructor
      · intro h
        have := h _ rfl
        cases this
      · intro h
        obtain ⟨key, hkey, -⟩ := h p rfl
        rw [hkey, Arr.ofList?_toList] at hp
        cases hp
    | some key =>
      have hkey := Arr.ofList?_eq_some.mp hp
      rw [hkey, tryFromSlice_toList]
      show OnlyDecryptFailed (f key) ↔ _
      rw [hf key]
      constructor
      · intro h q hq
        cases hq
        exact ⟨key, rfl, h⟩
      · intro h
        obtain ⟨key', hkey', hnext⟩ := h _ rfl
        rw [Arr.toList_inj.mp hkey']
        exact hnext

theorem unlockBelow_only {a v : Id} {kek : KeyEncryptionKey β} {wv wi : WrappedKey β} :
    OnlyDecryptFailed (unlockBelow S a v kek wv wi) ↔ SizedBelow S a v kek wv wi := by
  refine unwrapKey_only fun vmk => unwrapKey_only fun ikek => ?_
  exact ⟨fun _ => trivial, fun _ => onlyDecryptFailed_ok _⟩

end Chains

/-! ## Every opening function -/

/-- A chain with one link. -/
theorem unwrapKey_last {α : Type} {k : SymmetricKey β} {w : WrappedKey β} {a : List UInt8}
    {f : SymmetricKey β → Except CryptoError α} (hf : ∀ key, OnlyDecryptFailed (f key)) :
    OnlyDecryptFailed (unwrapKey S k w a >>= f) ↔ SizedKey S k w a fun _ => True :=
  unwrapKey_only fun key => ⟨fun _ => trivial, fun _ => hf key⟩

/-- A function that first compares ids fails alike when they differ. -/
theorem compared_only {α : Type} {c : Prop} [Decidable c] {x : Except CryptoError α} {sized : Prop}
    (hx : OnlyDecryptFailed x ↔ sized) :
    OnlyDecryptFailed (if c then .error .decryptFailed else x) ↔ (¬ c → sized) := by
  split
  · rename_i h
    exact ⟨fun _ hc => absurd h hc, fun _ => onlyDecryptFailed_fail⟩
  · rename_i h
    rw [hx]
    exact ⟨fun hs _ => hs, fun hs => hs h⟩

/-- The only error is `decryptFailed` exactly when every wrapped key on the way holds 32
    bytes. -/
theorem uniform_of_ready (r : Reader β) (h : r.Ready S) : r.Uniform S ↔ r.Sized S := by
  cases r with
  | unlockVault pw ks =>
    obtain ⟨hver, muk, hmuk⟩ := h
    show OnlyDecryptFailed (unlockVault S pw ks) ↔ ∀ muk, deriveMuk S pw ks.kdf = .ok muk → _
    unfold unlockVault
    rw [hver, (deriveMuk_ok.mp hmuk).2.1, hmuk]
    refine Iff.trans (unwrapKey_only fun kek => unlockBelow_only) ?_
    constructor
    · intro hs muk' hmuk'
      cases hmuk'
      exact hs
    · intro hs
      exact hs muk rfl
  | unlockViaBiometric w env ks =>
    show OnlyDecryptFailed (unlockViaBiometric S w env ks) ↔ (env.vaultId = ks.vaultId → _)
    unfold unlockViaBiometric
    rw [h, tryFromSlice_toList]
    refine Iff.trans (compared_only (unwrapKey_only fun kek => unlockBelow_only)) ?_
    rw [ne_eq, not_not]
  | unlockAccount pw ks =>
    obtain ⟨hver, muk, hmuk⟩ := h
    show OnlyDecryptFailed (unlockAccount S pw ks) ↔ ∀ muk, deriveMuk S pw ks.kdf = .ok muk → _
    unfold unlockAccount
    rw [hver, (deriveMuk_ok.mp hmuk).2.1, hmuk]
    refine Iff.trans (unwrapKey_last fun ark => onlyDecryptFailed_ok _) ?_
    constructor
    · intro hs muk' hmuk'
      cases hmuk'
      exact hs
    · intro hs
      exact hs muk rfl
  | unlockAccountVault a entry slot =>
    show OnlyDecryptFailed (unlockAccountVault S a entry slot) ↔
      (slot.accountId = a.accountId ∧ slot.vaultId = entry.vaultId → _)
    unfold unlockAccountVault
    rw [h]
    refine Iff.trans (compared_only (unwrapKey_only fun kek => unlockBelow_only)) ?_
    rw [ne_eq, ne_eq, not_or, not_not, not_not]
  | unlockAccountWithRecoveryKey rk ks =>
    obtain ⟨hver, ⟨w, hw⟩, raw, hraw⟩ := h
    show OnlyDecryptFailed (unlockAccountWithRecoveryKey S rk ks) ↔
      ∀ w raw, ks.wrappedArkRecovery = some w → normalizeRecoveryKey rk = .ok raw → _
    unfold unlockAccountWithRecoveryKey
    rw [hver, hw, hraw]
    refine Iff.trans (unwrapKey_last fun ark => onlyDecryptFailed_ok _) ?_
    constructor
    · intro hs w' raw' hw' hraw'
      cases hw'
      cases hraw'
      exact hs
    · intro hs
      exact hs w raw rfl rfl
  | unlockAccountViaBiometric w env ks =>
    show OnlyDecryptFailed (unlockAccountViaBiometric S w env ks) ↔ (env.accountId = ks.accountId → _)
    unfold unlockAccountViaBiometric
    rw [h, tryFromSlice_toList]
    refine Iff.trans (compared_only (unwrapKey_last fun ark => onlyDecryptFailed_ok _)) ?_
    rw [ne_eq, not_not]
  | decryptItem x id v =>
    show OnlyDecryptFailed (decryptItem S x id v) ↔ _
    unfold decryptItem
    rw [h]
    exact unwrapKey_last fun key => onlyDecryptFailed_openBlob _ _ _
  | _ => exact h.elim

/-- An opening function tells nothing apart exactly when every wrapped key it reaches holds
    32 bytes; two runs of such openings that fail give one error. -/
theorem uniform_iff (r : Reader β) (h : r.Ready S) :
    (r.Uniform S ↔ r.Sized S) ∧
      (r.Sized S → ∀ r' : Reader β, r'.Ready S → r'.Sized S →
        ∀ e e', r.Fails S e → r'.Fails S e' → e = e') := by
  refine ⟨uniform_of_ready r h, ?_⟩
  intro hs r' h' hs' e e' he he'
  rw [(uniform_of_ready r h).mpr hs e he, (uniform_of_ready r' h').mpr hs' e' he']

/-! ## Traces -/

/-- The item of the new vault holds a key of 32 bytes, so its errors are uniform. -/
theorem uniform_iff_item :
    (Reader.decryptItem demoItem.1 (.replicate 16 1) demoVault.1.unlocked).Uniform demo.suite := by
  obtain ⟨hver, -, k, -, hw, -⟩ := encryptItem_ok demoItem_encrypted
  refine (uniform_iff (.decryptItem demoItem.1 (.replicate 16 1) demoVault.1.unlocked) ?_).1.mpr ?_
  · show checkVersion _ _ demoItem.1.version = _
    rw [hver, item_readable]
  · intro p hp
    rw [demo.suite_ideal.aes.opens hw] at hp
    cases hp
    exact ⟨k, rfl, trivial⟩

/-- A holder of the IKEK wraps 31 bytes for the item. -/
def shortItemKey : Option (List Term) :=
  demo.suite.aesGcmSiv.encrypt demoVault.1.unlocked.ikek (.replicate 12 0)
    (aadForItemKey demoVault.1.unlocked.vaultId (.replicate 16 1)) (List.replicate 31 (.lit 0))

def shortItem : EncryptedItemBlob Term :=
  { demoItem.1 with wrappedItemKey := { nonce := .replicate 12 0, ciphertext := shortItemKey.getD [] } }

/-- Under the vault's handle it gives one error, under another handle the other. -/
theorem a_short_item_key :
    decryptItem demo.suite shortItem (.replicate 16 1) demoVault.1.unlocked =
        .error (.invalidArgument "symmetric key must be 32 bytes") ∧
      decryptItem demo.suite shortItem (.replicate 16 1)
        { demoVault.1.unlocked with ikek := demoVault.1.unlocked.vmk } = .error .decryptFailed ∧
      (Reader.decryptItem shortItem (.replicate 16 1) demoVault.1.unlocked).Ready demo.suite ∧
      ¬ (Reader.decryptItem shortItem (.replicate 16 1) demoVault.1.unlocked).Uniform demo.suite := by
  have h : decryptItem demo.suite shortItem (.replicate 16 1) demoVault.1.unlocked =
      .error (.invalidArgument "symmetric key must be 32 bytes") := by decide +kernel
  refine ⟨h, by decide +kernel, rfl, fun hu => ?_⟩
  cases hu _ h

end RootkeyCrypto
