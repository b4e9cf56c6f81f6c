/-
  RootkeyCrypto.Vault.Lifetime — one vault from its creation on.

  A run starts with `create_vault_keys` and encrypts items, wraps the signing seed, enables
  biometrics, changes the password and rotates the VMK and the IKEK, in any order, each
  step given the stored keyset and the latest handle. `rotate_vault_key` is given the
  stored wrapping of the signing seed, and what it returns is stored in its place; after
  `rotate_ikek` every stored item goes through `rewrap_item_key`, which is the caller's
  loop (`rewrapAll`). The state also remembers what is never stored: the seed and the
  plaintexts as they were handed in.

  `Inv`: the keyset and every envelope open to the latest handle, every item opens under
  it, and a seed once wrapped has a stored wrapping that is of it. A VMK rotation changes
  what wraps the IKEK and the seed, an IKEK rotation what wraps the item keys, a password
  change what wraps the KEK; each leaves the rest as it was. `vault_intact` is what follows
  for every run.
-/

import RootkeyCrypto.Core.Item
import RootkeyCrypto.Lib.Symbolic

namespace RootkeyCrypto.VaultLifetime

open Lib

variable {β : Type} {S : Suite β}

/-- An item of the vault: what was encrypted, the payload then, and what is stored now. -/
structure Item (β : Type) where
  id : Id
  plaintext : List β
  payload : SealedBlob β
  stored : EncryptedItemBlob β
  deriving DecidableEq

structure St (β : Type) where
  pos : Nat
  stored : EncryptedKeySet β
  password : String
  handle : UnlockedVault β
  items : List (Item β)
  /-- The signing seed as it was handed in. -/
  seed : Option (Arr β 32)
  wrappedSeed : Option (WrappedKey β)
  biometrics : List (BiometricUnlockSetup β)

/-- Re-wrap one stored item. -/
def rewrapItem (S : Suite β) (old new : UnlockedVault β) (it : Item β) : Draw (Item β) := do
  let e ← rewrapItemKey S old new it.stored it.id
  pure { it with stored := e }

/-- The caller's loop after `rotate_ikek`. -/
def rewrapAll (S : Suite β) (old new : UnlockedVault β) (items : List (Item β)) : Draw (List (Item β)) :=
  Draws.each (rewrapItem S old new) items

/-- A step, and which keys it replaces: the VMK, the IKEK. -/
inductive Step (S : Suite β) : Bool → Bool → St β → St β → Prop
  | encrypt {a : St β} {p id e n n'} (hn : a.pos ≤ n) (h : encryptItem S p id a.handle n = .ok (e, n')) :
      Step S false false a { a with pos := n', items := ⟨id, p, e.blob, e⟩ :: a.items }
  | wrapSeed {a : St β} {seed w n n'} (hn : a.pos ≤ n) (h : wrapSigningSeed S a.handle seed n = .ok (w, n')) :
      Step S false false a { a with pos := n', seed := some seed, wrappedSeed := some w }
  | enableBiometric {a : St β} {b n n'} (hn : a.pos ≤ n) (h : enableBiometricUnlock S a.handle n = .ok (b, n')) :
      Step S false false a { a with pos := n', biometrics := b :: a.biometrics }
  | changePassword {a : St β} {old new ks n n'} (hn : a.pos ≤ n)
      (h : changeMasterPassword S old new a.stored n = .ok (ks, n')) :
      Step S false false a { a with pos := n', stored := ks, password := new }
  | vaultKey {a : St β} {ks v w' n n'} (hn : a.pos ≤ n)
      (h : rotateVaultKey S a.handle a.stored a.wrappedSeed n = .ok ((ks, v, w'), n')) :
      Step S true false a { a with pos := n', stored := ks, handle := v, wrappedSeed := w' }
  | ikek {a : St β} {ks v items n m k n'} (hn : a.pos ≤ n) (h : rotateIkek S a.handle a.stored n = .ok ((ks, v), m))
      (hm : m ≤ k) (hr : rewrapAll S a.handle v a.items k = .ok (items, n')) :
      Step S false true a { a with pos := n', stored := ks, handle := v, items := items }

inductive Run (S : Suite β) : St β → Prop
  | create {pw r n n'} (h : createVaultKeys S pw n = .ok (r, n')) :
      Run S ⟨n', r.encrypted, pw, r.unlocked, [], none, none, []⟩
  | step {vmk ikek} {a b : St β} (ha : Run S a) (h : Step S vmk ikek a b) : Run S b

/-! ## The invariant -/

/-- The stored item is readable, has its first payload, and opens to its plaintext. -/
structure ItemOk (S : Suite β) (v : UnlockedVault β) (it : Item β) : Prop where
  version : it.stored.version = itemFormatVersion
  payload : it.stored.blob = it.payload
  opens : Opens S v it.id it.stored it.plaintext

structure Inv (S : Suite β) (a : St β) : Prop where
  opens : unlockVault S a.password a.stored = .ok a.handle
  biometrics : ∀ b ∈ a.biometrics, unlockViaBiometric S b.wrapperKey b.envelope a.stored = .ok a.handle
  items : ∀ it ∈ a.items, ItemOk S a.handle it
  seed : ∀ s, a.seed = some s → ∃ w, a.wrappedSeed = some w ∧
    Wraps S a.handle.vmk s (aadForSigningSeed a.handle.vaultId) w

/-- Items depend on the vault and the IKEK only. -/
theorem ItemOk.transfer {v v' : UnlockedVault β} {it : Item β} (h : ItemOk S v it) (hv : v'.vaultId = v.vaultId)
    (hi : v'.ikek = v.ikek) : ItemOk S v' it := by
  obtain ⟨k, hw, hs⟩ := h.opens
  refine ⟨h.version, h.payload, k, ?_, ?_⟩
  · rw [hv, hi]; exact hw
  · rw [hv]; exact hs

theorem rewrapItem_ok (hS : S.Ideal) {v v' : UnlockedVault β} {it it' : Item β} {n n' : Nat}
    (hv : v'.vaultId = v.vaultId) (hi : ItemOk S v it) (h : rewrapItem S v v' it n = .ok (it', n')) : ItemOk S v' it' := by
  simp only [rewrapItem, Draws.bind_ok, Draws.pure_ok] at h
  obtain ⟨e, _, he, rfl, -⟩ := h
  obtain ⟨hver, hb, -⟩ := rewrapItemKey_ok hS he
  exact ⟨hver, hb.trans hi.payload, rewrapItemKey_opens hS he hv hi.opens⟩

theorem rewrapItem_forward (hS : S.Ideal) (v v' : UnlockedVault β) (it : Item β) : (rewrapItem S v v' it).Forward := by
  intro n it' n' h
  simp only [rewrapItem, Draws.bind_ok, Draws.pure_ok] at h
  obtain ⟨e, _, he, -, rfl⟩ := h
  exact Nat.le_of_lt (rewrapItemKey_ok hS he).2.2.1

/-- Envelopes open to whatever handle of the vault the stored keys below the KEK hold. -/
theorem biometric_of_below (hS : S.Ideal) {w : Arr β 32} {e : BiometricEnvelope β} {ks ks' : EncryptedKeySet β}
    {v v' : UnlockedVault β} (h : unlockViaBiometric S w e ks = .ok v) (ha : ks'.accountId = ks.accountId)
    (hv : ks'.vaultId = ks.vaultId) (hid : v'.accountId = v.accountId ∧ v'.vaultId = v.vaultId ∧ v'.kek = v.kek)
    (hb : Below S v' ks'.wrappedVmk ks'.wrappedIkek) : unlockViaBiometric S w e ks' = .ok v' := by
  obtain ⟨hver, he, hva, hvv, hw, -⟩ := (unlockViaBiometric_ok hS).mp h
  rw [unlockViaBiometric_ok hS, ha, hv, hid.1, hid.2.1, hid.2.2]
  exact ⟨hver, he, hva, hvv, hw, hb⟩

/-- After a rotation that kept ids and KEK the keyset and the envelopes open to the new handle. -/
theorem opens_of_below (hS : S.Ideal) {pw : String} {ks ks' : EncryptedKeySet β} {v v' : UnlockedVault β}
    (h : unlockVault S pw ks = .ok v)
    (hks : ks' = { ks with wrappedVmk := ks'.wrappedVmk, wrappedIkek := ks'.wrappedIkek })
    (hid : v'.accountId = v.accountId ∧ v'.vaultId = v.vaultId ∧ v'.kek = v.kek)
    (hb : Below S v' ks'.wrappedVmk ks'.wrappedIkek) : unlockVault S pw ks' = .ok v' := by
  obtain ⟨hver, muk, hmuk, hh⟩ := (unlockVault_ok hS).mp h
  rw [unlockVault_ok hS, hks]
  exact ⟨hver, muk, hmuk, hid.1.trans hh.account, hid.2.1.trans hh.vault, hid.2.2 ▸ hh.kek, hb⟩

/-- A wrapping of the seed that a rotation is given comes back as one under the new VMK. -/
theorem reseeded_some (hS : S.Ideal) {v v' : UnlockedVault β} {s : Arr β 32} {w : WrappedKey β}
    {w' : Option (WrappedKey β)} (h : Reseeded S v v' (some w) w')
    (hw : Wraps S v.vmk s (aadForSigningSeed v.vaultId) w) :
    ∃ w₁, w' = some w₁ ∧ Wraps S v'.vmk s (aadForSigningSeed v'.vaultId) w₁ := by
  cases w' with
  | none => exact h.elim
  | some w₁ =>
    obtain ⟨s', hs', hw'⟩ := h
    obtain ⟨-, -, rfl⟩ := ((unwrapKey_ok hS).mp hs').unique hS hw
    exact ⟨w₁, rfl, hw'⟩

theorem step_inv (hS : S.Ideal) {vmk ikek : Bool} {a b : St β} (hi : Inv S a) (hs : Step S vmk ikek a b) : Inv S b := by
  obtain ⟨hver, muk, hmuk, hh⟩ := (unlockVault_ok hS).mp hi.opens
  cases hs with
  | encrypt _ h =>
    refine ⟨hi.opens, hi.biometrics, List.forall_mem_cons.mpr ⟨?_, hi.items⟩, hi.seed⟩
    exact ⟨(encryptItem_ok h).1, rfl, encryptItem_opens h rfl rfl⟩
  | wrapSeed _ h =>
    refine ⟨hi.opens, hi.biometrics, hi.items, fun s hs => ?_⟩
    cases hs
    exact ⟨_, rfl, (wrapSigningSeed_ok h).1⟩
  | enableBiometric _ h =>
    obtain ⟨hbver, hid, hw, -⟩ := enableBiometricUnlock_ok h
    refine ⟨hi.opens, List.forall_mem_cons.mpr ⟨(unlockViaBiometric_ok hS).mpr ?_, hi.biometrics⟩, hi.items, hi.seed⟩
    exact ⟨hbver ▸ keyset_readable, hid.trans hh.vault, hh.account, hh.vault, hh.vault ▸ hw, hh.below⟩
  | changePassword _ h =>
    obtain ⟨v, muk', hv, hmuk', hw, hks, -⟩ := changeMasterPassword_ok h
    obtain ⟨-, _, -, hh'⟩ := (unlockVault_ok hS).mp hv
    obtain ⟨-, rfl⟩ := hh'.unique hS hh
    refine ⟨(unlockVault_ok hS).mpr ?_, fun b hb => ?_, hi.items, hi.seed⟩
    · rw [hks]
      exact ⟨hver, muk', hmuk', hh.account, hh.vault, hw, hh.below⟩
    · rw [hks]
      exact biometric_of_below hS (hi.biometrics b hb) rfl rfl ⟨rfl, rfl, rfl⟩ hh.below
  | @vaultKey _ ks v _ _ _ _ h =>
    obtain ⟨-, -, hv, hks, hb, hseed, -⟩ := rotateVaultKey_ok h
    have hid : v.accountId = a.handle.accountId ∧ v.vaultId = a.handle.vaultId ∧ v.kek = a.handle.kek := by
      rw [hv]; exact ⟨rfl, rfl, rfl⟩
    refine ⟨opens_of_below hS hi.opens hks hid hb, fun b hb' => ?_, fun it hit => ?_, fun s hs => ?_⟩
    · exact biometric_of_below hS (hi.biometrics b hb') (by rw [hks]) (by rw [hks]) hid hb
    · exact (hi.items it hit).transfer hid.2.1 (by rw [hv])
    · -- The stored wrapping is of the seed, so the rotation gives another of it.
      obtain ⟨w, hw, hwraps⟩ := hi.seed s hs
      exact reseeded_some hS (hw ▸ hseed) hwraps
  | @ikek _ ks v items _ _ _ _ _ h _ hr =>
    obtain ⟨-, -, hv, hks, hw, -⟩ := rotateIkek_ok h
    have hid : v.accountId = a.handle.accountId ∧ v.vaultId = a.handle.vaultId ∧ v.kek = a.handle.kek := by
      rw [hv]; exact ⟨rfl, rfl, rfl⟩
    have hb : Below S v ks.wrappedVmk ks.wrappedIkek := by
      refine ⟨?_, ?_⟩
      · rw [hid.1, hid.2.1, hid.2.2, show v.vmk = a.handle.vmk by rw [hv], hks]
        exact hh.below.vmk
      · rw [hid.2.1, show v.vmk = a.handle.vmk by rw [hv]]
        exact hw
    refine ⟨opens_of_below hS hi.opens (by rw [hks]) hid hb, fun b hb' => ?_, fun it hit => ?_, fun s hs => ?_⟩
    · exact biometric_of_below hS (hi.biometrics b hb') (by rw [hks]) (by rw [hks]) hid hb
    · obtain ⟨it₀, hit₀, _, _, -, -, -, hre⟩ := paired_right (Draws.each_ok (rewrapItem_forward hS _ _) hr).2 hit
      exact rewrapItem_ok hS hid.2.1 (hi.items it₀ hit₀) hre
    · rw [hid.2.1, show v.vmk = a.handle.vmk by rw [hv]]
      exact hi.seed s hs

theorem run_inv (hS : S.Ideal) {a : St β} (h : Run S a) : Inv S a := by
  induction h with
  | create h =>
    obtain ⟨hver, ⟨muk, hmuk, hh⟩, -⟩ := createVaultKeys_ok h
    exact ⟨(unlockVault_ok hS).mpr ⟨hver ▸ keyset_readable, muk, hmuk, hh⟩, fun b hb => (by cases hb),
      fun it hit => (by cases hit), fun s hs => (by cases hs)⟩
  | step _ hs ih => exact step_inv hS ih hs

/-! ## What holds of every run -/

structure Intact (S : Suite β) (a : St β) : Prop where
  password : ∀ pw, S.nfkd pw = S.nfkd a.password → unlockVault S pw a.stored = .ok a.handle
  biometric : ∀ b ∈ a.biometrics, unlockViaBiometric S b.wrapperKey b.envelope a.stored = .ok a.handle
  items : ∀ it ∈ a.items, decryptItem S it.stored it.id a.handle = .ok it.plaintext ∧ it.stored.blob = it.payload
  seed : ∀ s, a.seed = some s → ∃ w, a.wrappedSeed = some w ∧ unwrapSigningSeed S a.handle w = .ok s
  others : ∀ pw, pw ≠ "" → S.nfkd pw ≠ S.nfkd a.password → unlockVault S pw a.stored = .error .decryptFailed

theorem vault_intact (hS : S.Ideal) {a : St β} (h : Run S a) : Intact S a := by
  have hi := run_inv hS h
  refine ⟨fun pw hpw => ?_, hi.biometrics, fun it hit => ?_, fun s hs => ?_,
    fun pw h0 hne => unlockVault_other hS hi.opens h0 hne⟩
  · obtain ⟨hver, muk, hmuk, hh⟩ := (unlockVault_ok hS).mp hi.opens
    exact (unlockVault_ok hS).mpr ⟨hver, muk, deriveMuk_congr hS hpw hmuk, hh⟩
  · have hit' := hi.items it hit
    exact ⟨(decryptItem_ok hS).mpr ⟨hit'.version ▸ item_readable, hit'.opens⟩, hit'.payload⟩
  · obtain ⟨w, hw, hwraps⟩ := hi.seed s hs
    exact ⟨w, hw, (unwrapKey_ok hS).mpr hwraps⟩

/-! ## A trace -/

/-- The signing seed wrapped, an envelope made, then the VMK rotated, then the IKEK. -/
def demoSeed : WrappedKey Term × Nat :=
  okVal (wrapSigningSeed demo.suite demoVault.1.unlocked (.replicate 32 (.data 1)) demoItem.2) (by decide +kernel)

def demoSetup : BiometricUnlockSetup Term × Nat :=
  okVal (enableBiometricUnlock demo.suite demoVault.1.unlocked demoSeed.2) (by decide +kernel)

def demoTurned : (EncryptedKeySet Term × UnlockedVault Term × Option (WrappedKey Term)) × Nat :=
  okVal (rotateVaultKey demo.suite demoVault.1.unlocked demoVault.1.encrypted (some demoSeed.1) demoSetup.2)
    (by decide +kernel)

def demoRotated : (EncryptedKeySet Term × UnlockedVault Term) × Nat :=
  okVal (rotateIkek demo.suite demoTurned.1.2.1 demoTurned.1.1 demoTurned.2) (by decide +kernel)

def demoItems : List (Item Term) := [⟨.replicate 16 1, [.data 0], demoItem.1.blob, demoItem.1⟩]

def demoRewrapped : List (Item Term) × Nat :=
  okVal (rewrapAll demo.suite demoTurned.1.2.1 demoRotated.1.2 demoItems demoRotated.2) (by decide +kernel)

/-- A vault with an item, a seed and an envelope, and the same with both its keys rotated. -/
def demoBefore : St Term :=
  ⟨demoSetup.2, demoVault.1.encrypted, "a", demoVault.1.unlocked, demoItems, some (.replicate 32 (.data 1)),
    some demoSeed.1, [demoSetup.1]⟩

def demoBetween : St Term :=
  { demoBefore with pos := demoTurned.2, stored := demoTurned.1.1, handle := demoTurned.1.2.1, wrappedSeed := demoTurned.1.2.2 }

def demoAfter : St Term :=
  { demoBetween with pos := demoRewrapped.2, stored := demoRotated.1.1, handle := demoRotated.1.2, items := demoRewrapped.1 }

theorem demoBefore_run : Run demo.suite demoBefore :=
  (((Run.create demoVault_created).step (.encrypt (Nat.le_refl _) demoItem_encrypted)).step
    (.wrapSeed (Nat.le_refl _) (okVal_eq _))).step (.enableBiometric (Nat.le_refl _) (okVal_eq _))

theorem demoBetween_step : Step demo.suite true false demoBefore demoBetween := .vaultKey (Nat.le_refl _) (okVal_eq _)

theorem demoAfter_step : Step demo.suite false true demoBetween demoAfter :=
  .ikek (Nat.le_refl _) (okVal_eq _) (Nat.le_refl _) (okVal_eq _)

/-- An item, a seed and an envelope, through both rotations. -/
theorem vault_intact_rotated : Intact demo.suite demoAfter :=
  vault_intact demo.suite_ideal ((demoBefore_run.step demoBetween_step).step demoAfter_step)

end RootkeyCrypto.VaultLifetime
