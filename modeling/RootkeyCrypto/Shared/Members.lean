/-
  RootkeyCrypto.Shared.Members — one shared vault in the accounts of its members.

  Any number of members act in any order. Each opens a wrap of the shared key with his
  identity and attaches the vault under his account; later he rotates to a newer shared
  key, changes his password, rotates his root key, or re-keys his account and reattaches
  the vault from the re-keyed `old` handle. What he does with his other vaults only changes
  the other entries of his keyset, in any way at all. Items and signing seeds are recorded
  with the shared key of whoever made them.

  The KEK layer is each member's own and changes with every attach and reattach; what is
  below it is derived from the shared key and the vault id (`Held`). So two handles agree
  exactly when their shared keys do, and what is made under one opens under the other
  (`members_agree`). A rotation keeps entry and KEK: the entry opens with the old slot as
  with the new one.
-/

import RootkeyCrypto.Core.SharedAccount
import RootkeyCrypto.Core.SharedVault
import RootkeyCrypto.Core.Item
import RootkeyCrypto.Lib.Symbolic
import Mathlib.Logic.Function.Basic

namespace RootkeyCrypto.Members

open Lib

/-- The vault on one member's machine; its entry is in his keyset. -/
structure Mount (β : Type) where
  /-- The shared key it was attached with or rotated to last. -/
  key : SymmetricKey β
  slot : VaultKeySlot β
  vault : UnlockedVault β

structure Member (β : Type) where
  identity : SharedIdentityKeyPair β
  stored : AccountKeySet β
  password : String
  account : UnlockedAccount β
  mount : Option (Mount β)

/-- An item and the shared key of the handle that encrypted it. -/
structure Item (β : Type) where
  key : SymmetricKey β
  id : Id
  plaintext : List β
  stored : EncryptedItemBlob β

/-- A wrapped signing seed and the shared key of the handle that wrapped it. -/
structure Seed (β : Type) where
  key : SymmetricKey β
  seed : Arr β 32
  wrapped : WrappedKey β

structure St (ι β : Type) where
  members : ι → Member β
  items : List (Item β)
  seeds : List (Seed β)

variable {ι β : Type} {S : Suite β} {V : Id}

/-- What one member does with his account. -/
inductive Act [DecidableEq β] (S : Suite β) (V : Id) : Member β → Member β → Prop
  | attach {m : Member β} {wrap key r es n n'} (hk : unwrapWithIdentity S wrap m.identity = .ok key)
      (h : attachSharedVaultUnderAccount S m.account V key n = .ok (r, n')) (hes : Stores m.stored.vaults es r.entry) :
      Act S V m { m with stored := { m.stored with vaults := es }, mount := some ⟨key, r.slot, r.unlocked⟩ }
  | rotate {m : Member β} {c wrap key s v n n'} (hc : m.mount = some c)
      (hk : unwrapWithIdentity S wrap m.identity = .ok key)
      (h : rotateSharedVaultKeys S c.vault key n = .ok ((s, v), n')) :
      Act S V m { m with mount := some ⟨key, s, v⟩ }
  | changePassword {m : Member β} {old new ks n n'} (h : changeAccountPassword S old new m.stored n = .ok (ks, n')) :
      Act S V m { m with stored := ks, password := new }
  | rotateRoot {m : Member β} {pw ks a n n'} (h : rotateAccountRootKey S pw m.stored n = .ok ((ks, a), n')) :
      Act S V m { m with stored := ks, password := pw, account := a }
  /-- `rekey_account`, then `reattach_vault_under_account` on the re-keyed `old` handle. -/
  | rekey {m : Member β} {c old new slots r x q es n n' k k'} (hc : m.mount = some c)
      (h : rekeyAccount S old new m.stored slots n = .ok (r, n')) (hslots : ∀ s ∈ slots, s.vaultId = V → s = c.slot)
      (hx : x ∈ r.vaults) (hv : x.old.vaultId = V) (hr : reattachVaultUnderAccount S r.unlocked x.old k = .ok (q, k'))
      (hes : Stores r.encrypted.vaults es q.entry) :
      Act S V m { m with stored := { r.encrypted with vaults := es }, password := new, account := r.unlocked,
                         mount := some ⟨c.key, q.slot, q.unlocked⟩ }
  | rekeyUnmounted {m : Member β} {old new slots r n n'} (hc : m.mount = none)
      (h : rekeyAccount S old new m.stored slots n = .ok (r, n')) :
      Act S V m { m with stored := r.encrypted, password := new, account := r.unlocked }
  | otherVaults {m : Member β} {es} (hes : ∀ e, e.vaultId = V → (e ∈ es ↔ e ∈ m.stored.vaults)) :
      Act S V m { m with stored := { m.stored with vaults := es } }

inductive Step [DecidableEq ι] [DecidableEq β] (S : Suite β) (V : Id) : St ι β → St ι β → Prop
  | act {st : St ι β} {i m} (h : Act S V (st.members i) m) :
      Step S V st { st with members := Function.update st.members i m }
  | encrypt {st : St ι β} {i c p id e n n'} (hc : (st.members i).mount = some c)
      (h : encryptItem S p id c.vault n = .ok (e, n')) : Step S V st { st with items := ⟨c.key, id, p, e⟩ :: st.items }
  | wrapSeed {st : St ι β} {i c seed w n n'} (hc : (st.members i).mount = some c)
      (h : wrapSigningSeed S c.vault seed n = .ok (w, n')) :
      Step S V st { st with seeds := ⟨c.key, seed, w⟩ :: st.seeds }

/-- A run starts with accounts of any history that open and do not mount the vault. -/
inductive Run [DecidableEq ι] [DecidableEq β] (S : Suite β) (V : Id) : St ι β → Prop
  | init (members : ι → Member β)
      (h : ∀ i, unlockAccount S (members i).password (members i).stored = .ok (members i).account)
      (hm : ∀ i, (members i).mount = none) : Run S V ⟨members, [], []⟩
  | step {a b : St ι β} (ha : Run S V a) (h : Step S V a b) : Run S V b

/-! ## The invariant -/

/-- The mount's keys are those of its shared key, and the account's entry opens to them. -/
structure Held (S : Suite β) (V : Id) (a : UnlockedAccount β) (es : List (AccountVaultEntry β)) (c : Mount β) :
    Prop where
  vault : c.vault.vaultId = V
  keys : (c.vault.vmk, c.vault.ikek) = deriveSharedVaultKeys S c.key V
  entry : ∃ e ∈ es, e.vaultId = V
  opens : ∀ e ∈ es, e.vaultId = V → unlockAccountVault S a e c.slot = .ok c.vault

structure MemberOk (S : Suite β) (V : Id) (m : Member β) : Prop where
  account : unlockAccount S m.password m.stored = .ok m.account
  mount : ∀ c, m.mount = some c → Held S V m.account m.stored.vaults c

/-- The item opens under every handle of the vault with the IKEK of its shared key. -/
structure ItemOk (S : Suite β) (V : Id) (x : Item β) : Prop where
  version : x.stored.version = itemFormatVersion
  opens : ∀ v : UnlockedVault β, v.vaultId = V → v.ikek = (deriveSharedVaultKeys S x.key V).2 →
    Opens S v x.id x.stored x.plaintext

def SeedOk (S : Suite β) (V : Id) (x : Seed β) : Prop :=
  Wraps S (deriveSharedVaultKeys S x.key V).1 x.seed (aadForSigningSeed V) x.wrapped

structure Inv (S : Suite β) (V : Id) (st : St ι β) : Prop where
  members : ∀ i, MemberOk S V (st.members i)
  items : ∀ x ∈ st.items, ItemOk S V x
  seeds : ∀ x ∈ st.seeds, SeedOk S V x

theorem Held.vmk {a : UnlockedAccount β} {es : List (AccountVaultEntry β)} {c : Mount β} (h : Held S V a es c) :
    c.vault.vmk = (deriveSharedVaultKeys S c.key V).1 := congrArg Prod.fst h.keys

theorem Held.ikek {a : UnlockedAccount β} {es : List (AccountVaultEntry β)} {c : Mount β} (h : Held S V a es c) :
    c.vault.ikek = (deriveSharedVaultKeys S c.key V).2 := congrArg Prod.snd h.keys

/-- The keys of a shared key wrapped under an account, the entry stored, are held. -/
theorem wrapped_held (hS : S.Ideal) {a : UnlockedAccount β} {key : SymmetricKey β} {vmk : VaultMasterKey β}
    {ikek : ItemKekKey β} {r : VaultUnderAccount β} {es es' : List (AccountVaultEntry β)} {n n' : Nat}
    (h : wrapUnderAccount S a V vmk ikek n = .ok (r, n')) (hk : (vmk, ikek) = deriveSharedVaultKeys S key V)
    (hes : Stores es es' r.entry) : Held S V a es' ⟨key, r.slot, r.unlocked⟩ := by
  obtain ⟨hver, hm, hv, hvmk, hikek, -⟩ := wrapUnderAccount_ok h
  have he : r.entry.vaultId = V := hm.vault.symm.trans hv
  refine ⟨hv, ?_, ⟨r.entry, hes.mem.mpr (.inl rfl), he⟩, fun e hmem hV => ?_⟩
  · rw [← hk, ← hvmk, ← hikek]
  · rcases hes.mem.mp hmem with rfl | ⟨-, hne⟩
    · exact (unlockAccountVault_ok hS).mpr ⟨hver ▸ account_readable, hm⟩
    · exact absurd (hV.trans he.symm) hne

/-- A re-key opens the old handle of the vault from the latest slot. -/
theorem rekeyed_old (hS : S.Ideal) {m : Member β} {c : Mount β} {old new : String} {slots : List (VaultKeySlot β)}
    {r : RekeyedAccount β} {x : RekeyedVault β} {n n' : Nat} (hc : Held S V m.account m.stored.vaults c)
    (h : rekeyAccount S old new m.stored slots n = .ok (r, n')) (hslots : ∀ s ∈ slots, s.vaultId = V → s = c.slot)
    (hx : x ∈ r.vaults) (hv : x.old.vaultId = V) : x.old = c.vault := by
  obtain ⟨a, _, -, -, -, -, -, -, hall, -⟩ := rekeyAccount_ok h
  obtain ⟨s, hs, hr⟩ := paired_right hall hx
  obtain ⟨e, he, hes, hopen⟩ := hr.old
  have hm := ((unlockAccountVault_ok hS).mp hopen).2
  have heV : e.vaultId = V := hm.vault.symm.trans hv
  rw [hslots s hs (hes.symm.trans heV)] at hm
  exact (hm.unique hS ((unlockAccountVault_ok hS).mp (hc.opens e he heV)).2).2

variable [DecidableEq β]

theorem act_ok (hS : S.Ideal) {m m' : Member β} (hm : MemberOk S V m) (h : Act S V m m') : MemberOk S V m' := by
  cases h with
  | attach hk h hes =>
    refine ⟨hm.account, fun c hc => ?_⟩
    cases hc
    exact wrapped_held hS h rfl hes
  | rotate hc hk h =>
    refine ⟨hm.account, fun c' hc' => ?_⟩
    cases hc'
    have hheld := hm.mount _ hc
    obtain ⟨-, -, -, hv, -⟩ := rotateSharedVaultKeys_ok h
    refine ⟨?_, ?_, hheld.entry, fun e he hV => rotateSharedVaultKeys_opens hS h (hheld.opens e he hV)⟩
    · rw [hv]; exact hheld.vault
    · rw [hv, hheld.vault]
  | changePassword h =>
    obtain ⟨a, ha, hnew, hvs⟩ := changeAccountPassword_opens hS h
    cases unlockAccount_unique hS ha hm.account
    refine ⟨hnew, fun c hc => ?_⟩
    show Held S V m.account _ c
    rw [hvs]
    exact hm.mount c hc
  | rotateRoot h =>
    obtain ⟨a, ha, hnew, hid, hall⟩ := rotateAccountRootKey_opens hS h
    cases unlockAccount_unique hS ha hm.account
    refine ⟨hnew, fun c hc => ?_⟩
    have hheld := hm.mount c hc
    refine ⟨hheld.vault, hheld.keys, ?_, fun e' he' hV => ?_⟩
    · obtain ⟨e, he, heV⟩ := hheld.entry
      obtain ⟨e', he', hr⟩ := paired_left hall he
      exact ⟨e', he', hr.1.trans heV⟩
    · obtain ⟨e, he, hr⟩ := paired_right hall he'
      obtain ⟨hver, hmount⟩ := (unlockAccountVault_ok hS).mp (hheld.opens e he (hr.1.symm.trans hV))
      exact (unlockAccountVault_ok hS).mpr ⟨hver, hmount.rewrapped hS hid hr⟩
  | rekey hc h hslots hx hv hr hes =>
    refine ⟨rekeyAccount_opens hS h, fun c' hc' => ?_⟩
    cases hc'
    have hheld := hm.mount _ hc
    rw [rekeyed_old hS hheld h hslots hx hv] at hr
    unfold reattachVaultUnderAccount at hr
    rw [hheld.vault] at hr
    exact wrapped_held hS hr hheld.keys hes
  | rekeyUnmounted hc h =>
    refine ⟨rekeyAccount_opens hS h, fun c' hc' => ?_⟩
    change m.mount = some c' at hc'
    rw [hc] at hc'
    cases hc'
  | otherVaults hes =>
    refine ⟨hm.account, fun c hc => ?_⟩
    have hheld := hm.mount c hc
    refine ⟨hheld.vault, hheld.keys, ?_, fun e he hV => hheld.opens e ((hes e hV).mp he) hV⟩
    obtain ⟨e, he, hV⟩ := hheld.entry
    exact ⟨e, (hes e hV).mpr he, hV⟩

variable [DecidableEq ι]

theorem step_inv (hS : S.Ideal) {st st' : St ι β} (hi : Inv S V st) (h : Step S V st st') : Inv S V st' := by
  cases h with
  | @act i m h =>
    refine ⟨fun j => ?_, hi.items, hi.seeds⟩
    by_cases hj : j = i
    · rw [hj]
      simp only [Function.update_self]
      exact act_ok hS (hi.members i) h
    · simp only [Function.update_of_ne hj]
      exact hi.members j
  | encrypt hc h =>
    have hheld := (hi.members _).mount _ hc
    refine ⟨hi.members, List.forall_mem_cons.mpr ⟨⟨(encryptItem_ok h).1, fun v hv hk => ?_⟩, hi.items⟩, hi.seeds⟩
    exact encryptItem_opens h (hv.trans hheld.vault.symm) (hk.trans hheld.ikek.symm)
  | wrapSeed hc h =>
    have hheld := (hi.members _).mount _ hc
    have hw := (wrapSigningSeed_ok h).1
    rw [hheld.vault, hheld.vmk] at hw
    exact ⟨hi.members, hi.items, List.forall_mem_cons.mpr ⟨hw, hi.seeds⟩⟩

theorem run_inv (hS : S.Ideal) {st : St ι β} (h : Run S V st) : Inv S V st := by
  induction h with
  | init members h hm =>
    refine ⟨fun i => ⟨h i, fun c hc => ?_⟩, fun x hx => (by cases hx), fun x hx => (by cases hx)⟩
    rw [hm i] at hc
    cases hc
  | step _ h ih => exact step_inv hS ih h

/-! ## What holds of every run -/

/-- Handles agree as their shared keys do, and so does what they open. -/
structure Agree (S : Suite β) (V : Id) (st : St ι β) : Prop where
  keys : ∀ i j c d, (st.members i).mount = some c → (st.members j).mount = some d →
    (c.vault.vmk = d.vault.vmk ∧ c.vault.ikek = d.vault.ikek ↔ c.key = d.key)
  items : ∀ x ∈ st.items, ∀ i c, (st.members i).mount = some c → c.key = x.key →
    decryptItem S x.stored x.id c.vault = .ok x.plaintext
  seeds : ∀ x ∈ st.seeds, ∀ i c, (st.members i).mount = some c → c.key = x.key →
    unwrapSigningSeed S c.vault x.wrapped = .ok x.seed
  /-- A handle of another shared key opens nothing of an item, as whatever item it is taken. -/
  others : ∀ x ∈ st.items, ∀ i c id, (st.members i).mount = some c → c.key ≠ x.key →
    decryptItem S x.stored id c.vault = .error .decryptFailed
  /-- The stored entry is there and opens with the latest slot to the latest handle. -/
  stored : ∀ i c, (st.members i).mount = some c → (∃ e ∈ (st.members i).stored.vaults, e.vaultId = V) ∧
    ∀ pw a, unlockAccount S pw (st.members i).stored = .ok a →
      ∀ e ∈ (st.members i).stored.vaults, e.vaultId = V → unlockAccountVault S a e c.slot = .ok c.vault
  /-- After a rotation the same entry opens with the old slot and with the new one. -/
  swap : ∀ i c key s v n n', (st.members i).mount = some c →
    rotateSharedVaultKeys S c.vault key n = .ok ((s, v), n') →
      (v.vmk, v.ikek) = deriveSharedVaultKeys S key V ∧
      ∀ pw a, unlockAccount S pw (st.members i).stored = .ok a →
        ∀ e ∈ (st.members i).stored.vaults, e.vaultId = V →
          unlockAccountVault S a e c.slot = .ok c.vault ∧ unlockAccountVault S a e s = .ok v

theorem members_agree (hS : S.Ideal) {st : St ι β} (h : Run S V st) : Agree S V st := by
  have hi := run_inv hS h
  have hstored : ∀ i c, (st.members i).mount = some c → ∀ pw a, unlockAccount S pw (st.members i).stored = .ok a →
      ∀ e ∈ (st.members i).stored.vaults, e.vaultId = V → unlockAccountVault S a e c.slot = .ok c.vault := by
    intro i c hc pw a ha e he hV
    rw [unlockAccount_unique hS ha (hi.members i).account]
    exact ((hi.members i).mount c hc).opens e he hV
  refine ⟨fun i j c d hc hd => ?_, fun x hx i c hc hk => ?_, fun x hx i c hc hk => ?_, fun x hx i c id hc hne => ?_,
    fun i c hc => ⟨((hi.members i).mount c hc).entry, hstored i c hc⟩, fun i c key s v n n' hc hr => ?_⟩
  · have hc' := (hi.members i).mount c hc
    have hd' := (hi.members j).mount d hd
    rw [hc'.vmk, hc'.ikek, hd'.vmk, hd'.ikek]
    exact ⟨fun h => (deriveSharedVaultKeys_inj hS (.inl h.1)).1, fun h => by rw [h]; exact ⟨rfl, rfl⟩⟩
  · have hc' := (hi.members i).mount c hc
    have hok := hi.items x hx
    exact (decryptItem_ok hS).mpr ⟨hok.version ▸ item_readable, hok.opens c.vault hc'.vault (hk ▸ hc'.ikek)⟩
  · have hc' := (hi.members i).mount c hc
    have hok := hi.seeds x hx
    rw [SeedOk, ← hk, ← hc'.vmk, ← hc'.vault] at hok
    exact (unwrapKey_ok hS).mpr hok
  · have hc' := (hi.members i).mount c hc
    have hok := hi.items x hx
    have hopens := hok.opens { c.vault with ikek := (deriveSharedVaultKeys S x.key V).2 } hc'.vault rfl
    refine decryptItem_other hS hok.version hopens fun he => hne ?_
    exact (deriveSharedVaultKeys_inj hS (.inr (hc'.ikek.symm.trans he))).1
  · have hc' := (hi.members i).mount c hc
    obtain ⟨-, -, -, hv, -⟩ := rotateSharedVaultKeys_ok hr
    refine ⟨?_, fun pw a ha e he hV => ?_⟩
    · rw [hv, hc'.vault]
    · have hold := hstored i c hc pw a ha e he hV
      exact ⟨hold, rotateSharedVaultKeys_opens hS hr hold⟩

/-! ## A trace -/

def demoId : Id := .replicate 16 7

def demoBob : AccountKeys Term × Nat := okVal (createAccount demo.suite "b" demoAccount.2) (by decide +kernel)

def demoIdentity (pos : Nat) : SharedIdentityKeyPair Term := .fromSecret demo.suite (keyAt pos)

def demoShared : (SymmetricKey Term × List (SealedSharedKey Term)) × Nat :=
  okVal (createSharedVault demo.suite [(demoIdentity 20).publicKey, (demoIdentity 21).publicKey] 30) (by decide +kernel)

def demoWrap (i : Nat) : SealedSharedKey Term := demoShared.1.2.getD i ⟨[]⟩

/-- Two accounts, before anyone attaches. -/
def demoMembers : Bool → Member Term
  | true => ⟨demoIdentity 20, demoAccount.1.encrypted, "a", demoAccount.1.unlocked, none⟩
  | false => ⟨demoIdentity 21, demoBob.1.encrypted, "b", demoBob.1.unlocked, none⟩

def demoAliceMount : VaultUnderAccount Term × Nat :=
  okVal (attachSharedVaultUnderAccount demo.suite (demoMembers true).account demoId demoShared.1.1 demoShared.2)
    (by decide +kernel)

def demoBobMount : VaultUnderAccount Term × Nat :=
  okVal (attachSharedVaultUnderAccount demo.suite (demoMembers false).account demoId demoShared.1.1 demoAliceMount.2)
    (by decide +kernel)

/-- The member after attaching. -/
def demoAttached (i : Bool) (r : VaultUnderAccount Term) : Member Term :=
  { demoMembers i with
    stored := { (demoMembers i).stored with vaults := [r.entry] }, mount := some ⟨demoShared.1.1, r.slot, r.unlocked⟩ }

def demoSharedItem : EncryptedItemBlob Term × Nat :=
  okVal (encryptItem demo.suite [.data 0] (.replicate 16 1) demoAliceMount.1.unlocked demoBobMount.2) (by decide +kernel)

/-- Both attach with the wraps made for them; the first encrypts an item. -/
def demoSt : St Bool Term where
  members := Function.update (Function.update demoMembers true (demoAttached true demoAliceMount.1)) false
    (demoAttached false demoBobMount.1)
  items := [⟨demoShared.1.1, .replicate 16 1, [.data 0], demoSharedItem.1⟩]
  seeds := []

theorem demo_run : Run demo.suite demoId demoSt := by
  have hopen : ∀ i, unlockAccount demo.suite (demoMembers i).password (demoMembers i).stored =
      .ok (demoMembers i).account := by decide +kernel
  have hwrap : unwrapWithIdentity demo.suite (demoWrap 0) (demoIdentity 20) = .ok demoShared.1.1 := by decide +kernel
  have hwrap' : unwrapWithIdentity demo.suite (demoWrap 1) (demoIdentity 21) = .ok demoShared.1.1 := by decide +kernel
  have halice : attachSharedVaultUnderAccount demo.suite (demoMembers true).account demoId demoShared.1.1
      demoShared.2 = .ok (demoAliceMount.1, demoAliceMount.2) := okVal_eq _
  have hbob : attachSharedVaultUnderAccount demo.suite (demoMembers false).account demoId demoShared.1.1
      demoAliceMount.2 = .ok (demoBobMount.1, demoBobMount.2) := okVal_eq _
  have hitem : encryptItem demo.suite [.data 0] (.replicate 16 1) demoAliceMount.1.unlocked demoBobMount.2 =
      .ok (demoSharedItem.1, demoSharedItem.2) := okVal_eq _
  have h0 : Run demo.suite demoId ⟨demoMembers, [], []⟩ := .init _ hopen fun i => by cases i <;> rfl
  have h1 := h0.step (.act (i := true) (.attach hwrap halice (.refl _)))
  have h2 := h1.step (.act (i := false) (.attach hwrap' hbob (.refl _)))
  exact h2.step
    (.encrypt (i := true) (c := ⟨demoShared.1.1, demoAliceMount.1.slot, demoAliceMount.1.unlocked⟩) rfl hitem)

/-- What the first encrypted the second reads. -/
theorem members_agree_two_members :
    decryptItem demo.suite demoSharedItem.1 (.replicate 16 1) demoBobMount.1.unlocked = .ok [.data 0] :=
  (members_agree demo.suite_ideal demo_run).items _ List.mem_cons_self false
    ⟨demoShared.1.1, demoBobMount.1.slot, demoBobMount.1.unlocked⟩ rfl rfl

end RootkeyCrypto.Members
