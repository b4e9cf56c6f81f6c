/-
  RootkeyCrypto.Shared.Epochs — who reads what in a shared vault whose key is rotated.

  The runs are those of `RootkeyCrypto.Shared.Revocation`: members join and are added, the
  shared key is rotated to any of them, members mount the vault or rotate their mounts to
  what they can open, and items are encrypted under any mount, also one of a past epoch.

  `epochs_read`: the wraps of an epoch open to its recipients and to no other member, and
  hold that epoch's key. A mount reads the items of its own epoch, under the id they were
  encrypted with, and no others: neither the later ones nor, unless they are encrypted
  again, the earlier ones.
-/

import RootkeyCrypto.Shared.Revocation

namespace RootkeyCrypto.Revocation

open Lib

variable {ι : Type} {o : Oracle} {V : Id}

/-! ## What was encrypted -/

/-- The record as the epoch's handles open it. -/
def Reads (o : Oracle) (V : Id) (epochs : List (Epoch ι)) (x : Item) : Prop :=
  x.stored.version = itemFormatVersion ∧ ∃ id ep k, epochs[x.epoch]? = some ep ∧
    Wraps o.suite (deriveSharedVaultKeys o.suite ep.key V).2 k (aadForItemKey V id) x.stored.wrappedItemKey ∧
    Seals o.suite k x.plaintext (aadForItemBlob V id) x.stored.blob

/-- A step leaves the keys of the epochs there are. -/
def KeysKept (epochs epochs' : List (Epoch ι)) : Prop :=
  ∀ (k : Nat) (ep : Epoch ι), epochs[k]? = some ep → ∃ ep', epochs'[k]? = some ep' ∧ ep'.key = ep.key

theorem KeysKept.append (epochs new : List (Epoch ι)) : KeysKept epochs (epochs ++ new) := by
  intro k ep h
  exact ⟨ep, (List.getElem?_append_left (List.getElem?_eq_some_iff.mp h).1).trans h, rfl⟩

theorem KeysKept.set {epochs : List (Epoch ι)} {k : Nat} {ep ep' : Epoch ι} (h : epochs[k]? = some ep)
    (hkey : ep'.key = ep.key) : KeysKept epochs (epochs.set k ep') := by
  intro j e he
  by_cases hj : k = j
  · subst hj
    cases h.symm.trans he
    exact ⟨ep', List.getElem?_set_self (List.getElem?_eq_some_iff.mp h).1, hkey⟩
  · exact ⟨e, (List.getElem?_set_ne hj).trans he, rfl⟩

theorem Reads.mono {epochs epochs' : List (Epoch ι)} (hk : KeysKept epochs epochs') {x : Item}
    (h : Reads o V epochs x) : Reads o V epochs' x := by
  obtain ⟨hver, id, ep, k, hep, hw, hs⟩ := h
  obtain ⟨ep', hep', hkey⟩ := hk _ _ hep
  exact ⟨hver, id, ep', k, hep', hkey ▸ hw, hs⟩

/-- A step keeps the items there are, and adds none or one that the epoch's handles open. -/
theorem step_reads [DecidableEq ι] {st st' : St ι} {role : Nat → Option (Role ι)} (hi : Inv o V st role)
    (h : Step o V st st') (hr : ∀ x ∈ st.items, Reads o V st.epochs x) : ∀ x ∈ st'.items, Reads o V st'.epochs x := by
  cases h with
  | join => exact hr
  | create => exact fun x hx => (hr x hx).mono (.append _ _)
  | addRecipient hep =>
    intro x hx
    refine (hr x hx).mono ?_
    exact KeysKept.set hep rfl
  | rotate => exact fun x hx => (hr x hx).mono (.append _ _)
  | attach => exact hr
  | rotateKeys => exact hr
  | encrypt hc hp hn h =>
    obtain ⟨hver, -, k, -, hw, hs⟩ := encryptItem_ok h
    obtain ⟨_, ep, -, hep, hok⟩ := hi.mounts _ hc
    rw [hok.ikek, hok.vault] at hw
    rw [hok.vault] at hs
    exact List.forall_mem_cons.mpr ⟨⟨hver, _, ep, k, hep, hw, hs⟩, hr⟩

theorem run_reads [DecidableEq ι] {st : St ι} (h : Run o V st) : ∀ x ∈ st.items, Reads o V st.epochs x := by
  induction h with
  | init n => exact fun _ hx => (by cases hx)
  | step ha h ih =>
    obtain ⟨role, hi⟩ := run_inv ha
    exact step_reads hi h ih

/-! ## Who reads it -/

/-- Different epochs have different keys. -/
theorem epoch_unique {st : St ι} {role : Nat → Option (Role ι)} (hi : Inv o V st role) {k k' : Nat} {ep ep' : Epoch ι}
    (h : st.epochs[k]? = some ep) (h' : st.epochs[k']? = some ep') (hkey : ep.key = ep'.key) : k = k' := by
  have hk := (hi.epochs k ep h).key
  rw [hkey] at hk
  cases hk.unique o.suite_ideal (hi.epochs k' ep' h').key
  rfl

theorem aadForItemKey_inj {v : Id} {id id' : Id} (h : aadForItemKey v id = aadForItemKey v id') : id = id' := by
  cases Context.bytes_inj.mp (show (Context.itemKey v id).bytes = (Context.itemKey v id').bytes from h)
  rfl

/-- A mount reads an item when both are of one epoch, under the item's id. -/
theorem Reads.decrypt {st : St ι} {role : Nat → Option (Role ι)} (hi : Inv o V st role) {x : Item}
    (h : Reads o V st.epochs x) : ∃ id, ∀ c ∈ st.mounts, ∀ id', decryptItem o.suite x.stored id' c.out.unlocked =
      if c.epoch = x.epoch ∧ id' = id then .ok x.plaintext else .error .decryptFailed := by
  obtain ⟨hver, id, ep, k, hep, hw, hs⟩ := h
  refine ⟨id, fun c hc id' => ?_⟩
  obtain ⟨_, ep', -, hep', hok⟩ := hi.mounts c hc
  split
  · rename_i hsame
    obtain ⟨he, rfl⟩ := hsame
    rw [he] at hep'
    cases hep.symm.trans hep'
    refine (decryptItem_ok o.suite_ideal).mpr ⟨hver ▸ item_readable, k, ?_, ?_⟩
    · rw [hok.ikek, hok.vault]
      exact hw
    · rw [hok.vault]
      exact hs
  · rename_i hother
    have hne : c.out.unlocked.ikek ≠ (deriveSharedVaultKeys o.suite ep.key V).2 ∨
        aadForItemKey c.out.unlocked.vaultId id' ≠ aadForItemKey V id := by
      rw [hok.ikek, hok.vault]
      by_contra hboth
      obtain ⟨hikek, haad⟩ := not_or.mp hboth
      have hkey := (deriveSharedVaultKeys_inj o.suite_ideal (Or.inr (not_not.mp hikek))).1
      exact hother ⟨epoch_unique hi hep' hep hkey, aadForItemKey_inj (not_not.mp haad)⟩
    unfold decryptItem
    rw [hver, item_readable]
    show (unwrapKey o.suite c.out.unlocked.ikek x.stored.wrappedItemKey _ >>= _) = _
    rw [unwrapKey_other o.suite_ideal hw hne]
    rfl

/-- In every run, the wraps of an epoch give its key to its recipients only, and a mount
    reads the items of its own epoch only. -/
theorem epochs_read [DecidableEq ι] {st : St ι} (h : Run o V st) :
    (∀ (k : Nat) (ep : Epoch ι), st.epochs[k]? = some ep → ∀ i m, st.members i = some m → ∀ key,
      (∃ w ∈ ep.wraps, unwrapWithIdentity o.suite w m.identity = .ok key) ↔ i ∈ ep.recipients ∧ key = ep.key) ∧
    ∀ x ∈ st.items, ∃ id, ∀ c ∈ st.mounts, ∀ id', decryptItem o.suite x.stored id' c.out.unlocked =
      if c.epoch = x.epoch ∧ id' = id then .ok x.plaintext else .error .decryptFailed := by
  obtain ⟨role, hi⟩ := run_inv h
  refine ⟨fun k ep hep i m hm key => ⟨?_, ?_⟩, fun x hx => (run_reads h x hx).decrypt hi⟩
  · rintro ⟨w, hw, ho⟩
    obtain ⟨ep', -, hep', hrec, hkey⟩ := gets_key hi ⟨hm, ep, w, hep, hw, ho⟩
    cases hep.symm.trans hep'
    exact ⟨hrec, hkey⟩
  · rintro ⟨hrec, rfl⟩
    obtain ⟨w, hw, m', n, hm', hwrap⟩ := paired_left (hi.epochs k ep hep).wraps hrec
    cases hm.symm.trans hm'
    exact ⟨w, hw, unwrapWithIdentity_own o.suite_box hwrap (hi.members i m hm).publicKey⟩

/-- The mount that was rotated reads the item, the same mount from before does not. -/
theorem epochs_read_rotated : ∃ id, decryptItem demo.suite demoAfter.1 id demoKeys.1.2 = .ok [.data 0] ∧
    decryptItem demo.suite demoAfter.1 id demoAttached.1.unlocked = .error .decryptFailed := by
  obtain ⟨-, hitems⟩ := epochs_read demo_run
  obtain ⟨id, hread⟩ := hitems _ List.mem_cons_self
  have hnew := hread ⟨1, true, ⟨demoAttached.1.entry, demoKeys.1.1, demoKeys.1.2⟩⟩ List.mem_cons_self id
  have hold := hread ⟨0, true, demoAttached.1⟩ (List.mem_cons_of_mem _ List.mem_cons_self) id
  rw [if_pos ⟨rfl, rfl⟩] at hnew
  rw [if_neg (fun h => absurd h.1 (by decide))] at hold
  exact ⟨id, hnew, hold⟩

end RootkeyCrypto.Revocation
