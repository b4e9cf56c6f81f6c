/-
  RootkeyCrypto.Shared.Items — items sealed directly under a shared vault's key.

  `encrypt_shared_item` takes the shared key itself and binds the vault id; there is no item
  key, and nothing says which item it is. The records lie with a server that may keep old
  ones, put one in another's place and make up others.

  `shared_items_hold`: as long as a shared key is secret, the records that open under it for
  a vault are exactly those sealed under it for that vault, each as a whole and to what was
  sealed in it, in whatever place they are put. Items under keys that are known, of other
  vaults or from before a rotation, may lie among them.
-/

import RootkeyCrypto.Core.SharedVault
import RootkeyCrypto.Lib.Authentic

namespace RootkeyCrypto.SharedItems

open Lib

/-- An item that was sealed. -/
structure SharedItem (o : Oracle) where
  key : Arr Term 32
  vaultId : Id
  plaintext : List Term
  encrypted : EncryptedSharedItem Term
  sealed : ∃ n n', encryptSharedItem o.suite plaintext key vaultId n = .ok (encrypted, n')

variable {o : Oracle} {σ : Secrets} {Made : SharedItem o → Prop}

/-- The encryptions behind the items. -/
def Sealed (Made : SharedItem o → Prop) (e : Entry .xChaCha20 24) : Prop :=
  ∃ x, Made x ∧ e.key = x.key ∧ e.nonce = x.encrypted.blob.nonce ∧ e.aad = sharedItemAad x.vaultId ∧
    e.plain = x.plaintext ∧ e.out = x.encrypted.blob.ciphertext

/-- An item under a key that is known holds what is genuine anyway. -/
def KnownOpen (σ : Secrets) (Made : SharedItem o → Prop) : Prop :=
  ∀ x, Made x → AllSafe σ x.key.toList → Genuine σ (Outs (Sealed Made)) x.plaintext

/-- Nothing else is in an item. -/
theorem item_eq {b b' : EncryptedSharedItem Term} (hversion : b.version = b'.version)
    (hnonce : b.blob.nonce = b'.blob.nonce) (hout : b.blob.ciphertext = b'.blob.ciphertext) : b = b' := by
  obtain ⟨version, blob⟩ := b
  cases hversion
  cases SealedBlob.ext hnonce hout
  rfl

theorem SharedItem.entry {x : SharedItem o} (hx : Made x) :
    ∃ e, Sealed Made e ∧ e.out = x.encrypted.blob.ciphertext := by
  obtain ⟨n, n', h⟩ := x.sealed
  exact ⟨⟨x.key, _, _, _, _, (encryptSharedItem_ok h).2⟩, ⟨x, hx, rfl, rfl, rfl, rfl, rfl⟩, rfl⟩

theorem KnownOpen.opens (h : KnownOpen σ Made) : OpensGenuine σ (Sealed Made) := by
  rintro e ⟨x, hx, hkey, -, -, hplain, -⟩ hsafe
  rw [hplain]
  exact h x hx (hkey ▸ hsafe)

theorem sharedItemAad_inj {v w : Id} (h : sharedItemAad v = sharedItemAad w) : v = w :=
  Arr.toList_inj.mp (List.append_cancel_left h)

/-- Nothing secret is learned, and under a key that is secret exactly the items sealed with it
    for the vault open. -/
theorem shared_items_hold {Known : List Term → Prop} (hK : Honest σ (Sealed Made) Known) (hopen : KnownOpen σ Made) :
    (∀ m, Derives o.suite Known σ.guess m → AllSafe σ m) ∧
      ∀ k v b q, ¬ AllSafe σ k.toList → Derives o.suite Known σ.guess b.blob.ciphertext →
        (decryptSharedItem o.suite b k v = .ok q ↔
          ∃ x, Made x ∧ x.key = k ∧ x.vaultId = v ∧ x.plaintext = q ∧ x.encrypted = b) := by
  obtain ⟨hsafe, hentered⟩ := ledger_holds (o := o) hK hopen.opens
  refine ⟨hsafe, fun k v b q hk hb => ?_⟩
  rw [decryptSharedItem_ok o.suite_ideal]
  constructor
  · rintro ⟨hversion, hs⟩
    obtain ⟨e, ⟨x, hx, hkey, hnonce, haad, hplain, hout⟩, hout', hkey', hnonce', haad', hplain'⟩ :=
      hentered hb hk (o.suite_ideal.xchacha.opens hs)
    obtain ⟨_, _, h⟩ := x.sealed
    refine ⟨x, hx, hkey.symm.trans hkey', sharedItemAad_inj (haad.symm.trans haad'), hplain.symm.trans hplain', ?_⟩
    exact item_eq ((encryptSharedItem_ok h).1.trans hversion.symm) (hnonce.symm.trans hnonce')
      (hout.symm.trans hout')
  · rintro ⟨x, -, rfl, rfl, rfl, rfl⟩
    obtain ⟨_, _, h⟩ := x.sealed
    exact encryptSharedItem_ok h

/-! ## A trace -/

/-- An item of a vault, and one under the key the vault had before, which is known. -/
def demoItem : SharedItem demo where
  key := keyAt 0
  vaultId := Arr.ofFn 16 fun _ => 0
  plaintext := [.data 0]
  encrypted := (okVal (encryptSharedItem demo.suite [.data 0] (keyAt 0) (Arr.ofFn 16 fun _ => 0) 2)
    (by decide +kernel)).1
  sealed := ⟨2, _, okVal_eq _⟩

def demoOld : SharedItem demo where
  key := keyAt 1
  vaultId := Arr.ofFn 16 fun _ => 0
  plaintext := [.data 1]
  encrypted := (okVal (encryptSharedItem demo.suite [.data 1] (keyAt 1) (Arr.ofFn 16 fun _ => 0) 3)
    (by decide +kernel)).1
  sealed := ⟨3, _, okVal_eq _⟩

def demoSecrets : Secrets := ⟨(0 = ·), (0 = ·), fun _ => False, fun _ => False⟩

def demoMade (x : SharedItem demo) : Prop := x = demoItem ∨ x = demoOld

/-- The items, and the old key. -/
def demoKnown (m : List Term) : Prop :=
  (∃ x, demoMade x ∧ x.encrypted.blob.ciphertext = m) ∨ m = (keyAt 1).toList

theorem demo_secret : ¬ AllSafe demoSecrets (keyAt 0).toList := by
  intro h
  exact h (.key 0 0) (by decide) rfl

theorem demo_open : KnownOpen demoSecrets demoMade := by
  rintro x (rfl | rfl) hkey
  · exact absurd hkey demo_secret
  · refine without_genuine fun b hb => ?_
    cases List.mem_singleton.mp hb
    exact (by decide : ¬ 0 = 1)

theorem demo_honest : Honest demoSecrets (Sealed demoMade) demoKnown := by
  rintro m (⟨x, hx, rfl⟩ | rfl)
  · exact Or.inl (x.entry hx)
  · refine Or.inr (without_genuine fun b hb => ?_)
    obtain ⟨j, -, rfl⟩ := List.mem_map.mp hb
    exact (by decide : ¬ 0 = 1)

theorem shared_items_hold_rotated : ¬ Derives demo.suite demoKnown (fun _ => False) [.data 0] ∧
    decryptSharedItem demo.suite demoOld.encrypted (keyAt 0) (Arr.ofFn 16 fun _ => 0) ≠ .ok [.data 1] := by
  obtain ⟨hsafe, hopens⟩ := shared_items_hold demo_honest demo_open
  constructor
  · intro h
    exact hsafe _ h _ List.mem_cons_self rfl
  · intro h
    have hknown : Derives demo.suite demoKnown demoSecrets.guess demoOld.encrypted.blob.ciphertext :=
      .known (Or.inl ⟨_, Or.inr rfl, rfl⟩)
    obtain ⟨x, hx, hkey, -, hplain, -⟩ := (hopens _ _ _ _ demo_secret hknown).mp h
    rcases hx with rfl | rfl
    · exact absurd hplain (by decide)
    · exact absurd hkey (by decide)

end RootkeyCrypto.SharedItems
