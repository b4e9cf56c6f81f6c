/-
  RootkeyCrypto.Vault.Splice — records put together from parts of other records.

  A stored item is two ciphertexts, the wrapped item key and the payload, which whoever
  syncs the files may recombine. A history is any sequence of `encrypt_item` calls, with
  any handles, and `rewrap_item_key` calls, also on recombined records. `Stems w c`: the
  wrapped key `w` comes from the encryption `c`, through any number of re-wraps.

  `decrypt_stems`: a record recombined from the history decrypts only where both its parts
  stem from one encryption, of that very plaintext, for that item of that vault. Two
  encryptions never share an item key, so the key that opens the payload says which one it
  was, and the payload's associated data says for which item and vault.
-/

import RootkeyCrypto.Core.Item
import RootkeyCrypto.Lib.Symbolic

namespace RootkeyCrypto.Splice

open Lib

variable {β : Type} {S : Suite β}

/-- One `encrypt_item`, drawing its key at `at`. -/
structure Enc (β : Type) where
  drawnAt : Nat
  plaintext : List β
  id : Id
  vault : UnlockedVault β
  out : EncryptedItemBlob β
  deriving DecidableEq

/-- One `rewrap_item_key`. -/
structure Rewrap (β : Type) where
  input : EncryptedItemBlob β
  id : Id
  old : UnlockedVault β
  new : UnlockedVault β
  out : EncryptedItemBlob β
  deriving DecidableEq

structure History (β : Type) where
  pos : Nat
  encs : List (Enc β)
  rewraps : List (Rewrap β)

/-- The wrapped key comes from the encryption. -/
inductive Stems (h : History β) : WrappedKey β → Enc β → Prop
  | enc {c} (hc : c ∈ h.encs) : Stems h c.out.wrappedItemKey c
  | rewrap {r c} (hr : r ∈ h.rewraps) (hs : Stems h r.input.wrappedItemKey c) : Stems h r.out.wrappedItemKey c

/-- The wrapped key occurs in the history. -/
def HasKey (h : History β) (w : WrappedKey β) : Prop :=
  (∃ c ∈ h.encs, c.out.wrappedItemKey = w) ∨ ∃ r ∈ h.rewraps, r.out.wrappedItemKey = w

/-- The payload occurs in the history. -/
def HasPayload (h : History β) (b : SealedBlob β) : Prop :=
  (∃ c ∈ h.encs, c.out.blob = b) ∨ ∃ r ∈ h.rewraps, r.out.blob = b

/-- The record is put together from the history; its version is whoever put it together's. -/
def Assembled (h : History β) (e : EncryptedItemBlob β) : Prop :=
  HasKey h e.wrappedItemKey ∧ HasPayload h e.blob

def History.encrypted (h : History β) (n' : Nat) (c : Enc β) : History β := { h with pos := n', encs := c :: h.encs }

def History.rewrapped (h : History β) (n' : Nat) (r : Rewrap β) : History β :=
  { h with pos := n', rewraps := r :: h.rewraps }

inductive Run (S : Suite β) : History β → Prop
  | init (n : Nat) : Run S ⟨n, [], []⟩
  | encrypt {h : History β} {p id v e n n'} (hh : Run S h) (hn : h.pos ≤ n) (he : encryptItem S p id v n = .ok (e, n')) :
      Run S (h.encrypted n' ⟨n, p, id, v, e⟩)
  | rewrap {h : History β} {v v' e id e' n n'} (hh : Run S h) (hn : h.pos ≤ n) (ha : Assembled h e)
      (he : rewrapItemKey S v v' e id n = .ok (e', n')) : Run S (h.rewrapped n' ⟨e, id, v, v', e'⟩)

/-! ## The invariant -/

/-- The encryption drew its key, wrapped it and sealed the payload under it. -/
def EncOk (S : Suite β) (c : Enc β) : Prop :=
  ∃ k, S.osKey c.drawnAt = some k ∧ (∃ k' a, Wraps S k' k a c.out.wrappedItemKey) ∧
    Seals S k c.plaintext (aadForItemBlob c.vault.vaultId c.id) c.out.blob

/-- The re-wrap kept the key. -/
def RewrapOk (S : Suite β) (r : Rewrap β) : Prop :=
  ∃ k, (∃ k' a, Wraps S k' k a r.input.wrappedItemKey) ∧ ∃ k' a, Wraps S k' k a r.out.wrappedItemKey

structure Inv (S : Suite β) (h : History β) : Prop where
  before : ∀ c ∈ h.encs, c.drawnAt < h.pos
  distinct : ∀ c ∈ h.encs, ∀ d ∈ h.encs, c.drawnAt = d.drawnAt → c = d
  encs : ∀ c ∈ h.encs, EncOk S c
  rewraps : ∀ r ∈ h.rewraps, RewrapOk S r
  /-- Every wrapped key and every payload comes from an encryption. -/
  stems : ∀ w, HasKey h w → ∃ c ∈ h.encs, Stems h w c
  payload : ∀ b, HasPayload h b → ∃ c ∈ h.encs, c.out.blob = b

/-- Stemming survives further calls. -/
theorem Stems.mono {h h' : History β} {w : WrappedKey β} {c : Enc β} (hs : Stems h w c)
    (he : ∀ c ∈ h.encs, c ∈ h'.encs) (hr : ∀ r ∈ h.rewraps, r ∈ h'.rewraps) : Stems h' w c := by
  induction hs with
  | enc hc => exact .enc (he _ hc)
  | rewrap hr' _ ih => exact .rewrap (hr _ hr') ih

/-- A wrapped key holds the item key of the encryption it stems from. -/
theorem stems_key (hS : S.Ideal) {h : History β} (hi : Inv S h) {w : WrappedKey β} {c : Enc β} (hs : Stems h w c) :
    ∃ k k' a, S.osKey c.drawnAt = some k ∧ Wraps S k' k a w := by
  induction hs with
  | enc hc =>
    obtain ⟨k, hk, ⟨k', a, hw⟩, -⟩ := hi.encs _ hc
    exact ⟨k, k', a, hk, hw⟩
  | rewrap hr _ ih =>
    obtain ⟨k, k', a, hk, hw⟩ := ih
    obtain ⟨k₀, ⟨k₁, a₁, hin⟩, k₂, a₂, hout⟩ := hi.rewraps _ hr
    obtain ⟨-, -, rfl⟩ := hin.unique hS hw
    exact ⟨k₀, k₂, a₂, hk, hout⟩

theorem inv_encrypt {h : History β} {p : List β} {id : Id} {v : UnlockedVault β} {e : EncryptedItemBlob β} {n n' : Nat}
    (hi : Inv S h) (hn : h.pos ≤ n) (he : encryptItem S p id v n = .ok (e, n')) :
    Inv S (h.encrypted n' ⟨n, p, id, v, e⟩) := by
  obtain ⟨-, hlt, k, hk, hw, hb⟩ := encryptItem_ok he
  refine ⟨?_, ?_, List.forall_mem_cons.mpr ⟨⟨k, hk, ⟨_, _, hw⟩, hb⟩, hi.encs⟩, hi.rewraps, ?_, ?_⟩
  · refine List.forall_mem_cons.mpr ⟨hlt, fun c hc => ?_⟩
    have := hi.before c hc
    show c.drawnAt < n'
    omega
  · -- The new encryption draws its key after every earlier one.
    intro c hc d hd hcd
    rcases List.mem_cons.mp hc with rfl | hc <;> rcases List.mem_cons.mp hd with rfl | hd
    · rfl
    · have := hi.before d hd
      exact absurd hcd (by show n ≠ _; omega)
    · have := hi.before c hc
      exact absurd hcd (by show _ ≠ n; omega)
    · exact hi.distinct c hc d hd hcd
  · intro w hw
    rcases hw with ⟨c, hc, rfl⟩ | hr
    · exact ⟨c, hc, .enc hc⟩
    · obtain ⟨c, hc, hs⟩ := hi.stems w (Or.inr hr)
      exact ⟨c, List.mem_cons_of_mem _ hc, hs.mono (fun c hc => List.mem_cons_of_mem _ hc) fun r hr => hr⟩
  · intro b hb
    rcases hb with ⟨c, hc, rfl⟩ | hr
    · exact ⟨c, hc, rfl⟩
    · obtain ⟨c, hc, hb⟩ := hi.payload b (Or.inr hr)
      exact ⟨c, List.mem_cons_of_mem _ hc, hb⟩

theorem inv_rewrap (hS : S.Ideal) {h : History β} {v v' : UnlockedVault β} {e e' : EncryptedItemBlob β} {id : Id}
    {n n' : Nat} (hi : Inv S h) (hn : h.pos ≤ n) (ha : Assembled h e)
    (he : rewrapItemKey S v v' e id n = .ok (e', n')) :
    Inv S (h.rewrapped n' ⟨e, id, v, v', e'⟩) := by
  obtain ⟨-, hblob, hlt, k, hk, hk'⟩ := rewrapItemKey_ok hS he
  refine ⟨fun c hc => ?_, hi.distinct, hi.encs,
    List.forall_mem_cons.mpr ⟨⟨k, ⟨_, _, hk⟩, _, _, hk'⟩, hi.rewraps⟩, ?_, ?_⟩
  · have := hi.before c hc
    show c.drawnAt < n'
    omega
  · intro w hw
    have hold : ∀ {w}, HasKey h w → ∃ c ∈ h.encs, Stems (h.rewrapped n' ⟨e, id, v, v', e'⟩) w c := by
      intro w hw
      obtain ⟨c, hc, hs⟩ := hi.stems w hw
      exact ⟨c, hc, hs.mono (fun c hc => hc) fun r hr => List.mem_cons_of_mem _ hr⟩
    rcases hw with hc | ⟨r, hr, rfl⟩
    · exact hold (Or.inl hc)
    · rcases List.mem_cons.mp hr with rfl | hr
      · obtain ⟨c, hc, hs⟩ := hold ha.1
        exact ⟨c, hc, .rewrap List.mem_cons_self hs⟩
      · exact hold (Or.inr ⟨r, hr, rfl⟩)
  · intro b hb
    rcases hb with hc | ⟨r, hr, rfl⟩
    · exact hi.payload b (Or.inl hc)
    · rcases List.mem_cons.mp hr with rfl | hr
      · show ∃ c ∈ h.encs, c.out.blob = e'.blob
        rw [hblob]
        exact hi.payload _ ha.2
      · exact hi.payload _ (Or.inr ⟨r, hr, rfl⟩)

theorem run_inv (hS : S.Ideal) {h : History β} (hr : Run S h) : Inv S h := by
  induction hr with
  | init n =>
    refine ⟨fun c hc => (by cases hc), fun c hc => (by cases hc), fun c hc => (by cases hc), fun r hr => (by cases hr),
      ?_, ?_⟩
    · rintro w (⟨c, hc, -⟩ | ⟨r, hr, -⟩)
      · cases hc
      · cases hr
    · rintro b (⟨c, hc, -⟩ | ⟨r, hr, -⟩)
      · cases hc
      · cases hr
  | encrypt _ hn he ih => exact inv_encrypt ih hn he
  | rewrap _ hn ha he ih => exact inv_rewrap hS ih hn ha he

/-! ## What decrypts -/

/-- Only parts of one encryption decrypt together, as the item and in the vault they were
    encrypted for, to what was encrypted. -/
theorem decrypt_stems (hS : S.Ideal) {h : History β} (hr : Run S h) {e : EncryptedItemBlob β} (ha : Assembled h e)
    {id : Id} {v : UnlockedVault β} {p : List β} (hd : decryptItem S e id v = .ok p) :
    ∃ c ∈ h.encs, Stems h e.wrappedItemKey c ∧ c.out.blob = e.blob ∧ c.plaintext = p ∧ c.id = id ∧
      c.vault.vaultId = v.vaultId ∧ ∃ k, S.osKey c.drawnAt = some k ∧
        Wraps S v.ikek k (aadForItemKey v.vaultId id) e.wrappedItemKey := by
  have hi := run_inv hS hr
  obtain ⟨-, k, hw, hb⟩ := (decryptItem_ok hS).mp hd
  obtain ⟨c, hc, hs⟩ := hi.stems _ ha.1
  obtain ⟨d, hd', hblob⟩ := hi.payload _ ha.2
  obtain ⟨kc, k', a, hkc, hwc⟩ := stems_key hS hi hs
  obtain ⟨kd, hkd, -, hbd⟩ := hi.encs d hd'
  -- The key wraps in the first part what opens the second, so one encryption drew it.
  obtain ⟨-, -, rfl⟩ := hw.unique hS hwc
  rw [hblob] at hbd
  obtain ⟨rfl, haad, rfl⟩ := hb.unique hS hbd
  obtain rfl := hi.distinct c hc d hd' (hS.key_fresh hkc hkd)
  have hctx : Context.itemBlob v.vaultId id = Context.itemBlob c.vault.vaultId c.id := Context.bytes_inj.mp haad
  obtain ⟨hv, hid⟩ := Context.itemBlob.inj hctx
  exact ⟨c, hc, hs, hblob, rfl, hid.symm, hv.symm, k, hkc, hw⟩

/-! ## A trace -/

/-- Two versions of one item, then another IKEK, and the first version re-wrapped to it. -/
def demoEdited : EncryptedItemBlob Term × Nat :=
  okVal (encryptItem demo.suite [.data 1] (.replicate 16 1) demoVault.1.unlocked demoItem.2) (by decide +kernel)

def demoRotated : (EncryptedKeySet Term × UnlockedVault Term) × Nat :=
  okVal (rotateIkek demo.suite demoVault.1.unlocked demoVault.1.encrypted demoEdited.2) (by decide +kernel)

def demoMoved : EncryptedItemBlob Term × Nat :=
  okVal (rewrapItemKey demo.suite demoVault.1.unlocked demoRotated.1.2 demoItem.1 (.replicate 16 1) demoRotated.2)
    (by decide +kernel)

def demoHistory : History Term :=
  (((⟨demoVault.2, [], []⟩ : History Term).encrypted demoItem.2
    ⟨demoVault.2, [.data 0], .replicate 16 1, demoVault.1.unlocked, demoItem.1⟩).encrypted demoEdited.2
      ⟨demoItem.2, [.data 1], .replicate 16 1, demoVault.1.unlocked, demoEdited.1⟩).rewrapped demoMoved.2
        ⟨demoItem.1, .replicate 16 1, demoVault.1.unlocked, demoRotated.1.2, demoMoved.1⟩

theorem demoHistory_run : Run demo.suite demoHistory := by
  have hmoved : rewrapItemKey demo.suite demoVault.1.unlocked demoRotated.1.2 demoItem.1 (.replicate 16 1) demoRotated.2 =
      .ok (demoMoved.1, demoMoved.2) := okVal_eq _
  have hle : demoEdited.2 ≤ demoRotated.2 := by decide +kernel
  refine .rewrap (((Run.init demoVault.2).encrypt (Nat.le_refl _) demoItem_encrypted).encrypt (Nat.le_refl _)
    (okVal_eq _)) hle ⟨?_, ?_⟩ hmoved
  · exact Or.inl ⟨_, .tail _ (.head _), rfl⟩
  · exact Or.inl ⟨_, .tail _ (.head _), rfl⟩

/-- The key wrapping of after the rotation, with the payload of before it. -/
theorem decrypt_stems_moved :
    ∃ c ∈ demoHistory.encs, Stems demoHistory demoMoved.1.wrappedItemKey c ∧ c.out.blob = demoItem.1.blob ∧
      c.plaintext = [.data 0] ∧ c.id = .replicate 16 1 := by
  have ha : Assembled demoHistory { demoItem.1 with wrappedItemKey := demoMoved.1.wrappedItemKey } :=
    ⟨Or.inr ⟨_, List.mem_cons_self, rfl⟩, Or.inl ⟨_, .tail _ (.head _), rfl⟩⟩
  have hd : decryptItem demo.suite { demoItem.1 with wrappedItemKey := demoMoved.1.wrappedItemKey } (.replicate 16 1)
      demoRotated.1.2 = .ok [.data 0] := by decide +kernel
  obtain ⟨c, hc, hs, hb, hp, hid, -⟩ := decrypt_stems demo.suite_ideal demoHistory_run ha hd
  exact ⟨c, hc, hs, hb, hp, hid⟩

end RootkeyCrypto.Splice
