/-
  RootkeyCrypto.World.Forged — records the attacker makes himself.

  Whoever has the storage need not hand back records that were stored. He may hand back any
  bytes he can make: from everything stored, from the outside, from keys that leaked,
  passwords he guesses and recovery keys that are not kept from him, with the packages.

  Proved, for every world and every such record:
  - `handles_genuine`: a vault opened from it is genuine, as one opened from stored pieces
    is, unless he has the opener's key or the KEK or VMK that came out.
  - `root_keys_genuine`: so is an account opened by password, recovery key or envelope,
    unless he has the opener's key.
  - `items_genuine`: an item that opens has the item key of a stored item of that vault and
    id, unless he has the IKEK, and the payload of one, unless he has that item key.
  So every layer keeps him out until he has its key, and a leak lets him forge below it only.
-/

import RootkeyCrypto.Account.TypedKey
import RootkeyCrypto.World.Leaks

namespace RootkeyCrypto.Worlds

open Lib

variable {o : Oracle} {w : World Term} {Env : Term → Prop} {Sec : Nat → Prop} {Leaked : SymmetricKey Term → Prop}
  {Guess : List UInt8 → Prop}

/-- What the attacker can make. -/
abbrev Makes (o : Oracle) (w : World Term) (Env : Term → Prop) (Sec : Nat → Prop) (Leaked : SymmetricKey Term → Prop)
    (Guess : List UInt8 → Prop) : List Term → Prop :=
  Derives o.suite (Seen (Storage o w) (Start Env Sec Leaked)) Guess

/-! ## One layer -/

/-- One ciphertext is of one cipher. -/
theorem wraps_not_seals {k k' p : SymmetricKey Term} {q : List Term} {a a' : List UInt8} {x : WrappedKey Term}
    {b : SealedBlob Term} (h : Wraps o.suite k p a x) (h' : Seals o.suite k' q a' b) : x.ciphertext ≠ b.ciphertext := by
  intro he
  have hx := Option.some.inj h
  rw [he, ← Option.some.inj h'] at hx
  cases (List.cons.inj hx).1

section World

variable (hw : Reach o.suite Env w) (henv : ∀ b, Env b → Plain o b) (hleak : ∀ k, Leaked k → Leakable o w k)

include hw henv hleak

/-- What he makes that opens under a key he has not is stored. -/
theorem made_stored {cipher : Cipher} {n : Nat} {k : Arr Term 32} {nonce : Arr UInt8 n} {aad : List UInt8}
    {m c : List Term} (hc : Makes o w Env Sec Leaked Guess c) (hk : ¬ Makes o w Env Sec Leaked Guess k.toList)
    (hd : (symAead cipher n).decrypt k nonce aad c = some m) :
    ∃ x, Storage o w x ∧ x.key = k ∧ x.plain = m ∧ x.out = c := by
  have hs := reach_sound o.suite_ideal hw
  obtain ⟨role, -, hl⟩ := reach_levels o.suite_ideal hw
  have hok := stored_ok hs hl henv
  exact hc.stored (fun x hx => ⟨(hok x hx).1, fun b hb => plain_atom ((hok x hx).2.2 b hb)⟩)
    (start_atom hl henv hleak) hk hd

/-- A wrapped key he makes that unwraps under a key he has not is a piece of the world. -/
theorem forged_key {k p : SymmetricKey Term} {a : List UInt8} {x : WrappedKey Term}
    (hx : Makes o w Env Sec Leaked Guess x.ciphertext) (hk : ¬ Makes o w Env Sec Leaked Guess k.toList)
    (h : Wraps o.suite k p a x) : w.Has x := by
  have hs := reach_sound o.suite_ideal hw
  obtain ⟨s, hst, -, -, hout⟩ := made_stored hw henv hleak hx hk (o.suite_ideal.aes.opens h)
  cases hst with
  | @wrapped r hr =>
    have hwraps := hs.wraps r hr
    obtain ⟨-, hnonce, -⟩ := o.suite_ideal.aes.inj (hwraps.trans (congrArg some hout)) h
    exact ⟨r, hr, WrappedKey.ext hnonce hout⟩
  | payload hx h' => exact absurd hout.symm (wraps_not_seals h h')

theorem forged_payload {k : SymmetricKey Term} {p : List Term} {a : List UInt8} {b : SealedBlob Term}
    (hb : Makes o w Env Sec Leaked Guess b.ciphertext) (hk : ¬ Makes o w Env Sec Leaked Guess k.toList)
    (h : Seals o.suite k p a b) : ∃ y ∈ w.all.payloads, y.plain = p ∧ y.out = b := by
  have hs := reach_sound o.suite_ideal hw
  obtain ⟨s, hst, -, hplain, hout⟩ := made_stored hw henv hleak hb hk (o.suite_ideal.xchacha.opens h)
  cases hst with
  | wrapped hr => exact absurd hout (wraps_not_seals (hs.wraps _ hr) h)
  | @payload y k' a' hy h' =>
    obtain ⟨-, hnonce, -⟩ := o.suite_ideal.xchacha.inj (h'.trans (congrArg some hout)) h
    exact ⟨y, hy, hplain, SealedBlob.ext hnonce hout⟩

end World

/-! ## What opens -/

/-- A handle opened from records he makes: with the opener's key and what its wrapping of
    the KEK is for. -/
inductive OpenedFrom (S : Suite Term) (G : List Term → Prop) : UnlockedVault Term → Context → SymmetricKey Term → Prop
  | password {pw ks v muk} (hk : G ks.wrappedKek.ciphertext) (hv : G ks.wrappedVmk.ciphertext)
      (hi : G ks.wrappedIkek.ciphertext) (hm : deriveMuk S pw ks.kdf = .ok muk) (h : unlockVault S pw ks = .ok v) :
      OpenedFrom S G v (.kek v.accountId v.vaultId ks.kdf) muk
  | biometric {k e ks v} (hk : G e.wrappedKek.ciphertext) (hv : G ks.wrappedVmk.ciphertext)
      (hi : G ks.wrappedIkek.ciphertext) (h : unlockViaBiometric S k e ks = .ok v) :
      OpenedFrom S G v (.biometric v.vaultId) k
  | account {a e s v} (hk : G e.wrappedKek.ciphertext) (hv : G s.wrappedVmk.ciphertext)
      (hi : G s.wrappedIkek.ciphertext) (h : unlockAccountVault S a e s = .ok v) :
      OpenedFrom S G v (.vaultKek v.accountId v.vaultId) a.ark

/-- Its three wrapped keys are his, and hold its keys. -/
theorem OpenedFrom.pieces {S : Suite Term} (hS : S.Ideal) {G : List Term → Prop} {v : UnlockedVault Term} {c : Context}
    {k : SymmetricKey Term} (h : OpenedFrom S G v c k) : ∃ wk wv wi : WrappedKey Term,
      (G wk.ciphertext ∧ G wv.ciphertext ∧ G wi.ciphertext) ∧ Wraps S k v.kek c.bytes wk ∧ Below S v wv wi := by
  cases h with
  | password hk hv hi hm h =>
    obtain ⟨-, muk, hmuk, hh⟩ := (unlockVault_ok hS).mp h
    cases hm.symm.trans hmuk
    refine ⟨_, _, _, ⟨hk, hv, hi⟩, ?_, hh.below⟩
    rw [hh.account, hh.vault]
    exact hh.kek
  | biometric hk hv hi h =>
    obtain ⟨-, -, -, hid, hw, hb⟩ := (unlockViaBiometric_ok hS).mp h
    refine ⟨_, _, _, ⟨hk, hv, hi⟩, ?_, hb⟩
    rw [hid]
    exact hw
  | account hk hv hi h =>
    have hm := ((unlockAccountVault_ok hS).mp h).2
    refine ⟨_, _, _, ⟨hk, hv, hi⟩, ?_, hm.below⟩
    rw [hm.account, hm.vault]
    exact hm.kek

/-- An account opened from records he makes, by password, recovery key or envelope. -/
inductive AccountFrom (S : Suite Term) (G : List Term → Prop) : UnlockedAccount Term → Context → SymmetricKey Term → Prop
  | password {pw ks a muk} (hk : G ks.wrappedArk.ciphertext) (hm : deriveMuk S pw ks.kdf = .ok muk)
      (h : unlockAccount S pw ks = .ok a) : AccountFrom S G a (.ark a.accountId ks.kdf) muk
  | recovery {rk raw ks a x} (hx : ks.wrappedArkRecovery = some x) (hk : G x.ciphertext)
      (hraw : normalizeRecoveryKey rk = .ok raw) (h : unlockAccountWithRecoveryKey S rk ks = .ok a) :
      AccountFrom S G a (.recovery a.accountId) (recoveryKekFrom S raw a.accountId)
  | biometric {k e ks a} (hk : G e.wrappedArk.ciphertext) (h : unlockAccountViaBiometric S k e ks = .ok a) :
      AccountFrom S G a (.accountBiometric a.accountId) k

theorem AccountFrom.piece {S : Suite Term} (hS : S.Ideal) {G : List Term → Prop} {a : UnlockedAccount Term} {c : Context}
    {k : SymmetricKey Term} (h : AccountFrom S G a c k) :
    ∃ x : WrappedKey Term, G x.ciphertext ∧ Wraps S k a.ark c.bytes x := by
  cases h with
  | password hk hm h =>
    obtain ⟨-, hid, muk, hmuk, hw⟩ := (unlockAccount_ok hS).mp h
    cases hm.symm.trans hmuk
    rw [← hid] at hw
    exact ⟨_, hk, hw⟩
  | recovery hx hk hraw h =>
    obtain ⟨-, hid, _, _, hx', hraw', hw⟩ := (unlockAccountWithRecoveryKey_ok hS).mp h
    cases hx.symm.trans hx'
    cases hraw.symm.trans hraw'
    rw [← hid] at hw
    exact ⟨_, hk, hw⟩
  | biometric hk h =>
    obtain ⟨-, -, hid, hw⟩ := (unlockAccountViaBiometric_ok hS).mp h
    rw [← hid] at hw
    exact ⟨_, hk, hw⟩

/-- A vault opened from records he makes is genuine, unless he has the key above a layer. -/
theorem handles_genuine (hw : Reach o.suite Env w) (henv : ∀ b, Env b → Plain o b)
    (hleak : ∀ k, Leaked k → Leakable o w k) {v : UnlockedVault Term} {c : Context} {k : SymmetricKey Term}
    (ho : OpenedFrom o.suite (Makes o w Env Sec Leaked Guess) v c k)
    (hk : ¬ Makes o w Env Sec Leaked Guess k.toList) (hkek : ¬ Makes o w Env Sec Leaked Guess v.kek.toList)
    (hvmk : ¬ Makes o w Env Sec Leaked Guess v.vmk.toList) : Genuine w v c k := by
  obtain ⟨wk, wv, wi, ⟨hgk, hgv, hgi⟩, hwk, hb⟩ := ho.pieces o.suite_ideal
  have hs := reach_sound o.suite_ideal hw
  have hkek' := has_wrapped o.suite_ideal hs (forged_key hw henv hleak hgk hk hwk) hwk
  exact genuine_of_below o.suite_ideal hw hkek' (forged_key hw henv hleak hgv hkek hb.vmk)
    (forged_key hw henv hleak hgi hvmk hb.ikek) hb

/-- An account opened from records he makes has a root key that was wrapped for it. -/
theorem root_keys_genuine (hw : Reach o.suite Env w) (henv : ∀ b, Env b → Plain o b)
    (hleak : ∀ k, Leaked k → Leakable o w k) {a : UnlockedAccount Term} {c : Context} {k : SymmetricKey Term}
    (ho : AccountFrom o.suite (Makes o w Env Sec Leaked Guess) a c k)
    (hk : ¬ Makes o w Env Sec Leaked Guess k.toList) : Wrapped w c k a.ark := by
  obtain ⟨x, hx, hwraps⟩ := ho.piece o.suite_ideal
  exact has_wrapped o.suite_ideal (reach_sound o.suite_ideal hw) (forged_key hw henv hleak hx hk hwraps) hwraps

/-- An item that opens from records he makes has an item key stored for that vault and id,
    and, unless he has it, a stored payload. -/
theorem items_genuine (hw : Reach o.suite Env w) (henv : ∀ b, Env b → Plain o b)
    (hleak : ∀ k, Leaked k → Leakable o w k) {e : EncryptedItemBlob Term} {id : Id} {v : UnlockedVault Term}
    {p : List Term} (ho : decryptItem o.suite e id v = .ok p)
    (hk : Makes o w Env Sec Leaked Guess e.wrappedItemKey.ciphertext)
    (hb : Makes o w Env Sec Leaked Guess e.blob.ciphertext) (hv : ¬ Makes o w Env Sec Leaked Guess v.ikek.toList) :
    w.Has e.wrappedItemKey ∧ ∃ k, Wrapped w (.itemKey v.vaultId id) v.ikek k ∧
      Seals o.suite k p (aadForItemBlob v.vaultId id) e.blob ∧
      (Makes o w Env Sec Leaked Guess k.toList ∨ ∃ y ∈ w.all.payloads, y.plain = p ∧ y.out = e.blob) := by
  obtain ⟨-, k, hwraps, hseals⟩ := (decryptItem_ok o.suite_ideal).mp ho
  have hhas := forged_key hw henv hleak hk hv hwraps
  have hwrapped : Wrapped w (.itemKey v.vaultId id) v.ikek k :=
    has_wrapped o.suite_ideal (reach_sound o.suite_ideal hw) hhas hwraps
  refine ⟨hhas, k, hwrapped, hseals, ?_⟩
  by_cases hmade : Makes o w Env Sec Leaked Guess k.toList
  · exact Or.inl hmade
  · exact Or.inr (forged_payload hw henv hleak hb hmade hseals)

/-! ## A trace -/

/-- With nothing leaked and no content outside, what he makes may be published. -/
theorem made_safe (hw : Reach o.suite (fun b => ∃ d, b = .data d) w)
    (hlocked : ∀ r ∈ w.all.wrapped, Locked o Guess r.key) {m : List Term}
    (h : Makes o w (fun b => ∃ d, b = .data d) (fun _ => True) (fun _ => False) Guess m) :
    AllSafe (allSecret Guess) m := by
  refine h.closed (safe_closed o fun _ hg => hg) fun m hm => ?_
  rcases hm with hm | ⟨x, hx, rfl⟩
  · cases hm with
    | outside hb hs =>
      obtain ⟨d, rfl⟩ := hb
      exact absurd trivial hs
    | leaked h => exact h.elim
  · exact locked_safe hw hlocked (.known ⟨x, hx, rfl⟩)

theorem demoMuk_derived : deriveMuk demo.suite "a" demoVault.1.encrypted.kdf = .ok demoMuk := by decide +kernel

/-- He has no drawn key of the vault with one item. -/
theorem demo_locked_out (i : Nat) : ¬ Makes demo demoItemWorld (fun b => ∃ d, b = .data d) (fun _ => True)
    (fun _ => False) (fun _ => False) (keyAt i).toList :=
  fun h => (osKey_safe (o := demo) (i := i) rfl).mp (made_safe demoItemWorld_reach demoItemWorld_locked h) trivial

/-- He hands back the vault as it was stored. -/
theorem handles_genuine_stored : Genuine demoItemWorld demoVault.1.unlocked
    (.kek demoVault.1.unlocked.accountId demoVault.1.unlocked.vaultId demoVault.1.encrypted.kdf) demoMuk := by
  have hopen : unlockVault demo.suite "a" demoVault.1.encrypted = .ok demoVault.1.unlocked := by decide +kernel
  refine handles_genuine demoItemWorld_reach demo_plain (fun _ h => h.elim) (.password ?_ ?_ ?_ demoMuk_derived hopen) ?_
    (demo_locked_out 3) (demo_locked_out 4)
  · exact .known (Or.inr ⟨_, .wrapped (List.mem_cons_of_mem _ List.mem_cons_self), rfl⟩)
  · exact .known (Or.inr ⟨_, .wrapped demoVmkRec_mem, rfl⟩)
  · exact .known (Or.inr ⟨_, .wrapped demoIkekRec_mem, rfl⟩)
  · exact fun h => (deriveMuk_safe demoMuk_derived).mp (made_safe demoItemWorld_reach demoItemWorld_locked h)

/-- The account with a recovery key set up. -/
def demoRecoverable : AccountKeySet Term :=
  { demoAccount.1.encrypted with wrappedArkRecovery := some TypedKey.demoRecovery.1.2 }

/-- He hands back the account, and it is opened by password and by recovery key. -/
theorem root_keys_genuine_stored : ∃ w muk raw, Reach demo.suite (fun b => ∃ d, b = .data d) w ∧
    Wrapped w (.ark demoAccount.1.unlocked.accountId demoRecoverable.kdf) muk demoAccount.1.unlocked.ark ∧
    Wrapped w (.recovery demoAccount.1.unlocked.accountId)
      (recoveryKekFrom demo.suite raw demoAccount.1.unlocked.accountId) demoAccount.1.unlocked.ark := by
  obtain ⟨kdf, muk, wa, henc, hm, -⟩ := createAccount_ok demoAccount_created
  have hkdf : demoAccount.1.encrypted.kdf = kdf := by rw [henc]
  rw [← hkdf] at hm
  have hset : setupRecoveryKey demo.suite demoAccount.1.unlocked demoAccount.2 =
      .ok ((TypedKey.demoRecovery.1.1, TypedKey.demoRecovery.1.2), TypedKey.demoRecovery.2) := okVal_eq _
  obtain ⟨raw, hraw, hwraps, -⟩ := setupRecoveryKey_ok hset
  have hkept : demo.kept (asBytes raw) = true := by
    have hlen := ((TypedKey.isKey_iff raw).mp (TypedKey.normalize_types hraw).1).1
    cases h : asBytes raw with
    | nil => rw [h] at hlen; cases hlen
    | cons b l => rfl
  have h0 : Reach demo.suite (fun b => ∃ d, b = .data d) (⟨0, {}⟩ : World Term) := .init 0
  have h1 := h0.call (Nat.le_refl _) (.createAccount demoAccount_created hm)
  obtain ⟨w, hw, hall⟩ : ∃ w, Reach demo.suite (fun b => ∃ d, b = .data d) w ∧ w.all.wrapped =
      [⟨.recovery demoAccount.1.unlocked.accountId, recoveryKekFrom demo.suite raw demoAccount.1.unlocked.accountId,
        demoAccount.1.unlocked.ark, TypedKey.demoRecovery.1.2⟩,
       ⟨.ark demoAccount.1.unlocked.accountId demoAccount.1.encrypted.kdf, muk, demoAccount.1.unlocked.ark,
        demoAccount.1.encrypted.wrappedArk⟩] :=
    ⟨_, h1.call (Nat.le_refl _) (.setupRecoveryKey List.mem_cons_self hset hraw), rfl⟩
  have hlocked : ∀ r ∈ w.all.wrapped, Locked demo (fun _ => False) r.key := by
    rw [hall]
    exact List.forall_mem_cons.mpr ⟨locked_recovery hkept, List.forall_mem_singleton.mpr (locked_unguessed hm)⟩
  -- Neither key is in his hands.
  have hmuk : ¬ Makes demo w (fun b => ∃ d, b = .data d) (fun _ => True) (fun _ => False) (fun _ => False) muk.toList :=
    fun h => (deriveMuk_safe hm).mp (made_safe hw hlocked h)
  have hkek : ¬ Makes demo w (fun b => ∃ d, b = .data d) (fun _ => True) (fun _ => False) (fun _ => False)
      (recoveryKekFrom demo.suite raw demoAccount.1.unlocked.accountId).toList :=
    fun h => recoveryKekFrom_safe.mp (made_safe hw hlocked h) hkept trivial
  have hpw : unlockAccount demo.suite "a" demoRecoverable = .ok demoAccount.1.unlocked := by decide +kernel
  have hrk : unlockAccountWithRecoveryKey demo.suite TypedKey.demoRecovery.1.1 demoRecoverable =
      .ok demoAccount.1.unlocked :=
    (unlockAccountWithRecoveryKey_ok demo.suite_ideal).mpr ⟨by decide +kernel, rfl, _, raw, rfl, hraw, hwraps⟩
  refine ⟨w, muk, raw, hw, root_keys_genuine hw demo_plain (fun _ h => h.elim) (.password ?_ hm hpw) hmuk,
    root_keys_genuine hw demo_plain (fun _ h => h.elim) (.recovery rfl ?_ hraw hrk) hkek⟩
  · exact .known (Or.inr ⟨_, .wrapped (by rw [hall]; exact List.mem_cons_of_mem _ List.mem_cons_self), rfl⟩)
  · exact .known (Or.inr ⟨_, .wrapped (by rw [hall]; exact List.mem_cons_self), rfl⟩)

/-- He hands back the item as it was stored. -/
theorem items_genuine_stored : demoItemWorld.Has demoItem.1.wrappedItemKey ∧ ∃ y ∈ demoItemWorld.all.payloads,
    y.plain = [.data 0] ∧ y.out = demoItem.1.blob := by
  have hopen : decryptItem demo.suite demoItem.1 (.replicate 16 1) demoVault.1.unlocked = .ok [.data 0] := by
    decide +kernel
  obtain ⟨-, -, k, hk, hwraps, hseals⟩ := encryptItem_ok demoItem_encrypted
  cases hk
  obtain ⟨hhas, k', -, hseals', hcase⟩ := items_genuine demoItemWorld_reach demo_plain
    (fun _ h => h.elim) hopen (.known (Or.inr ⟨_, .wrapped List.mem_cons_self, rfl⟩))
    (.known (Or.inr ⟨_, .payload List.mem_cons_self hseals, rfl⟩)) (demo_locked_out 5)
  refine ⟨hhas, hcase.resolve_left ?_⟩
  rw [(hseals'.unique demo.suite_ideal hseals).1]
  exact demo_locked_out demoVault.2

end RootkeyCrypto.Worlds
