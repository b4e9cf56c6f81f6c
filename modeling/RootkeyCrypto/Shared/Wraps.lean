/-
  RootkeyCrypto.Shared.Wraps — what a wrap says about who made it.

  A wrap is an anonymous sealed box for a member's public key, which is published. Whoever
  distributes wraps, a storage provider or members who were removed, may hand a member a
  wrap of his own.

  The runs, the coalition and what it knows are those of `RootkeyCrypto.Shared.Revocation`.
  `forged_wraps`: the keys a member can be made to accept are exactly those the coalition
  knows and those of the epochs he is a recipient of. So a wrap never gives him a key that
  is secret from the coalition and not his, but it may give him one that is the coalition's,
  such as the key of an epoch that is over.
-/

import RootkeyCrypto.Shared.Revocation
import RootkeyCrypto.Lib.Opened

namespace RootkeyCrypto.Revocation

open Lib

variable {ι : Type} {o : Oracle} {V : Id} {C : ι → Prop} {e : Nat} {st : St ι} {role : Nat → Option (Role ι)}

/-! ## What the coalition did not make -/

/-- The wraps of the run, and any ciphertext of a key or a content. -/
inductive Kept (o : Oracle) (st : St ι) : Stored → Prop
  | wrap {k : Nat} {ep : Epoch ι} {i m n body} (hep : st.epochs[k]? = some ep) (hi : i ∈ ep.recipients)
      (hm : st.members i = some m) (h : o.suite.boxSeal n m.identity.publicKey ep.key.toList = some body) :
      Kept o st ⟨m.identity.secret, ep.key.toList, body⟩
  | key {k p a w} (h : Wraps o.suite k p a w) (hp : ∀ b ∈ p.toList, Atom b) : Kept o st ⟨k, p.toList, w.ciphertext⟩
  | content {k p a b} (h : Seals o.suite k p a b) (hp : ∀ b ∈ p, Atom b) : Kept o st ⟨k, p, b.ciphertext⟩

theorem drawnFor_atom {r : Role ι} {k : Arr Term 32} (h : DrawnFor o.suite role r k) : ∀ b ∈ k.toList, Atom b := by
  obtain ⟨i, hi, -⟩ := h
  intro b hb
  obtain ⟨j, rfl⟩ := plain_drawn hi b hb
  exact trivial

theorem blake_atom (o : Oracle) (c : String) (m : List Term) : ∀ b ∈ (o.suite.blake3 c m).toList, Atom b := by
  intro b hb
  obtain ⟨j, -, rfl⟩ := List.mem_map.mp hb
  exact trivial

theorem content_atom {x : Item} {ep : Epoch ι} (h : ItemOk o V role x ep) : ∀ b ∈ x.plaintext, Atom b := by
  intro b hb
  have hc := h.content b hb
  cases b with
  | data d => exact trivial
  | lit c => exact trivial
  | _ => exact hc.elim

theorem MountOk.vmk_atom {c : Mount ι} {m : Member} {ep : Epoch ι} (h : MountOk o V role c m ep) :
    ∀ b ∈ c.out.unlocked.vmk.toList, Atom b := by
  rw [h.vmk]
  exact blake_atom o _ _

theorem MountOk.ikek_atom {c : Mount ι} {m : Member} {ep : Epoch ι} (h : MountOk o V role c m ep) :
    ∀ b ∈ c.out.unlocked.ikek.toList, Atom b := by
  rw [h.ikek]
  exact blake_atom o _ _

/-- They are what they are kept as. -/
theorem kept_ok (hi : Inv o V st role) {x : Stored} (hx : Kept o st x) : x.Ok o ∧ ∀ b ∈ x.plain, Atom b := by
  cases hx with
  | wrap hep _ hm h =>
    rw [(hi.members _ _ hm).publicKey] at h
    exact ⟨.box h, drawnFor_atom (hi.epochs _ _ hep).key⟩
  | key h hp => exact ⟨.aes h, hp⟩
  | content h hp => exact ⟨.xchacha h, hp⟩

section Knows

variable {D : List Term → Prop}

theorem own_key {k : Arr Term 32} (h : ∀ b ∈ k.toList, Atom b) : ∀ b ∈ k.toList, Own D (Kept o st) b :=
  fun b hb => own_atom (h b hb)

theorem own_wrapped {k p : SymmetricKey Term} {a : List UInt8} {w : WrappedKey Term} (h : Wraps o.suite k p a w)
    (hp : ∀ b ∈ p.toList, Atom b) : ∀ b ∈ w.ciphertext, Own D (Kept o st) b :=
  Stored.Ok.own (x := ⟨k, p.toList, w.ciphertext⟩) (.aes h) (.key h hp)

/-- What the coalition begins with is kept, or nothing is inside of it. -/
theorem known_own (hi : Inv o V st role) : ∀ m, Known o C e st m → ∀ b ∈ m, Own D (Kept o st) b := by
  intro m hm
  cases hm with
  | identity _ hm => exact own_key (drawnFor_atom (hi.members _ _ hm).identity)
  | ark _ hm => exact own_key (drawnFor_atom (hi.members _ _ hm).ark)
  | kek hc _ =>
    obtain ⟨_, _, -, -, hok⟩ := hi.mounts _ hc
    exact own_key (drawnFor_atom hok.kek)
  | vmk hc _ =>
    obtain ⟨_, _, -, -, hok⟩ := hi.mounts _ hc
    exact own_key hok.vmk_atom
  | ikek hc _ =>
    obtain ⟨_, _, -, -, hok⟩ := hi.mounts _ hc
    exact own_key hok.ikek_atom
  | drawn _ hk =>
    intro b hb
    obtain ⟨j, rfl⟩ := plain_drawn hk b hb
    exact trivial
  | sharedKey hep _ => exact own_key (drawnFor_atom (hi.epochs _ _ hep).key)
  | content hx _ =>
    obtain ⟨_, -, hok⟩ := hi.items _ hx
    exact fun b hb => own_atom (content_atom hok b hb)
  | publicKey hm =>
    rw [(hi.members _ _ hm).publicKey]
    intro b hb
    obtain ⟨j, -, rfl⟩ := List.mem_map.mp hb
    exact trivial
  | wrap hep hw =>
    obtain ⟨i, hrec, m, n, hm, body, hbox, hbytes⟩ := paired_right (hi.epochs _ _ hep).wraps hw
    have hx : Kept o st ⟨m.identity.secret, _, body⟩ := .wrap hep hrec hm hbox
    rw [hbytes]
    exact List.forall_mem_cons.mpr ⟨trivial, (kept_ok hi hx).1.own hx⟩
  | keysetArk hm =>
    obtain ⟨_, _, _, -, hw⟩ := (hi.members _ _ hm).wrapped
    exact own_wrapped hw (drawnFor_atom (hi.members _ _ hm).ark)
  | keysetRecovery hm hx =>
    rw [(hi.members _ _ hm).recovery] at hx
    cases hx
  | keysetEntry hx =>
    obtain ⟨c, hc, rfl⟩ := hi.vaults _ _ hx
    obtain ⟨_, _, -, -, hok⟩ := hi.mounts c hc
    exact own_wrapped hok.mounts.kek (drawnFor_atom hok.kek)
  | formerEntry hc =>
    obtain ⟨_, _, -, -, hok⟩ := hi.mounts _ hc
    exact own_wrapped hok.mounts.kek (drawnFor_atom hok.kek)
  | slotVmk hc =>
    obtain ⟨_, _, -, -, hok⟩ := hi.mounts _ hc
    exact own_wrapped hok.mounts.below.vmk hok.vmk_atom
  | slotIkek hc =>
    obtain ⟨_, _, -, -, hok⟩ := hi.mounts _ hc
    exact own_wrapped hok.mounts.below.ikek hok.ikek_atom
  | itemKey hx =>
    obtain ⟨_, -, hok⟩ := hi.items _ hx
    obtain ⟨_, _, _, hk, hw, -⟩ := hok.key
    exact own_wrapped hw (drawnFor_atom hk)
  | item hx =>
    obtain ⟨_, -, hok⟩ := hi.items _ hx
    obtain ⟨k, _, _, -, -, hb⟩ := hok.key
    have hx' : Kept o st ⟨k, _, _⟩ := .content hb (content_atom hok)
    exact (kept_ok hi hx').1.own hx'

end Knows

/-! ## What it can hand to a member -/

/-- A ciphertext is no box. -/
theorem sealed_not_box {cipher : Cipher} {n : Nat} {k sk : Arr Term 32} {nonce : Arr UInt8 n} {aad : List UInt8}
    {p m c : List Term} (h : (symAead cipher n).encrypt k nonce aad p = some c) : o.suite.boxOpen sk c ≠ some m := by
  intro ho
  cases h
  cases ho

/-- A box that is kept and opens for a member is a wrap of an epoch he is a recipient of. -/
theorem kept_opens (hi : Inv o V st role) {i : ι} {m : Member} (hm : st.members i = some m) {x : Stored}
    (hx : Kept o st x) {key : SymmetricKey Term} (ho : o.suite.boxOpen m.identity.secret x.out = some key.toList) :
    ∃ (k : Nat) (ep : Epoch ι), st.epochs[k]? = some ep ∧ i ∈ ep.recipients ∧ key = ep.key := by
  cases hx with
  | @wrap k ep j m' n body hep hj hm' h =>
    obtain ⟨hpk, hkey⟩ := o.suite_box.only h ho
    rw [(hi.members j m' hm').publicKey] at hpk
    have hj' := (hi.members j m' hm').identity
    rw [public_inj o hpk] at hj'
    cases hj'.unique o.suite_ideal (hi.members i m hm).identity
    exact ⟨k, ep, hep, hj, Arr.toList_inj.mp hkey⟩
  | key h _ => exact absurd ho (sealed_not_box h)
  | content h _ => exact absurd ho (sealed_not_box h)

/-- The coalition makes wraps of the keys it knows, for anybody, and of no others. -/
theorem forged_wraps [DecidableEq ι] (h : Run o V st) {i : ι} {m : Member} (hm : st.members i = some m)
    (key : SymmetricKey Term) :
    (∃ w : SealedSharedKey Term, Reaches o C e st w.bytes ∧ unwrapWithIdentity o.suite w m.identity = .ok key) ↔
      Reaches o C e st key.toList ∨
        ∃ (k : Nat) (ep : Epoch ι), st.epochs[k]? = some ep ∧ i ∈ ep.recipients ∧ key = ep.key := by
  obtain ⟨role, hi⟩ := run_inv h
  constructor
  · rintro ⟨w, hw, ho⟩
    obtain ⟨body, hbytes, hopen⟩ := openSealedBytes_ok.mp (unwrapWithIdentity_ok.mp ho)
    have hbody : Reaches o C e st body := by
      rw [hbytes, ← List.append_nil body] at hw
      exact Derives.slice (x := [o.suite.lit sealedFormatV1]) hw
    rcases hbody.boxed (fun _ hx => kept_ok hi hx) (known_own hi) hopen with ⟨x, hx, rfl⟩ | hkey
    · exact Or.inr (kept_opens hi hm hx hopen)
    · exact Or.inl hkey
  · rintro (hkey | ⟨k, ep, hep, hrec, rfl⟩)
    · have hpk : Reaches o C e st m.identity.publicKey.toList := .known (.publicKey hm)
      obtain ⟨body, hbox⟩ : ∃ body, o.suite.boxSeal 0 m.identity.publicKey key.toList = some body := ⟨_, rfl⟩
      have hwrap : WrapsFor o.suite 0 key m.identity.publicKey ⟨o.suite.lit sealedFormatV1 :: body⟩ := ⟨body, hbox, rfl⟩
      refine ⟨_, ?_, unwrapWithIdentity_own o.suite_box hwrap (hi.members i m hm).publicKey⟩
      exact Derives.append (.lit sealedFormatV1) (.boxSeal hpk hkey hbox)
    · obtain ⟨w, hw, m', n, hm', hwrap⟩ := paired_left (hi.epochs k ep hep).wraps hrec
      cases hm.symm.trans hm'
      exact ⟨w, .known (.wrap hep hw), unwrapWithIdentity_own o.suite_box hwrap (hi.members i m hm).publicKey⟩

/-- The member who was removed hands the other one the first key again. -/
theorem forged_wraps_old_key : ∃ w : SealedSharedKey Term, Reaches demo (· = false) 1 demoSt w.bytes ∧
    unwrapWithIdentity demo.suite w demoStays.identity = .ok demoFirst.1.1 := by
  have hep : demoSt.epochs[0]? = some ⟨demoFirst.1.1, [true, false], demoFirst.1.2⟩ := rfl
  have hknown : Reaches demo (· = false) 1 demoSt demoFirst.1.1.toList := .known (.sharedKey hep Nat.one_pos)
  exact (forged_wraps demo_run (i := true) rfl _).mpr (Or.inl hknown)

end RootkeyCrypto.Revocation
