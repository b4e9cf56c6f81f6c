/-
  RootkeyCrypto.World.Held — which keys of a world an attacker has.

  The attacker sees everything ever stored: every wrapped key and every item payload of the
  world, old epochs and envelopes too. He knows what came from outside (signing seeds,
  shared vault keys, item plaintexts) but the contents that are secret, has every recovery
  key that is not kept from him, and guesses passwords. Some keys are leaked to him: keys of
  the world, or any that BLAKE3 derives.

  `Held` is how a key can get into his hands: leaked, from outside, derived from a guessed
  password, from a recovery key he has or from what he knows, or wrapped under a key he
  holds. `derives_iff_held` and `content_iff_held`: he derives a key exactly when he holds
  it, and reads a secret content exactly when he holds the key of an item with it. No other
  combination of what is stored gives him anything.
-/

import RootkeyCrypto.World.Levels
import RootkeyCrypto.World.Provenance
import RootkeyCrypto.Core.Secrecy
import RootkeyCrypto.Lib.Opened

namespace RootkeyCrypto.Worlds

open Lib

/-- What is stored: the wrapped keys and the payloads, each with the key it is under. -/
inductive Storage (o : Oracle) (w : World Term) : Stored → Prop
  | wrapped {r} (hr : r ∈ w.all.wrapped) : Storage o w ⟨r.key, r.plain.toList, r.out.ciphertext⟩
  | payload {x k a} (hx : x ∈ w.all.payloads) (h : Seals o.suite k x.plain a x.out) :
      Storage o w ⟨k, x.plain, x.out.ciphertext⟩

/-- Only the contents `Sec` are secret. -/
def contents (Sec : Nat → Prop) : Secrets := ⟨fun _ => False, Sec, fun _ => False, fun _ => True⟩

/-- What is known: the outside but the secret contents, and what is leaked. -/
inductive Start (Env : Term → Prop) (Sec : Nat → Prop) (Leaked : SymmetricKey Term → Prop) : List Term → Prop
  | outside {b} (h : Env b) (hs : Safe (contents Sec) b) : Start Env Sec Leaked [b]
  | leaked {k : SymmetricKey Term} (h : Leaked k) : Start Env Sec Leaked k.toList

/-- A wrapping of the world is with the key, or of it, and that is its level. -/
inductive World.At (w : World Term) : Level → SymmetricKey Term → Prop
  | key {r l} (hr : r ∈ w.all.wrapped) (h : keyLevel r.ctx = some l) : World.At w l r.key
  | plain {r l} (hr : r ∈ w.all.wrapped) (h : plainLevel r.ctx = some l) : World.At w l r.plain

/-- What was typed is not kept, or came from outside. -/
def KnownWord (o : Oracle) (Env : Term → Prop) (word : String) : Prop :=
  ∀ b ∈ o.suite.typed (asBytes word), (∃ x, b = .lit x) ∨ Env b

/-- The attacker has the key. -/
inductive Held (o : Oracle) (w : World Term) (Env : Term → Prop) (Sec : Nat → Prop)
    (Leaked : SymmetricKey Term → Prop) (Guess : List UInt8 → Prop) : SymmetricKey Term → Prop
  | leaked {k} (h : Leaked k) : Held o w Env Sec Leaked Guess k
  | outside {k} (h : Bytes Env k) (hs : SafeKey (contents Sec) k) : Held o w Env Sec Leaked Guess k
  | shared {k} (id : Id) (h : Bytes Env k) (hs : SafeKey (contents Sec) k) {k'}
      (hk : k' = (deriveSharedVaultKeys o.suite k id).1 ∨ k' = (deriveSharedVaultKeys o.suite k id).2) :
      Held o w Env Sec Leaked Guess k'
  | password {pw kdf k} (hg : Guess (asBytes (o.nfkd pw))) (h : deriveMuk o.suite pw kdf = .ok k) :
      Held o w Env Sec Leaked Guess k
  | recovery {raw : String} (id : Id) (h : KnownWord o Env raw) :
      Held o w Env Sec Leaked Guess (recoveryKekFrom o.suite raw id)
  /-- Opened with the key it is wrapped under. -/
  | under {r} (hr : r ∈ w.all.wrapped) (h : Held o w Env Sec Leaked Guess r.key) : Held o w Env Sec Leaked Guess r.plain

variable {o : Oracle} {w : World Term} {Env : Term → Prop} {Sec : Nat → Prop} {Leaked : SymmetricKey Term → Prop}
  {Guess : List UInt8 → Prop} {role : Nat → Option Level} {l : Level} {k : SymmetricKey Term}

/-! ## Keys are plain -/

/-- Bytes that follow BLAKE3 from plain ones and ordinary ones. -/
theorem plain_blake {m : List Term} {l : List UInt8} (hm : ∀ b ∈ m, Plain o b) (c : String) :
    ∀ b ∈ (o.suite.blake3 c (m ++ l.map o.suite.lit)).toList, Plain o b := by
  refine fun b hb => .blake (List.forall_mem_append.mpr ⟨hm, fun x hx => ?_⟩) hb
  obtain ⟨y, -, rfl⟩ := List.mem_map.mp hx
  exact .lit y

theorem Is.plain (henv : ∀ b, Env b → Plain o b) (h : Is o.suite Env role l k) : ∀ b ∈ k.toList, Plain o b := by
  cases h with
  | drawn h =>
    obtain ⟨i, hk, -⟩ := h
    intro b hb
    obtain ⟨j, rfl⟩ := plain_drawn hk b hb
    exact .key i j
  | sharedVmk id h => exact plain_blake (fun b hb => henv b (h b hb)) _
  | sharedIkek id h => exact plain_blake (fun b hb => henv b (h b hb)) _
  | handed h => exact fun b hb => henv b (h b hb)

theorem Typed.plain (h : Typed o.suite k) : ∀ b ∈ k.toList, Plain o b := by
  cases h with
  | password h => exact fun b hb => .argon (deriveMuk_ok.mp h).2.2 hb
  | recovery raw id =>
    refine plain_blake (fun b hb => ?_) _
    rcases Oracle.mem_typed hb with ⟨x, rfl⟩ | ⟨-, j, rfl⟩
    · exact .lit x
    · exact .word _ j

theorem Placed.plains (henv : ∀ b, Env b → Plain o b) {c : Context} {k p : SymmetricKey Term}
    (h : Placed o.suite Env role c k p) : (∀ b ∈ k.toList, Plain o b) ∧ ∀ b ∈ p.toList, Plain o b := by
  obtain ⟨hk, hp⟩ := h
  constructor
  · cases hc : keyLevel c with
    | none => rw [hc] at hk; exact hk.plain
    | some l => rw [hc] at hk; exact hk.plain henv
  · cases hc : plainLevel c with
    | none => rw [hc] at hp; exact fun b hb => henv b (hp b hb)
    | some l => rw [hc] at hp; exact hp.plain henv

/-- What is stored are ciphertexts of plain strings under plain keys. -/
theorem stored_ok (hs : Sound o.suite w.all) (hl : Levels o.suite Env role w.all) (henv : ∀ b, Env b → Plain o b) :
    ∀ x, Storage o w x → x.Ok o ∧ (∀ b ∈ x.key.toList, Plain o b) ∧ ∀ b ∈ x.plain, Plain o b := by
  intro x hx
  cases hx with
  | wrapped hr => exact ⟨.aes (hs.wraps _ hr), (hl.wrapped _ hr).plains henv⟩
  | payload hx h =>
    obtain ⟨hp, k', a', hk, h'⟩ := hl.payloads _ hx
    obtain ⟨rfl, -, -⟩ := h.unique o.suite_ideal h'
    exact ⟨.xchacha h, hk.plain henv, fun b hb => henv b (hp b hb)⟩

theorem At.is (hl : Levels o.suite Env role w.all) (h : w.At l k) : Is o.suite Env role l k := by
  cases h with
  | key hr h =>
    have hk := (hl.wrapped _ hr).key
    rw [h] at hk
    exact hk
  | plain hr h =>
    have hp := (hl.wrapped _ hr).plain
    rw [h] at hp
    exact hp

/-- What leaks is a key of the world, or derived with BLAKE3. -/
def Leakable (o : Oracle) (w : World Term) (k : SymmetricKey Term) : Prop :=
  (∃ l, w.At l k) ∨ ∃ c m, k = o.suite.blake3 c m

theorem start_atom (hl : Levels o.suite Env role w.all) (henv : ∀ b, Env b → Plain o b)
    (hleak : ∀ k, Leaked k → Leakable o w k) : ∀ m, Start Env Sec Leaked m → ∀ b ∈ m, Atom b := by
  intro m hm
  cases hm with
  | outside h _ => exact List.forall_mem_singleton.mpr (plain_atom (henv _ h))
  | leaked h =>
    rcases hleak _ h with ⟨l, hk⟩ | ⟨c, m, rfl⟩
    · exact fun b hb => plain_atom ((At.is hl hk).plain henv b hb)
    · intro b hb
      obtain ⟨j, -, rfl⟩ := List.mem_map.mp hb
      exact trivial

/-! ## What is held is derived -/

theorem derives_lits {Known : List Term → Prop} (l : List UInt8) :
    Derives o.suite Known Guess (l.map o.suite.lit) := by
  refine derives_join fun b hb => ?_
  obtain ⟨x, -, rfl⟩ := List.mem_map.mp hb
  exact .lit x

/-- A byte that was typed is no secret content. -/
theorem typed_outside {l : List UInt8} {b : Term} (hb : b ∈ o.suite.typed l) : Safe (contents Sec) b :=
  (allSafe_typed o l).mpr (fun _ => not_false) b hb

theorem Held.derives (hs : Sound o.suite w.all) (h : Held o w Env Sec Leaked Guess k) :
    Derives o.suite (Seen (Storage o w) (Start Env Sec Leaked)) Guess k.toList := by
  have hout : ∀ {k : SymmetricKey Term}, Bytes Env k → SafeKey (contents Sec) k →
      Derives o.suite (Seen (Storage o w) (Start Env Sec Leaked)) Guess k.toList :=
    fun h hsafe => derives_join fun b hb => .known (Or.inl (.outside (h b hb) (hsafe b hb)))
  induction h with
  | leaked h => exact .known (Or.inl (.leaked h))
  | outside h hsafe => exact hout h hsafe
  | shared id h hsafe hk =>
    rcases hk with rfl | rfl
    · exact .blake _ (.append (hout h hsafe) (derives_lits _))
    · exact .blake _ (.append (hout h hsafe) (derives_lits _))
  | password hg h => exact .argon hg (deriveMuk_ok.mp h).2.2
  | recovery id h =>
    refine .blake _ (.append (derives_join fun b hb => ?_) (derives_lits _))
    rcases h b hb with ⟨x, rfl⟩ | henv
    · exact .lit x
    · exact .known (Or.inl (.outside henv (typed_outside hb)))
  | under hr _ ih =>
    have hseen : Derives o.suite (Seen (Storage o w) (Start Env Sec Leaked)) Guess _ :=
      .known (Or.inr ⟨_, .wrapped hr, rfl⟩)
    exact .aesDecrypt ih hseen (o.suite_ideal.aes.opens (hs.wraps _ hr))

/-! ## What is derived is held -/

/-- A byte in the attacker's hands. -/
inductive Byte (o : Oracle) (w : World Term) (Env : Term → Prop) (Sec : Nat → Prop) (Leaked : SymmetricKey Term → Prop)
    (Guess : List UInt8 → Prop) : Term → Prop
  | lit (b : UInt8) : Byte o w Env Sec Leaked Guess (.lit b)
  | outside {b} (h : Env b) (hs : Safe (contents Sec) b) : Byte o w Env Sec Leaked Guess b
  | key {i j k} (hk : o.suite.osKey i = some k) (h : Held o w Env Sec Leaked Guess k) :
      Byte o w Env Sec Leaked Guess (.key i j)
  | argon {m t p s p' j} (h : Guess p') : Byte o w Env Sec Leaked Guess (.argon m t p s p' j)
  | blake {c m b} (hm : ∀ x ∈ m, Byte o w Env Sec Leaked Guess x) (hb : b ∈ (o.suite.blake3 c m).toList) :
      Byte o w Env Sec Leaked Guess b
  | leaked {c m b} (h : Leaked (o.suite.blake3 c m)) (hb : b ∈ (o.suite.blake3 c m).toList) :
      Byte o w Env Sec Leaked Guess b
  /-- A secret byte of an item whose key is held. -/
  | content {x k a b} (hx : x ∈ w.all.payloads) (h : Seals o.suite k x.plain a x.out)
      (hk : Held o w Env Sec Leaked Guess k) (hb : b ∈ x.plain) (hs : ¬ Safe (contents Sec) b) :
      Byte o w Env Sec Leaked Guess b

theorem first_byte (k : SymmetricKey Term) : ∃ b, b ∈ k.toList :=
  List.exists_mem_of_length_pos (by rw [k.length]; decide)

/-- A byte that BLAKE3 computes says from what. -/
theorem mem_blake {c c' : String} {m m' : List Term} {b : Term} (h : b ∈ (o.suite.blake3 c m).toList)
    (h' : b ∈ (o.suite.blake3 c' m').toList) : c = c' ∧ m = m' := by
  obtain ⟨j, -, rfl⟩ := List.mem_map.mp h
  obtain ⟨j', -, hj⟩ := List.mem_map.mp h'
  obtain ⟨hc, hm, -⟩ := Term.blake.inj hj
  exact ⟨hc.symm, (Term.str_inj.mp hm).symm⟩

/-- Typed or drawn: not computed by a package. -/
def Raw : Term → Prop
  | .lit _ | .key .. | .data _ | .word .. => True
  | _ => False

theorem raw_not_blake {b : Term} (hb : Raw b) {c : String} {m : List Term} (h : b ∈ (o.suite.blake3 c m).toList) :
    False := by
  obtain ⟨j, -, rfl⟩ := List.mem_map.mp h
  exact hb

/-- Of a key in hand all bytes are from outside, or one is not. -/
theorem held_or_inside (hb : ∀ b ∈ k.toList, Byte o w Env Sec Leaked Guess b) :
    Held o w Env Sec Leaked Guess k ∨
      ∃ b ∈ k.toList, Byte o w Env Sec Leaked Guess b ∧ ¬ (Env b ∧ Safe (contents Sec) b) := by
  by_cases hall : ∀ b ∈ k.toList, Env b ∧ Safe (contents Sec) b
  · exact Or.inl (.outside (fun b hb => (hall b hb).1) fun b hb => (hall b hb).2)
  · obtain ⟨b, hmem, hno⟩ := not_forall₂.mp hall
    exact Or.inr ⟨b, hmem, hb b hmem, hno⟩

theorem held_drawn {i : Nat} (hk : o.suite.osKey i = some k)
    (hb : ∀ b ∈ k.toList, Byte o w Env Sec Leaked Guess b) : Held o w Env Sec Leaked Guess k := by
  rcases held_or_inside hb with h | ⟨b, hmem, hbyte, hno⟩
  · exact h
  · obtain ⟨j, rfl⟩ := plain_drawn hk b hmem
    cases hbyte with
    | outside h hs => exact absurd ⟨h, hs⟩ hno
    | key hk' h =>
      cases hk.symm.trans hk'
      exact h
    | blake _ hb => exact (raw_not_blake (b := .key i j) trivial hb).elim
    | leaked _ hb => exact (raw_not_blake (b := .key i j) trivial hb).elim
    | content _ _ _ _ hs => exact absurd not_false hs

theorem held_argon {pw : String} {kdf : KdfParams} (hk : deriveMuk o.suite pw kdf = .ok k)
    (hb : ∀ b ∈ k.toList, Byte o w Env Sec Leaked Guess b) : Held o w Env Sec Leaked Guess k := by
  have hk' := (deriveMuk_ok.mp hk).2.2
  simp only [Oracle.suite, Option.ite_none_right_eq_some, Option.some.injEq] at hk'
  rcases held_or_inside hb with h | ⟨b, hmem, hbyte, hno⟩
  · exact h
  · rw [← hk'.2] at hmem
    obtain ⟨j, -, rfl⟩ := List.mem_map.mp hmem
    cases hbyte with
    | outside h hs => exact absurd ⟨h, hs⟩ hno
    | argon h => exact .password h hk
    | blake _ hb =>
      obtain ⟨_, -, hj⟩ := List.mem_map.mp hb
      cases hj
    | leaked _ hb =>
      obtain ⟨_, -, hj⟩ := List.mem_map.mp hb
      cases hj
    | content _ _ _ _ hs => exact absurd trivial hs

/-- A typed string in hand is known: no item with a byte of it tells more than the outside. -/
theorem known_word {raw : String} (hb : ∀ b ∈ o.suite.typed (asBytes raw), Byte o w Env Sec Leaked Guess b) :
    KnownWord o Env raw := by
  intro b hmem
  rcases Oracle.mem_typed hmem with h | ⟨-, j, rfl⟩
  · exact Or.inl h
  · cases hb _ hmem with
    | outside h _ => exact Or.inr h
    | blake _ hb => exact (raw_not_blake (b := .word _ j) trivial hb).elim
    | leaked _ hb => exact (raw_not_blake (b := .word _ j) trivial hb).elim
    | content _ _ _ _ hs => exact absurd not_false hs

theorem held_recovery {raw : String} {id : Id}
    (hb : ∀ b ∈ (recoveryKekFrom o.suite raw id).toList, Byte o w Env Sec Leaked Guess b) :
    Held o w Env Sec Leaked Guess (recoveryKekFrom o.suite raw id) := by
  rcases held_or_inside hb with h | ⟨b, hmem, hbyte, hno⟩
  · exact h
  · have hsafe : Safe (contents Sec) b := recoveryKekFrom_safe.mpr (fun _ => not_false) b hmem
    have hmem' := hmem
    obtain ⟨j, -, rfl⟩ := List.mem_map.mp hmem
    cases hbyte with
    | outside h hs => exact absurd ⟨h, hs⟩ hno
    | blake hm hb =>
      obtain ⟨-, rfl⟩ := mem_blake hb hmem'
      exact .recovery id (known_word fun x hx => hm x (List.mem_append_left _ hx))
    | leaked h hb =>
      obtain ⟨rfl, rfl⟩ := mem_blake hb hmem'
      exact .leaked h
    | content _ _ _ _ hs => exact absurd hsafe hs

theorem blake_safe {m : List Term} {l : List UInt8} {c : String}
    (h : AllSafe (contents Sec) (o.suite.blake3 c (m ++ l.map o.suite.lit)).toList) : AllSafe (contents Sec) m :=
  (allSafe_append.mp ((allSafe_blake o c _).mp h)).1

/-- A key of the world all bytes of which are in hand. -/
theorem Is.held (hs : SafeKey (contents Sec) k) (h : Is o.suite Env role l k)
    (hb : ∀ b ∈ k.toList, Byte o w Env Sec Leaked Guess b) : Held o w Env Sec Leaked Guess k := by
  cases h with
  | drawn h =>
    obtain ⟨i, hk, -⟩ := h
    exact held_drawn hk hb
  | sharedVmk id h => exact .shared id h (blake_safe hs) (Or.inl rfl)
  | sharedIkek id h => exact .shared id h (blake_safe hs) (Or.inr rfl)
  | handed h => exact .outside h hs

theorem Typed.held (h : Typed o.suite k) (hb : ∀ b ∈ k.toList, Byte o w Env Sec Leaked Guess b) :
    Held o w Env Sec Leaked Guess k := by
  cases h with
  | password h => exact held_argon h hb
  | recovery raw id => exact held_recovery hb

theorem shared_byte {k : Arr Term 32} (id : Id) (h : Bytes Env k) (hs : AllSafe (contents Sec) k.toList) :
    ∀ x ∈ sharedMaterial o.suite k id, Byte o w Env Sec Leaked Guess x := by
  refine List.forall_mem_append.mpr ⟨fun x hx => .outside (h x hx) (hs x hx), fun x hx => ?_⟩
  obtain ⟨y, -, rfl⟩ := List.mem_map.mp hx
  exact .lit y

/-- The bytes of a held key are in hand. -/
theorem Is.byte (hs : SafeKey (contents Sec) k) (h : Is o.suite Env role l k) (hk : Held o w Env Sec Leaked Guess k) :
    ∀ b ∈ k.toList, Byte o w Env Sec Leaked Guess b := by
  intro b hb
  cases h with
  | drawn h =>
    obtain ⟨i, hi, -⟩ := h
    obtain ⟨j, rfl⟩ := plain_drawn hi b hb
    exact .key hi hk
  | sharedVmk id h => exact .blake (shared_byte id h (blake_safe hs)) hb
  | sharedIkek id h => exact .blake (shared_byte id h (blake_safe hs)) hb
  | handed h => exact .outside (h b hb) (hs b hb)

/-- No key of a wrapping has a secret content inside. -/
def KeysApart (w : World Term) (Sec : Nat → Prop) : Prop :=
  ∀ r ∈ w.all.wrapped, SafeKey (contents Sec) r.key ∧ SafeKey (contents Sec) r.plain

theorem KeysApart.at (hsec : KeysApart w Sec) (h : w.At l k) : SafeKey (contents Sec) k := by
  cases h with
  | key hr _ => exact (hsec _ hr).1
  | plain hr _ => exact (hsec _ hr).2

theorem Placed.held {c : Context} {p : SymmetricKey Term} (hs : SafeKey (contents Sec) k)
    (h : Placed o.suite Env role c k p) (hb : ∀ b ∈ k.toList, Byte o w Env Sec Leaked Guess b) :
    Held o w Env Sec Leaked Guess k := by
  have hk := h.key
  cases hc : keyLevel c with
  | none => rw [hc] at hk; exact hk.held hb
  | some l => rw [hc] at hk; exact hk.held hs hb

theorem Placed.byte {c : Context} {p : SymmetricKey Term} (hs : SafeKey (contents Sec) p)
    (h : Placed o.suite Env role c k p) (hp : Held o w Env Sec Leaked Guess p) :
    ∀ b ∈ p.toList, Byte o w Env Sec Leaked Guess b := by
  have hplain := h.plain
  cases hc : plainLevel c with
  | none => rw [hc] at hplain; exact fun b hb => .outside (hplain b hb) (hs b hb)
  | some l => rw [hc] at hplain; exact hplain.byte hs hp

/-- A byte of an item whose key is held. -/
theorem payload_byte {x : Payload Term} {a : List UInt8} (hx : x ∈ w.all.payloads)
    (h : Seals o.suite k x.plain a x.out) (hk : Held o w Env Sec Leaked Guess k) {b : Term} (hb : b ∈ x.plain)
    (henv : Env b) : Byte o w Env Sec Leaked Guess b := by
  by_cases hs : Safe (contents Sec) b
  · exact .outside henv hs
  · exact .content hx h hk hb hs

theorem opened_byte (hl : Levels o.suite Env role w.all) (hsec : KeysApart w Sec)
    (hleak : ∀ k, Leaked k → Leakable o w k) {m : List Term}
    (h : Lib.Opened o (Storage o w) (Start Env Sec Leaked) Guess m) : ∀ b ∈ m, Byte o w Env Sec Leaked Guess b := by
  induction h with
  | start h =>
    cases h with
    | outside h hsafe => exact List.forall_mem_singleton.mpr (.outside h hsafe)
    | leaked h =>
      rcases hleak _ h with ⟨l, hk⟩ | ⟨c, m, rfl⟩
      · exact (At.is hl hk).byte (hsec.at hk) (.leaked h)
      · exact fun b hb => .leaked h hb
  | lit b => exact List.forall_mem_singleton.mpr (.lit b)
  | byte _ hb ih => exact List.forall_mem_singleton.mpr (ih _ hb)
  | join _ ih => exact fun b hb => ih b hb b List.mem_cons_self
  | argon hw h =>
    simp only [Oracle.suite, Option.ite_none_right_eq_some, Option.some.injEq] at h
    rw [← h.2]
    intro b hb
    obtain ⟨j, -, rfl⟩ := List.mem_map.mp hb
    exact .argon hw
  | blake c _ ih => exact fun b hb => .blake ih hb
  | stored hx _ ih =>
    cases hx with
    | wrapped hr =>
      have hheld := (hl.wrapped _ hr).held (hsec _ hr).1 ih
      exact (hl.wrapped _ hr).byte (hsec _ hr).2 (.under hr hheld)
    | payload hx h =>
      obtain ⟨hp, k', a', hk, h'⟩ := hl.payloads _ hx
      obtain ⟨rfl, -, -⟩ := h.unique o.suite_ideal h'
      cases hk with
      | drawn hk =>
        obtain ⟨i, hi, -⟩ := hk
        exact fun b hb => payload_byte hx h (held_drawn hi ih) hb (hp b hb)

/-- A key of the world is derived exactly when it is held. -/
theorem derives_iff_held (hw : Reach o.suite Env w) (henv : ∀ b, Env b → Plain o b) (hsec : KeysApart w Sec)
    (hleak : ∀ k, Leaked k → Leakable o w k) (hk : w.At l k) :
    Derives o.suite (Seen (Storage o w) (Start Env Sec Leaked)) Guess k.toList ↔
      Held o w Env Sec Leaked Guess k := by
  have hs := reach_sound o.suite_ideal hw
  obtain ⟨role, -, hl⟩ := reach_levels o.suite_ideal hw
  have his := At.is hl hk
  refine ⟨fun h => ?_, Held.derives hs⟩
  rw [derives_iff (stored_ok hs hl henv) (start_atom hl henv hleak) (his.plain henv)] at h
  exact his.held (hsec.at hk) (opened_byte hl hsec hleak h)

/-- A secret content is derived exactly when the key of an item that has it is held. -/
theorem content_iff_held (hw : Reach o.suite Env w) (henv : ∀ b, Env b → Plain o b) (hsec : KeysApart w Sec)
    (hleak : ∀ k, Leaked k → Leakable o w k) {d : Nat} (hd : Sec d) :
    Derives o.suite (Seen (Storage o w) (Start Env Sec Leaked)) Guess [.data d] ↔
      ∃ x ∈ w.all.payloads, Term.data d ∈ x.plain ∧
        ∃ k a, Seals o.suite k x.plain a x.out ∧ Held o w Env Sec Leaked Guess k := by
  have hs := reach_sound o.suite_ideal hw
  obtain ⟨role, -, hl⟩ := reach_levels o.suite_ideal hw
  constructor
  · intro h
    rw [derives_iff (stored_ok hs hl henv) (start_atom hl henv hleak) (List.forall_mem_singleton.mpr (.data d))] at h
    have hbyte := opened_byte hl hsec hleak h _ List.mem_cons_self
    cases hbyte with
    | outside _ hsafe => exact absurd hd hsafe
    | blake _ hb => exact (raw_not_blake (b := .data d) trivial hb).elim
    | leaked _ hb => exact (raw_not_blake (b := .data d) trivial hb).elim
    | content hx h hk hmem _ => exact ⟨_, hx, hmem, _, _, h, hk⟩
  · rintro ⟨x, hx, hmem, k, a, h, hk⟩
    have hseen : Derives o.suite (Seen (Storage o w) (Start Env Sec Leaked)) Guess x.out.ciphertext :=
      .known (Or.inr ⟨_, .payload hx h, rfl⟩)
    exact derives_byte (.xchachaDecrypt (hk.derives hs) hseen (o.suite_ideal.xchacha.opens h)) hmem

/-! ## A trace -/

/-- A vault with one item. -/
def demoItemWorld : World Term :=
  ((⟨0, {}⟩ : World Term).add demoVault.2
    { wrapped := ⟨.kek demoVault.1.encrypted.accountId demoVault.1.encrypted.vaultId demoVault.1.encrypted.kdf, demoMuk,
        demoVault.1.unlocked.kek, demoVault.1.encrypted.wrappedKek⟩ ::
        belowRecs demoVault.1.unlocked demoVault.1.encrypted.wrappedVmk demoVault.1.encrypted.wrappedIkek
      born := [demoVault.1.unlocked] }).add demoItem.2
    { wrapped := [⟨.itemKey demoVault.1.unlocked.vaultId (.replicate 16 1), demoVault.1.unlocked.ikek, keyAt demoVault.2,
        demoItem.1.wrappedItemKey⟩]
      payloads := [⟨[.data 0], demoItem.1.blob⟩] }

theorem demoItemWorld_reach : Reach demo.suite (fun b => ∃ d, b = .data d) demoItemWorld := by
  have hm : deriveMuk demo.suite "a" demoVault.1.encrypted.kdf = .ok demoMuk := by decide +kernel
  have h0 : Reach demo.suite (fun b => ∃ d, b = .data d) (⟨0, {}⟩ : World Term) := .init 0
  exact (h0.call (Nat.le_refl _) (.createVaultKeys demoVault_created hm)).call (Nat.le_refl _)
    (.encryptItem (Or.inl List.mem_cons_self) (List.forall_mem_singleton.mpr ⟨0, rfl⟩) demoItem_encrypted rfl)

theorem keyAt_apart (i : Nat) : SafeKey (contents Sec) (keyAt i) :=
  (osKey_safe (o := demo) (i := i) rfl).mpr not_false

theorem demoItemWorld_apart : KeysApart demoItemWorld Sec := by
  have hm : deriveMuk demo.suite "a" demoVault.1.encrypted.kdf = .ok demoMuk := by decide +kernel
  have hmuk : SafeKey (contents Sec) demoMuk := (deriveMuk_safe hm).mpr trivial
  refine List.forall_mem_cons.mpr ⟨?_, List.forall_mem_cons.mpr ⟨?_, List.forall_mem_cons.mpr ⟨?_,
    List.forall_mem_cons.mpr ⟨?_, fun r hr => (by cases hr)⟩⟩⟩⟩
  · exact ⟨keyAt_apart 5, keyAt_apart demoVault.2⟩
  · exact ⟨hmuk, keyAt_apart 3⟩
  · exact ⟨keyAt_apart 3, keyAt_apart 4⟩
  · exact ⟨keyAt_apart 4, keyAt_apart 5⟩

theorem demo_plain : ∀ b : Term, (∃ d, b = .data d) → Plain demo b := by
  rintro b ⟨d, rfl⟩
  exact .data d

/-- The wrapping of the vault's VMK, and of its IKEK. -/
def demoVmkRec : Rec Term :=
  ⟨.vmk demoVault.1.unlocked.accountId demoVault.1.unlocked.vaultId, demoVault.1.unlocked.kek, demoVault.1.unlocked.vmk,
    demoVault.1.encrypted.wrappedVmk⟩

def demoIkekRec : Rec Term :=
  ⟨.ikek demoVault.1.unlocked.vaultId, demoVault.1.unlocked.vmk, demoVault.1.unlocked.ikek,
    demoVault.1.encrypted.wrappedIkek⟩

theorem demoVmkRec_mem : demoVmkRec ∈ demoItemWorld.all.wrapped :=
  List.mem_cons_of_mem _ (List.mem_cons_of_mem _ List.mem_cons_self)

theorem demoIkekRec_mem : demoIkekRec ∈ demoItemWorld.all.wrapped :=
  List.mem_cons_of_mem _ (List.mem_cons_of_mem _ (List.mem_cons_of_mem _ List.mem_cons_self))

/-- Who has the KEK has the IKEK. -/
theorem derives_iff_held_vault :
    Derives demo.suite (Seen (Storage demo demoItemWorld) (Start (fun b => ∃ d, b = .data d) (0 = ·)
      (· = demoVmkRec.key))) (fun _ => False) demoIkekRec.plain.toList := by
  refine (derives_iff_held demoItemWorld_reach demo_plain demoItemWorld_apart ?_ (.plain demoIkekRec_mem rfl)).mpr ?_
  · rintro k rfl
    exact Or.inl ⟨.kek, .key demoVmkRec_mem rfl⟩
  · have hvmk : Held demo demoItemWorld (fun b => ∃ d, b = .data d) (0 = ·) (· = demoVmkRec.key) (fun _ => False)
        demoIkekRec.key := .under demoVmkRec_mem (.leaked rfl)
    exact .under demoIkekRec_mem hvmk

/-- Who has the IKEK reads the item. -/
theorem content_iff_held_item :
    Derives demo.suite (Seen (Storage demo demoItemWorld) (Start (fun b => ∃ d, b = .data d) (0 = ·)
      (· = demoIkekRec.plain))) (fun _ => False) [.data 0] := by
  refine (content_iff_held demoItemWorld_reach demo_plain demoItemWorld_apart ?_ rfl).mpr ?_
  · rintro k rfl
    exact Or.inl ⟨.ikek, .plain demoIkekRec_mem rfl⟩
  · obtain ⟨-, -, k, hk, hw, hb⟩ := encryptItem_ok demoItem_encrypted
    cases hk
    have hikek : Held demo demoItemWorld (fun b => ∃ d, b = .data d) (0 = ·) (· = demoIkekRec.plain) (fun _ => False)
        demoVault.1.unlocked.ikek := .leaked rfl
    exact ⟨_, List.mem_cons_self, List.mem_cons_self, _, _, hb, .under (r := ⟨_, _, _, _⟩) List.mem_cons_self hikek⟩

end RootkeyCrypto.Worlds
