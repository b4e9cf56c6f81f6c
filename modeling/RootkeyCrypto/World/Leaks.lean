/-
  RootkeyCrypto.World.Leaks — how far a leak reaches.

  The keys of a world stand in levels, and each wraps only keys of lower ones. So a leak
  goes down: leaked keys of some level or below give no other key of that level or above
  (`leak_goes_down`). A new VMK is a stop to the leak of an old one, a new KEK to that of an
  old KEK, whatever else of the vault leaked.

  The keys an account derives from its root key are apart: leaked relay keys and inbox
  secrets give no key of the world, and none of the other derived keys (`derived_keys_apart`).

  With nothing leaked, no password guessed and every recovery key that is in use kept, what
  is stored gives nothing (`at_rest`).
-/

import RootkeyCrypto.World.Held

namespace RootkeyCrypto.Worlds

open Lib

/-- Higher keys have lower ranks. -/
def Level.rank : Level → Nat
  | .wrapper => 0
  | .root => 1
  | .kek => 2
  | .vmk => 3
  | .ikek => 4
  | .item => 5

/-- What is wrapped ranks below what it is wrapped with. -/
theorem rank_under {c : Context} {l l' : Level} (h : keyLevel c = some l) (h' : plainLevel c = some l') : l.rank < l'.rank := by
  cases c <;> cases h <;> cases h' <;> decide

variable {o : Oracle} {w : World Term} {Env : Term → Prop} {Sec : Nat → Prop} {Leaked : SymmetricKey Term → Prop}
  {Guess : List UInt8 → Prop} {role : Nat → Option Level} {l : Level} {k : SymmetricKey Term}

/-! ## Leaks go down -/

/-- More is held with leaks. -/
theorem Held.mono (h : Held o w Env Sec (fun _ => False) Guess k) : Held o w Env Sec Leaked Guess k := by
  induction h with
  | leaked h => exact h.elim
  | outside h hs => exact .outside h hs
  | shared id h hs hk => exact .shared id h hs hk
  | password hg h => exact .password hg h
  | recovery id h => exact .recovery id h
  | under hr _ ih => exact .under hr ih

theorem drawn_not_argon {i : Nat} {pw : String} {kdf : KdfParams} (hk : o.suite.osKey i = some k)
    (h : deriveMuk o.suite pw kdf = .ok k) : False := by
  obtain ⟨b, hb⟩ := first_byte k
  obtain ⟨j, rfl⟩ := plain_drawn hk b hb
  have h' := (deriveMuk_ok.mp h).2.2
  simp only [Oracle.suite, Option.ite_none_right_eq_some, Option.some.injEq] at h'
  rw [← h'.2] at hb
  obtain ⟨j', -, hj⟩ := List.mem_map.mp hb
  cases hj

theorem drawn_not_blake {i : Nat} {c : String} {m : List Term} (hk : o.suite.osKey i = some (o.suite.blake3 c m)) :
    False := by
  obtain ⟨b, hb⟩ := first_byte (o.suite.blake3 c m)
  obtain ⟨j, rfl⟩ := plain_drawn hk b hb
  obtain ⟨j', -, hj⟩ := List.mem_map.mp hb
  cases hj

theorem argon_not_blake {pw : String} {kdf : KdfParams} {c : String} {m : List Term}
    (h : deriveMuk o.suite pw kdf = .ok (o.suite.blake3 c m)) : False := by
  have h' := (deriveMuk_ok.mp h).2.2
  simp only [Oracle.suite, Option.ite_none_right_eq_some, Option.some.injEq] at h'
  cases ofFn_inj h'.2

/-- A key of the world is drawn, or known with what comes from outside. -/
theorem Is.held_or_drawn (hs : SafeKey (contents Sec) k) (h : Is o.suite Env role l k) :
    Held o w Env Sec Leaked Guess k ∨ DrawnFor o.suite role l k := by
  cases h with
  | drawn h => exact Or.inr h
  | sharedVmk id h => exact Or.inl (.shared id h (blake_safe hs) (Or.inl rfl))
  | sharedIkek id h => exact Or.inl (.shared id h (blake_safe hs) (Or.inr rfl))
  | handed h => exact Or.inl (.outside h hs)

/-- BLAKE3 derives it, and not from a recovery key that is kept. -/
def FromBlake (o : Oracle) (Env : Term → Prop) (k : SymmetricKey Term) : Prop :=
  (∃ c m, k = o.suite.blake3 c m) ∧ ∀ raw id, k = recoveryKekFrom o.suite raw id → KnownWord o Env raw

/-- What is leaked is of this rank or below, or derived with BLAKE3. -/
def LeakedBelow (o : Oracle) (w : World Term) (Env : Term → Prop) (Leaked : SymmetricKey Term → Prop) (r : Nat) : Prop :=
  ∀ k, Leaked k → (∃ l, w.At l k ∧ r ≤ l.rank) ∨ FromBlake o Env k

/-- A wrapping key that is leaked, or of a lower rank, is drawn, and of that rank. -/
theorem low_drawn (hl : Levels o.suite Env role w.all) (hsec : KeysApart w Sec) {r : Nat}
    (hleak : LeakedBelow o w Env Leaked r) (hk : Leaked k ∨ ∃ l, DrawnFor o.suite role l k ∧ r < l.rank) :
    Held o w Env Sec (fun _ => False) Guess k ∨ (∃ l, DrawnFor o.suite role l k ∧ r ≤ l.rank) ∨
      FromBlake o Env k := by
  rcases hk with hk | ⟨l, hd, hlt⟩
  · rcases hleak _ hk with ⟨l, hat, hle⟩ | hblake
    · rcases (At.is hl hat).held_or_drawn (hsec.at hat) with h | h
      · exact Or.inl h
      · exact Or.inr (Or.inl ⟨l, h, hle⟩)
    · exact Or.inr (Or.inr hblake)
  · exact Or.inr (Or.inl ⟨l, hd, Nat.le_of_lt hlt⟩)

/-- The key of a wrapping that is leaked or of a lower rank: known without the leak, or drawn
    for the level of its context. -/
theorem Placed.low {c : Context} {p : SymmetricKey Term} (hs : SafeKey (contents Sec) k)
    (h : Placed o.suite Env role c k p) {r : Nat}
    (hk : (∃ l, DrawnFor o.suite role l k ∧ r ≤ l.rank) ∨ FromBlake o Env k) :
    Held o w Env Sec (fun _ => False) Guess k ∨ ∃ l, keyLevel c = some l ∧ r ≤ l.rank := by
  have hkey := h.key
  cases hc : keyLevel c with
  | none =>
    rw [hc] at hkey
    cases hkey with
    | password hm =>
      rcases hk with ⟨l, ⟨i, hi, -⟩, -⟩ | ⟨⟨c, m, rfl⟩, -⟩
      · exact (drawn_not_argon hi hm).elim
      · exact (argon_not_blake hm).elim
    | recovery raw id =>
      rcases hk with ⟨l, ⟨i, hi, -⟩, -⟩ | ⟨-, hknown⟩
      · exact (drawn_not_blake hi).elim
      · exact Or.inl (.recovery id (hknown raw id rfl))
  | some l =>
    rw [hc] at hkey
    rcases hkey.held_or_drawn hs with h | h
    · exact Or.inl h
    · refine Or.inr ⟨l, rfl, ?_⟩
      rcases hk with ⟨l', hd, hle⟩ | ⟨⟨c, m, rfl⟩, -⟩
      · rw [h.unique o.suite_ideal hd]
        exact hle
      · obtain ⟨i, hi, -⟩ := h
        exact (drawn_not_blake hi).elim

/-- With the leak, one more key is held only of a lower rank. -/
theorem held_down (hl : Levels o.suite Env role w.all) (hsec : KeysApart w Sec) {r : Nat}
    (hleak : LeakedBelow o w Env Leaked r) (h : Held o w Env Sec Leaked Guess k) :
    Held o w Env Sec (fun _ => False) Guess k ∨ Leaked k ∨ ∃ l, DrawnFor o.suite role l k ∧ r < l.rank := by
  induction h with
  | leaked h => exact Or.inr (Or.inl h)
  | outside h hs => exact Or.inl (.outside h hs)
  | shared id h hs hk => exact Or.inl (.shared id h hs hk)
  | password hg h => exact Or.inl (.password hg h)
  | recovery id h => exact Or.inl (.recovery id h)
  | @under x hx _ ih =>
    have hplaced := hl.wrapped x hx
    obtain ⟨hsk, hsp⟩ := hsec x hx
    have hcase : Held o w Env Sec (fun _ => False) Guess x.key ∨ ∃ l, keyLevel x.ctx = some l ∧ r ≤ l.rank := by
      rcases ih with h | h
      · exact Or.inl h
      · rcases low_drawn hl hsec hleak h with h | h
        · exact Or.inl h
        · exact hplaced.low hsk h
    rcases hcase with h | ⟨l, hkey, hle⟩
    · exact Or.inl (.under hx h)
    · have hplain := hplaced.plain
      cases hc : plainLevel x.ctx with
      | none => rw [hc] at hplain; exact Or.inl (.outside hplain hsp)
      | some l' =>
        rw [hc] at hplain
        rcases hplain.held_or_drawn hsp with h | h
        · exact Or.inl h
        · have := rank_under hkey hc
          exact Or.inr (Or.inr ⟨l', h, by omega⟩)

/-- Leaked keys give no other key of their rank or a higher one. -/
theorem leak_goes_down (hw : Reach o.suite Env w) (henv : ∀ b, Env b → Plain o b) (hsec : KeysApart w Sec) {r : Nat}
    (hleak : LeakedBelow o w Env Leaked r) (hk : w.At l k) (hr : l.rank ≤ r) (hne : ¬ Leaked k) :
    Derives o.suite (Seen (Storage o w) (Start Env Sec Leaked)) Guess k.toList ↔
      Derives o.suite (Seen (Storage o w) (Start Env Sec fun _ => False)) Guess k.toList := by
  obtain ⟨role, -, hl⟩ := reach_levels o.suite_ideal hw
  have hleak' : ∀ k, Leaked k → Leakable o w k := by
    intro k h
    rcases hleak k h with ⟨l, hat, -⟩ | hblake
    · exact Or.inl ⟨l, hat⟩
    · exact Or.inr hblake.1
  rw [derives_iff_held hw henv hsec hleak' hk, derives_iff_held hw henv hsec (fun _ h => h.elim) hk]
  refine ⟨fun h => ?_, Held.mono⟩
  rcases held_down hl hsec hleak h with h | h | ⟨l', hd, hlt⟩
  · exact h
  · exact absurd h hne
  · rcases (At.is hl hk).held_or_drawn (hsec.at hk) with h | h
    · exact h
    · rw [h.unique o.suite_ideal hd] at hr
      omega

/-- A leaked IKEK does not give the VMK above it. -/
theorem leak_goes_down_ikek :
    Derives demo.suite (Seen (Storage demo demoItemWorld) (Start (fun b => ∃ d, b = .data d) (0 = ·)
      (· = demoIkekRec.plain))) (fun _ => False) demoIkekRec.key.toList ↔
    Derives demo.suite (Seen (Storage demo demoItemWorld) (Start (fun b => ∃ d, b = .data d) (0 = ·) fun _ => False))
      (fun _ => False) demoIkekRec.key.toList := by
  have hne : demoIkekRec.key ≠ demoIkekRec.plain := by decide +kernel
  refine leak_goes_down (r := 4) demoItemWorld_reach demo_plain demoItemWorld_apart ?_ (.key demoIkekRec_mem rfl)
    (by decide) hne
  rintro k rfl
  exact Or.inl ⟨.ikek, .plain demoIkekRec_mem rfl, Nat.le_refl _⟩

/-! ## Derived keys are apart -/

/-- The keys an account derives for other services. -/
def DerivedKey (S : Suite Term) (a : UnlockedAccount Term) (k : SymmetricKey Term) : Prop :=
  k = a.relayAuthKey S ∨ k = (a.aiInboxKeypair S).secret

theorem Raw.plain {b : Term} (h : Raw b) : Plain o b := by
  cases b with
  | lit b => exact .lit b
  | key pos j => exact .key pos j
  | data d => exact .data d
  | word l j => exact .word l j
  | _ => exact h.elim

/-- Made of leaked bytes with BLAKE3. -/
inductive FromLeak (o : Oracle) (Leaked : SymmetricKey Term → Prop) : Term → Prop
  | leaked {k b} (h : Leaked k) (hb : b ∈ k.toList) : FromLeak o Leaked b
  | blake {c m x b} (hx : x ∈ m) (h : FromLeak o Leaked x) (hb : b ∈ (o.suite.blake3 c m).toList) : FromLeak o Leaked b

/-- What it is derived with, and from what. -/
theorem derivedKey_eq {a : UnlockedAccount Term} (h : DerivedKey o.suite a k) :
    ∃ c, (c = "root-key/relay-auth/v1" ∨ c = "root-key/ai-inbox/v1") ∧ k = o.suite.blake3 c (a.material o.suite) := by
  rcases h with rfl | rfl
  · exact ⟨_, Or.inl rfl, rfl⟩
  · exact ⟨_, Or.inr rfl, rfl⟩

/-- Only BLAKE3 bytes are made of a leak: of a derived key, or over a byte made of the leak. -/
theorem fromLeak_blake {D : UnlockedAccount Term → Prop} (hleak : ∀ k, Leaked k → ∃ a, D a ∧ DerivedKey o.suite a k)
    {b : Term} (h : FromLeak o Leaked b) : ∃ c m, b ∈ (o.suite.blake3 c m).toList ∧
      ((Leaked (o.suite.blake3 c m) ∧ (c = "root-key/relay-auth/v1" ∨ c = "root-key/ai-inbox/v1")) ∨
        ∃ x ∈ m, FromLeak o Leaked x) := by
  cases h with
  | leaked h hb =>
    obtain ⟨a, -, hd⟩ := hleak _ h
    obtain ⟨c, hc, rfl⟩ := derivedKey_eq hd
    exact ⟨c, _, hb, Or.inl ⟨h, hc⟩⟩
  | blake hx h hb => exact ⟨_, _, hb, Or.inr ⟨_, hx, h⟩⟩

/-- The leak is of derived keys. -/
def LeakedDerived (o : Oracle) (w : World Term) (Leaked : SymmetricKey Term → Prop) : Prop :=
  ∀ k, Leaked k → ∃ a, a ∈ w.all.accounts ∧ DerivedKey o.suite a k

theorem raw_apart (hleak : LeakedDerived o w Leaked) {b : Term} (hb : Raw b) : ¬ FromLeak o Leaked b := by
  intro h
  obtain ⟨c, m, hmem, -⟩ := fromLeak_blake hleak h
  exact raw_not_blake hb hmem

theorem lits_apart (hleak : LeakedDerived o w Leaked) (l : List UInt8) :
    ∀ b ∈ l.map o.suite.lit, ¬ FromLeak o Leaked b := by
  intro b hb
  obtain ⟨x, -, rfl⟩ := List.mem_map.mp hb
  exact raw_apart hleak (b := .lit x) trivial

/-- Derived in another context, from bytes not of the leak. -/
theorem blake_apart (hleak : LeakedDerived o w Leaked) {c : String} {m : List Term}
    (hc : c ≠ "root-key/relay-auth/v1" ∧ c ≠ "root-key/ai-inbox/v1") (hm : ∀ x ∈ m, ¬ FromLeak o Leaked x) :
    ∀ b ∈ (o.suite.blake3 c m).toList, ¬ FromLeak o Leaked b := by
  intro b hb h
  obtain ⟨c', m', hmem, h⟩ := fromLeak_blake hleak h
  obtain ⟨rfl, rfl⟩ := mem_blake hb hmem
  rcases h with ⟨-, h | h⟩ | ⟨x, hx, h⟩
  · exact hc.1 h
  · exact hc.2 h
  · exact hm x hx h

/-- No key of the world is made of the leak. -/
theorem Is.apart (hleak : LeakedDerived o w Leaked) (hraw : ∀ b, Env b → Raw b) (h : Is o.suite Env role l k) :
    ∀ b ∈ k.toList, ¬ FromLeak o Leaked b := by
  have hmat : ∀ {k : Arr Term 32} (id : Id), Bytes Env k → ∀ x ∈ sharedMaterial o.suite k id, ¬ FromLeak o Leaked x :=
    fun id h => List.forall_mem_append.mpr ⟨fun b hb => raw_apart hleak (hraw b (h b hb)), lits_apart hleak _⟩
  cases h with
  | drawn h =>
    obtain ⟨i, hi, -⟩ := h
    intro b hb
    obtain ⟨j, rfl⟩ := plain_drawn hi b hb
    exact raw_apart hleak (b := .key i j) trivial
  | sharedVmk id h => exact blake_apart hleak ⟨by decide, by decide⟩ (hmat id h)
  | sharedIkek id h => exact blake_apart hleak ⟨by decide, by decide⟩ (hmat id h)
  | handed h => exact fun b hb => raw_apart hleak (hraw b (h b hb))

theorem Typed.apart (hleak : LeakedDerived o w Leaked) (h : Typed o.suite k) :
    ∀ b ∈ k.toList, ¬ FromLeak o Leaked b := by
  cases h with
  | password hm =>
    have hm' := (deriveMuk_ok.mp hm).2.2
    simp only [Oracle.suite, Option.ite_none_right_eq_some, Option.some.injEq] at hm'
    rw [← hm'.2]
    intro b hb h
    obtain ⟨c, m, hmem, -⟩ := fromLeak_blake hleak h
    obtain ⟨j, -, rfl⟩ := List.mem_map.mp hb
    obtain ⟨j', -, hj⟩ := List.mem_map.mp hmem
    cases hj
  | recovery raw id =>
    refine blake_apart hleak ⟨by decide, by decide⟩ (List.forall_mem_append.mpr ⟨fun b hb => ?_, lits_apart hleak _⟩)
    rcases Oracle.mem_typed hb with ⟨x, rfl⟩ | ⟨-, j, rfl⟩
    · exact raw_apart hleak (b := .lit x) trivial
    · exact raw_apart hleak (b := .word _ j) trivial

/-- No key that something is stored under is. -/
theorem stored_apart (hl : Levels o.suite Env role w.all) (hleak : LeakedDerived o w Leaked)
    (hraw : ∀ b, Env b → Raw b) {x : Stored} (hx : Storage o w x) : ∀ b ∈ x.key.toList, ¬ FromLeak o Leaked b := by
  cases hx with
  | wrapped hr =>
    have hkey := (hl.wrapped _ hr).key
    split at hkey
    · exact hkey.apart hleak hraw
    · exact hkey.apart hleak
  | payload hx h =>
    obtain ⟨-, k', a', hk, h'⟩ := hl.payloads _ hx
    obtain ⟨rfl, -, -⟩ := h.unique o.suite_ideal h'
    exact hk.apart hleak hraw

/-- A key of the world is no derived key. -/
theorem Is.not_derived (hraw : ∀ b, Env b → Raw b) (h : Is o.suite Env role l k) {c : String} {m : List Term}
    (hc : c = "root-key/relay-auth/v1" ∨ c = "root-key/ai-inbox/v1") {b : Term} (hb : b ∈ k.toList)
    (hmem : b ∈ (o.suite.blake3 c m).toList) : False := by
  cases h with
  | drawn h =>
    obtain ⟨i, hi, -⟩ := h
    obtain ⟨j, rfl⟩ := plain_drawn hi b hb
    exact raw_not_blake (b := .key i j) trivial hmem
  | sharedVmk id h =>
    obtain ⟨rfl, -⟩ := mem_blake hb hmem
    exact absurd hc (by decide)
  | sharedIkek id h =>
    obtain ⟨rfl, -⟩ := mem_blake hb hmem
    exact absurd hc (by decide)
  | handed h => exact raw_not_blake (hraw _ (h _ hb)) hmem

/-- A derived key was opened only by deriving it. -/
theorem opened_material (hl : Levels o.suite Env role w.all) (hraw : ∀ b, Env b → Raw b) {m : List Term}
    (h : Lib.Opened o (Storage o w) (Start Env Sec fun _ => False) Guess m) {b : Term} (hb : b ∈ m) {c : String}
    {m' : List Term} (hc : c = "root-key/relay-auth/v1" ∨ c = "root-key/ai-inbox/v1")
    (hmem : b ∈ (o.suite.blake3 c m').toList) :
    Lib.Opened o (Storage o w) (Start Env Sec fun _ => False) Guess m' := by
  induction h generalizing b with
  | start h =>
    cases h with
    | outside h _ =>
      rw [List.mem_singleton] at hb
      exact (raw_not_blake (hb ▸ hraw _ h) hmem).elim
    | leaked h => exact h.elim
  | lit x =>
    rw [List.mem_singleton] at hb
    exact (raw_not_blake (hb ▸ trivial) hmem).elim
  | byte _ hb' ih =>
    rw [List.mem_singleton] at hb
    exact ih (hb ▸ hb') hmem
  | join _ ih => exact ih b hb List.mem_cons_self hmem
  | argon hw h =>
    simp only [Oracle.suite, Option.ite_none_right_eq_some, Option.some.injEq] at h
    rw [← h.2] at hb
    obtain ⟨j, -, rfl⟩ := List.mem_map.mp hb
    obtain ⟨j', -, hj⟩ := List.mem_map.mp hmem
    cases hj
  | blake c' hm _ =>
    obtain ⟨rfl, rfl⟩ := mem_blake hb hmem
    exact hm
  | stored hx _ _ =>
    cases hx with
    | wrapped hr =>
      have hplain := (hl.wrapped _ hr).plain
      split at hplain
      · exact (hplain.not_derived hraw hc hb hmem).elim
      · exact (raw_not_blake (hraw _ (hplain _ hb)) hmem).elim
    | payload hx _ =>
      obtain ⟨hp, -⟩ := hl.payloads _ hx
      exact (raw_not_blake (hraw _ (hp _ hb)) hmem).elim

/-- What the leak adds is made of it. -/
theorem leak_adds (hl : Levels o.suite Env role w.all) (hraw : ∀ b, Env b → Raw b) (hleak : LeakedDerived o w Leaked)
    {m : List Term} (h : Lib.Opened o (Storage o w) (Start Env Sec Leaked) Guess m) :
    ∀ b ∈ m, Lib.Opened o (Storage o w) (Start Env Sec fun _ => False) Guess [b] ∨ FromLeak o Leaked b := by
  refine h.leak (fun m hm b hb => ?_) (fun c m hx b hb => ?_) fun x hx _ hlow => ?_
  · cases hm with
    | outside h hsafe =>
      rw [List.mem_singleton] at hb
      exact Or.inl (.start (hb ▸ .outside h hsafe))
    | leaked h => exact Or.inr (.leaked h hb)
  · obtain ⟨x, hx, hlow⟩ := hx
    exact .blake hx hlow hb
  · obtain ⟨b, hb, hlow⟩ := hlow
    exact absurd hlow (stored_apart hl hleak hraw hx b hb)

theorem opened_more {m : List Term} (h : Lib.Opened o (Storage o w) (Start Env Sec fun _ => False) Guess m) :
    Lib.Opened o (Storage o w) (Start Env Sec Leaked) Guess m := by
  refine h.mono (fun _ h => h) (fun m hm => ?_) fun _ h => h
  cases hm with
  | outside h hsafe => exact .start (.outside h hsafe)
  | leaked h => exact h.elim

/-- Of a derived key the attacker has the leak, or the root key. -/
theorem derivedKey_opened (hl : Levels o.suite Env role w.all) (hraw : ∀ b, Env b → Raw b)
    (hleak : LeakedDerived o w Leaked) {a : UnlockedAccount Term} (ha : a ∈ w.all.accounts)
    (hk : DerivedKey o.suite a k) : Lib.Opened o (Storage o w) (Start Env Sec Leaked) Guess k.toList ↔
      Leaked k ∨ Lib.Opened o (Storage o w) (Start Env Sec fun _ => False) Guess a.ark.toList := by
  have hmat : ∀ x ∈ a.material o.suite, ¬ FromLeak o Leaked x :=
    List.forall_mem_append.mpr ⟨(hl.accounts a ha).apart hleak hraw, lits_apart hleak _⟩
  obtain ⟨c, hc, rfl⟩ := derivedKey_eq hk
  constructor
  · intro h
    obtain ⟨b, hb⟩ := first_byte (o.suite.blake3 c (a.material o.suite))
    rcases leak_adds hl hraw hleak h b hb with h | h
    · have hopen := opened_material hl hraw h List.mem_cons_self hc hb
      exact Or.inr (.join fun x hx => .byte hopen (List.mem_append_left _ hx))
    · obtain ⟨c', m', hmem, h⟩ := fromLeak_blake hleak h
      obtain ⟨rfl, rfl⟩ := mem_blake hb hmem
      rcases h with ⟨h, -⟩ | ⟨x, hx, h⟩
      · exact Or.inl h
      · exact absurd h (hmat x hx)
  · rintro (h | h)
    · exact .start (.leaked h)
    · refine .blake c (.join (List.forall_mem_append.mpr ⟨fun b hb => .byte (opened_more h) hb, fun b hb => ?_⟩))
      obtain ⟨x, -, rfl⟩ := List.mem_map.mp hb
      exact .lit x

/-- Leaked derived keys give neither a key of the world nor a derived key that did not leak. -/
theorem derived_keys_apart (hw : Reach o.suite Env w) (hraw : ∀ b, Env b → Raw b) (hleak : LeakedDerived o w Leaked) :
    (∀ l k, w.At l k →
      (Derives o.suite (Seen (Storage o w) (Start Env Sec Leaked)) Guess k.toList ↔
        Derives o.suite (Seen (Storage o w) (Start Env Sec fun _ => False)) Guess k.toList)) ∧
    ∀ a ∈ w.all.accounts, ∀ k, DerivedKey o.suite a k →
      (Derives o.suite (Seen (Storage o w) (Start Env Sec Leaked)) Guess k.toList ↔
        Leaked k ∨ Derives o.suite (Seen (Storage o w) (Start Env Sec fun _ => False)) Guess a.ark.toList) := by
  have hs := reach_sound o.suite_ideal hw
  obtain ⟨role, -, hl⟩ := reach_levels o.suite_ideal hw
  have henv : ∀ b, Env b → Plain o b := fun b h => (hraw b h).plain
  have hleak' : ∀ k, Leaked k → Leakable o w k := by
    intro k h
    obtain ⟨a, -, hd⟩ := hleak k h
    obtain ⟨c, -, hk⟩ := derivedKey_eq hd
    exact Or.inr ⟨c, _, hk⟩
  have hiff : ∀ {m : List Term}, (∀ b ∈ m, Plain o b) →
      (Derives o.suite (Seen (Storage o w) (Start Env Sec Leaked)) Guess m ↔
        Lib.Opened o (Storage o w) (Start Env Sec Leaked) Guess m) :=
    fun hm => derives_iff (stored_ok hs hl henv) (start_atom hl henv hleak') hm
  have hiff' : ∀ {m : List Term}, (∀ b ∈ m, Plain o b) →
      (Derives o.suite (Seen (Storage o w) (Start Env Sec fun _ => False)) Guess m ↔
        Lib.Opened o (Storage o w) (Start Env Sec fun _ => False) Guess m) :=
    fun hm => derives_iff (stored_ok hs hl henv) (start_atom hl henv fun _ h => h.elim) hm
  refine ⟨fun l k hk => ?_, fun a ha k hk => ?_⟩
  · have his := At.is hl hk
    rw [hiff (his.plain henv), hiff' (his.plain henv)]
    refine ⟨fun h => .join fun b hb => ?_, opened_more⟩
    exact (leak_adds hl hraw hleak h b hb).resolve_right (his.apart hleak hraw b hb)
  · have his := hl.accounts a ha
    have hplain : ∀ b ∈ k.toList, Plain o b := by
      obtain ⟨c, -, rfl⟩ := derivedKey_eq hk
      exact plain_blake (his.plain henv) c
    rw [hiff hplain, hiff' (his.plain henv)]
    exact derivedKey_opened hl hraw hleak ha hk

/-- The relay key leaked: the inbox secret is had with the root key only. -/
theorem derived_keys_apart_relay : ∃ w : World Term, ∃ a ∈ w.all.accounts,
    (Derives demo.suite (Seen (Storage demo w) (Start (fun b => ∃ d, b = .data d) (0 = ·)
        (· = a.relayAuthKey demo.suite))) (fun _ => False) (a.aiInboxKeypair demo.suite).secret.toList ↔
      (a.aiInboxKeypair demo.suite).secret = a.relayAuthKey demo.suite ∨
        Derives demo.suite (Seen (Storage demo w) (Start (fun b => ∃ d, b = .data d) (0 = ·) fun _ => False))
          (fun _ => False) a.ark.toList) := by
  obtain ⟨kdf, muk, wa, henc, hmuk, -⟩ := createAccount_ok demoAccount_created
  have hm : deriveMuk demo.suite "a" demoAccount.1.encrypted.kdf = .ok muk := by
    rw [henc]
    exact hmuk
  have h0 : Reach demo.suite (fun b => ∃ d, b = .data d) (⟨0, {}⟩ : World Term) := .init 0
  have hr := h0.call (Nat.le_refl _) (.createAccount demoAccount_created hm)
  have hraw : ∀ b : Term, (∃ d, b = .data d) → Raw b := by
    rintro b ⟨d, rfl⟩
    exact trivial
  refine ⟨_, demoAccount.1.unlocked, List.mem_cons_self,
    (derived_keys_apart hr hraw ?_).2 _ List.mem_cons_self _ (Or.inr rfl)⟩
  rintro k rfl
  exact ⟨demoAccount.1.unlocked, List.mem_cons_self, Or.inl rfl⟩

/-! ## At rest -/

/-- The key is of no guessed password, and of no recovery key that is not kept. -/
def Locked (o : Oracle) (Guess : List UInt8 → Prop) (k : SymmetricKey Term) : Prop :=
  (∀ pw kdf, deriveMuk o.suite pw kdf = .ok k → ¬ Guess (asBytes (o.nfkd pw))) ∧
    ∀ raw id, k = recoveryKekFrom o.suite raw id → o.kept (asBytes raw) = true

/-- Drawn keys and contents are secret, passwords unless guessed. -/
theorem data_secret {k : Arr Term 32} (h : Bytes (fun b => ∃ d, b = .data d) k) : ¬ SafeKey (allSecret Guess) k := by
  intro hs
  obtain ⟨b, hb⟩ := first_byte k
  obtain ⟨d, rfl⟩ := h b hb
  exact hs _ hb trivial

theorem Is.secret (h : Is o.suite (fun b => ∃ d, b = .data d) role l k) : ¬ SafeKey (allSecret Guess) k := by
  cases h with
  | drawn h =>
    obtain ⟨i, hi, -⟩ := h
    exact fun hs => (osKey_safe hi).mp hs trivial
  | sharedVmk id h => exact fun hs => data_secret h ((deriveSharedVaultKeys_safe o _ id).1.mp hs)
  | sharedIkek id h => exact fun hs => data_secret h ((deriveSharedVaultKeys_safe o _ id).2.mp hs)
  | handed h => exact data_secret h

theorem Typed.secret (h : Typed o.suite k) (hk : Locked o Guess k) : ¬ SafeKey (allSecret Guess) k := by
  cases h with
  | password h => exact fun hs => hk.1 _ _ h ((deriveMuk_safe h).mp hs)
  | recovery raw id => exact fun hs => recoveryKekFrom_safe.mp hs (hk.2 raw id rfl) trivial

/-- What is derived from what is stored alone may be published. -/
theorem locked_safe (hw : Reach o.suite (fun b => ∃ d, b = .data d) w)
    (hlocked : ∀ r ∈ w.all.wrapped, Locked o Guess r.key) {m : List Term}
    (h : Derives o.suite (fun m => ∃ x, Storage o w x ∧ x.out = m) Guess m) : AllSafe (allSecret Guess) m := by
  have hs := reach_sound o.suite_ideal hw
  obtain ⟨role, -, hl⟩ := reach_levels o.suite_ideal hw
  refine h.safe (fun _ hg => hg) ?_
  rintro m ⟨x, hx, rfl⟩
  cases hx with
  | @wrapped r hr =>
    refine (wraps_safe (hs.wraps r hr)).mpr fun hk => absurd hk ?_
    have hkey := (hl.wrapped r hr).key
    split at hkey
    · exact hkey.secret
    · exact hkey.secret (hlocked r hr)
  | payload hx h =>
    obtain ⟨-, k', a', hk, h'⟩ := hl.payloads _ hx
    obtain ⟨rfl, -, -⟩ := h.unique o.suite_ideal h'
    exact (seals_safe h).mpr fun hsafe => absurd hsafe hk.secret

/-- From what is stored alone, no byte of a drawn key or of a content is derived. -/
theorem at_rest (hw : Reach o.suite (fun b => ∃ d, b = .data d) w)
    (hlocked : ∀ r ∈ w.all.wrapped, Locked o Guess r.key) {b : Term}
    (h : Derives o.suite (fun m => ∃ x, Storage o w x ∧ x.out = m) Guess [b]) :
    (∀ pos j, b ≠ .key pos j) ∧ ∀ d, b ≠ .data d := by
  have hsafe := locked_safe hw hlocked h
  constructor
  · rintro pos j rfl
    exact hsafe _ List.mem_cons_self trivial
  · rintro d rfl
    exact hsafe _ List.mem_cons_self trivial

theorem locked_drawn {i : Nat} (h : o.suite.osKey i = some k) : Locked o Guess k := by
  refine ⟨fun pw kdf hm => (drawn_not_argon h hm).elim, fun raw id he => ?_⟩
  rw [he] at h
  exact (drawn_not_blake h).elim

theorem locked_unguessed {pw : String} {kdf : KdfParams} (h : deriveMuk o.suite pw kdf = .ok k) :
    Locked o (fun _ => False) k := by
  refine ⟨fun _ _ _ => not_false, fun raw id he => ?_⟩
  rw [he] at h
  exact (argon_not_blake h).elim

/-- The key of a kept recovery key is of no other one. -/
theorem locked_recovery {raw : String} {id : Id} (h : o.kept (asBytes raw) = true) :
    Locked o Guess (recoveryKekFrom o.suite raw id) := by
  refine ⟨fun pw kdf hm => (argon_not_blake hm).elim, fun raw' id' he => ?_⟩
  by_contra hno
  have hs : SafeKey (allSecret Guess) (recoveryKekFrom o.suite raw' id') := recoveryKekFrom_safe.mpr fun h => absurd h hno
  rw [← he] at hs
  exact recoveryKekFrom_safe.mp hs h trivial

theorem demoItemWorld_locked : ∀ r ∈ demoItemWorld.all.wrapped, Locked demo (fun _ => False) r.key := by
  have hm : deriveMuk demo.suite "a" demoVault.1.encrypted.kdf = .ok demoMuk := by decide +kernel
  refine List.forall_mem_cons.mpr ⟨locked_drawn (i := 5) rfl, List.forall_mem_cons.mpr ⟨locked_unguessed hm,
    List.forall_mem_cons.mpr ⟨locked_drawn (i := 3) rfl, List.forall_mem_cons.mpr ⟨locked_drawn (i := 4) rfl,
      fun r hr => (by cases hr)⟩⟩⟩⟩

/-- The stored vault alone does not give its item's content. -/
theorem at_rest_item : ¬ Derives demo.suite (fun m => ∃ x, Storage demo demoItemWorld x ∧ x.out = m) (fun _ => False)
    [.data 0] :=
  fun h => (at_rest demoItemWorld_reach demoItemWorld_locked h).2 0 rfl

end RootkeyCrypto.Worlds
