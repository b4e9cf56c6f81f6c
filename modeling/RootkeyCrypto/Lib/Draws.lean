/-
  RootkeyCrypto.Lib.Draws — computations that may fail and that draw from a random tape.

  A computation reads the tape from a position and, when it succeeds, says where it
  stopped. A failed computation says nothing about the tape: whoever runs it next may
  start at any later position, so a run of such computations is a chain of positions
  that never goes back.

  The inversion rules (`bind_ok`, `pure_ok`, `lift_ok`, `throw_ok`) turn a successful run
  of a `do` block into the successful runs of its steps. `each` runs one computation on
  every element of a list, in order, and `each_ok` is its run rule.
-/

import Mathlib.Data.List.Forall2
import Mathlib.Tactic.Common

namespace RootkeyCrypto.Lib

/-! ## Pairing -/

section Pairing

variable {α β : Type} {R : α → β → Prop} {l : List α} {r : List β}

/-- Every result of a loop comes from an element. -/
theorem paired_right (h : List.Forall₂ R l r) {b : β} (hb : b ∈ r) : ∃ a ∈ l, R a b := by
  induction h with
  | nil => cases hb
  | cons hab _ ih =>
    rcases List.mem_cons.mp hb with rfl | hb
    · exact ⟨_, List.mem_cons_self, hab⟩
    · obtain ⟨a, ha, h⟩ := ih hb
      exact ⟨a, List.mem_cons_of_mem _ ha, h⟩

/-- Every element of a loop has a result. -/
theorem paired_left (h : List.Forall₂ R l r) {a : α} (ha : a ∈ l) : ∃ b ∈ r, R a b :=
  paired_right h.flip ha

/-- What an element and its result agree on, the two lists agree on. -/
theorem paired_map {γ : Type} {f : α → γ} {g : β → γ} (h : List.Forall₂ R l r) (hR : ∀ a b, R a b → g b = f a) :
    r.map g = l.map f := by
  induction h with
  | nil => rfl
  | cons hab _ ih => rw [List.map_cons, List.map_cons, hR _ _ hab, ih]

/-- In a list of distinct names, a name finds its element. -/
theorem find?_of_nodup [DecidableEq β] {key : α → β} (hl : (l.map key).Nodup) {a : α} (ha : a ∈ l) :
    l.find? (fun x => key x = key a) = some a := by
  induction l with
  | nil => cases ha
  | cons x xs ih =>
    rw [List.map_cons, List.nodup_cons] at hl
    rcases List.mem_cons.mp ha with rfl | ha
    · simp
    · have hne : ¬ key x = key a := by
        intro h
        exact hl.1 (List.mem_map.mpr ⟨a, ha, h.symm⟩)
      rw [List.find?_cons_of_neg (by simpa using hne)]
      exact ih hl.2 ha

end Pairing

/-! ## Computations -/

/-- A computation reading the tape from a position: it fails, or succeeds at a later one. -/
def Draws (ε α : Type) : Type := Nat → Except ε (α × Nat)

namespace Draws

variable {ε α β : Type}

instance : Monad (Draws ε) where
  pure a := fun n => .ok (a, n)
  bind x f := fun n => match x n with
    | .ok (a, m) => f a m
    | .error e => .error e

instance : MonadLift (Except ε) (Draws ε) where
  monadLift x := fun n => match x with
    | .ok a => .ok (a, n)
    | .error e => .error e

/-- Fail. -/
def throw (e : ε) : Draws ε α := fun _ => .error e

/-! ## Inversion -/

theorem bind_ok {x : Draws ε α} {f : α → Draws ε β} {n n' : Nat} {b : β} :
    (x >>= f) n = .ok (b, n') ↔ ∃ a m, x n = .ok (a, m) ∧ f a m = .ok (b, n') := by
  show (match x n with | .ok (a, m) => f a m | .error e => .error e) = _ ↔ _
  rcases x n with e | ⟨a, m⟩ <;> simp

theorem pure_ok {a b : α} {n n' : Nat} :
    (pure a : Draws ε α) n = .ok (b, n') ↔ b = a ∧ n' = n := by
  show Except.ok (a, n) = _ ↔ _
  simp [eq_comm]

theorem lift_ok {x : Except ε α} {n n' : Nat} {a : α} :
    (liftM x : Draws ε α) n = .ok (a, n') ↔ x = .ok a ∧ n' = n := by
  show (match x with | .ok a => Except.ok (a, n) | .error e => .error e) = _ ↔ _
  rcases x with e | b <;> simp [eq_comm]

theorem bind_error {x : Draws ε α} {f : α → Draws ε β} {n : Nat} {e : ε} :
    (x >>= f) n = .error e ↔ x n = .error e ∨ ∃ a m, x n = .ok (a, m) ∧ f a m = .error e := by
  show (match x n with | .ok (a, m) => f a m | .error e => .error e) = _ ↔ _
  rcases x n with e' | ⟨a, m⟩ <;> simp

theorem lift_bind {x : Except ε α} {f : α → Draws ε β} {n : Nat} :
    ((liftM x : Draws ε α) >>= f) n = x >>= fun a => f a n := by
  cases x <;> rfl

theorem lift_error {x : Except ε α} {n : Nat} {e : ε} :
    (liftM x : Draws ε α) n = .error e ↔ x = .error e := by
  show (match x with | .ok a => Except.ok (a, n) | .error e => .error e) = _ ↔ _
  rcases x with e' | b <;> simp

theorem throw_ok {e : ε} {n n' : Nat} {a : α} : (throw e : Draws ε α) n = .ok (a, n') ↔ False :=
  ⟨fun h => (by cases h), False.elim⟩

/-! ## Loops -/

/-- Run `f` on every element, in order; the first failure ends the loop. -/
def each (f : α → Draws ε β) : List α → Draws ε (List β)
  | [] => pure []
  | a :: as => do
    let b ← f a
    let bs ← each f as
    pure (b :: bs)

/-- The computation never moves back on the tape. -/
def Forward (x : Draws ε α) : Prop := ∀ n a n', x n = .ok (a, n') → n ≤ n'

/-- `b` is a result of `f a` somewhere between two positions. -/
def Within (f : α → Draws ε β) (n n' : Nat) (a : α) (b : β) : Prop :=
  ∃ m m', n ≤ m ∧ m ≤ m' ∧ m' ≤ n' ∧ f a m = .ok (b, m')

theorem Within.widen {f : α → Draws ε β} {n n' k k' : Nat} {a : α} {b : β} (h : Within f n n' a b)
    (hk : k ≤ n) (hk' : n' ≤ k') : Within f k k' a b := by
  obtain ⟨m, m', h1, h2, h3, h4⟩ := h
  exact ⟨m, m', by omega, h2, by omega, h4⟩

/-- A loop that succeeds succeeded on every element, one after the other. -/
theorem each_ok {f : α → Draws ε β} (hf : ∀ a, Forward (f a)) :
    ∀ {l : List α} {n n' : Nat} {r : List β}, each f l n = .ok (r, n') →
      n ≤ n' ∧ List.Forall₂ (Within f n n') l r := by
  intro l
  induction l with
  | nil =>
    intro n n' r h
    obtain ⟨rfl, rfl⟩ := pure_ok.mp h
    exact ⟨Nat.le_refl _, .nil⟩
  | cons a l ih =>
    intro n n' r h
    simp only [each, bind_ok, pure_ok] at h
    obtain ⟨b, m, hb, bs, m', hbs, rfl, rfl⟩ := h
    have hle := hf a n b m hb
    obtain ⟨hle', hall⟩ := ih hbs
    refine ⟨by omega, .cons ⟨n, m, Nat.le_refl _, hle, hle', hb⟩ ?_⟩
    exact hall.imp fun _ _ hw => hw.widen hle (Nat.le_refl _)

/-- Two results of a loop come from stretches of the tape one after the other. -/
theorem each_apart {f : α → Draws ε β} (hf : ∀ a, Forward (f a)) :
    ∀ {l : List α} {n n' : Nat} {r : List β}, each f l n = .ok (r, n') →
      r.Pairwise fun b b' => ∃ a m m' a' k k', f a m = .ok (b, m') ∧ f a' k = .ok (b', k') ∧ m' ≤ k := by
  intro l
  induction l with
  | nil =>
    intro n n' r h
    obtain ⟨rfl, rfl⟩ := pure_ok.mp h
    exact .nil
  | cons a l ih =>
    intro n n' r h
    simp only [each, bind_ok, pure_ok] at h
    obtain ⟨b, m, hb, bs, m', hbs, rfl, rfl⟩ := h
    refine List.pairwise_cons.mpr ⟨?_, ih hbs⟩
    intro b' hb'
    have hall := (each_ok hf hbs).2
    obtain ⟨a', -, k, k', hk, -, -, hb'⟩ := paired_right hall hb'
    exact ⟨a, n, m, a', k, k', hb, hb', hk⟩

end Draws

/-! ## Concrete runs -/

/-- The value of a computation that succeeds. -/
def okVal {ε α : Type} (x : Except ε α) (h : x.isOk = true) : α :=
  match x, h with
  | .ok a, _ => a

theorem okVal_eq {ε α : Type} {x : Except ε (α × Nat)} (h : x.isOk = true) :
    x = .ok ((okVal x h).1, (okVal x h).2) := by
  rcases x with e | a
  · cases h
  · rfl

/-! ## Plain failure -/

theorem except_bind_ok {ε α β : Type} {x : Except ε α} {f : α → Except ε β} {b : β} :
    (x >>= f) = .ok b ↔ ∃ a, x = .ok a ∧ f a = .ok b := by
  rcases x with e | a
  · exact ⟨fun h => (by cases h), fun ⟨_, h, _⟩ => (by cases h)⟩
  · exact ⟨fun h => ⟨a, rfl, h⟩, fun ⟨_, h, hb⟩ => (by cases h; exact hb)⟩

theorem except_bind_error {ε α β : Type} {x : Except ε α} {f : α → Except ε β} {e : ε} :
    (x >>= f) = .error e ↔ x = .error e ∨ ∃ a, x = .ok a ∧ f a = .error e := by
  rcases x with e' | a
  · constructor
    · intro h
      cases h
      exact Or.inl rfl
    · intro h
      rcases h with h | ⟨_, h, _⟩
      · cases h
        rfl
      · cases h
  · constructor
    · intro h
      exact Or.inr ⟨a, rfl, h⟩
    · intro h
      rcases h with h | ⟨_, h, hb⟩
      · cases h
      · cases h
        exact hb

theorem except_pure_ok {ε α : Type} {a b : α} : (pure a : Except ε α) = .ok b ↔ a = b :=
  ⟨fun h => (by cases h; rfl), fun h => (by rw [h]; rfl)⟩

end RootkeyCrypto.Lib
