/-
  RootkeyCrypto.Lib.Tape — what a run takes from a random tape, in order.

  `Taken tape n n' l`: the values of `l` were read at rising positions, from `n` on and
  before `n'`. Two stretches one after the other are one stretch (`Taken.append`), so what
  a run of calls takes is what its calls take, one after the other; a loop takes what its
  rounds take (`each_taken`). No position is read twice (`Taken.positions`).

  What is taken may be recorded with its use in `Lib.Roles` (`Taken.recorded`). Where each
  value is read off one draw that as many draws give, each result of a loop comes from as
  many sequences of draws (`card_lists`).
-/

import RootkeyCrypto.Lib.Draws
import RootkeyCrypto.Lib.Roles
import Mathlib.SetTheory.Cardinal.Finite

namespace RootkeyCrypto.Lib

/-- The values were read at rising positions, from `n` on and before `n'`. -/
inductive Taken {α : Type} (tape : Nat → α → Prop) : Nat → Nat → List α → Prop
  | nil {n n'} (h : n ≤ n') : Taken tape n n' []
  | cons {n p n' a l} (hn : n ≤ p) (h : tape p a) (hl : Taken tape (p + 1) n' l) : Taken tape n n' (a :: l)

variable {α γ : Type} {tape : Nat → α → Prop} {n m n' m' : Nat} {l l' : List α}

namespace Taken

theorem le (h : Taken tape n n' l) : n ≤ n' := by
  induction h with
  | nil h => exact h
  | cons hn _ _ ih => omega

theorem widen (h : Taken tape n n' l) (hm : m ≤ n) (hm' : n' ≤ m') : Taken tape m m' l := by
  induction h generalizing m with
  | nil h => exact .nil (by omega)
  | cons hn h _ ih => exact .cons (by omega) h (ih (Nat.le_refl _) hm')

theorem append (h : Taken tape n m l) (h' : Taken tape m n' l') : Taken tape n n' (l ++ l') := by
  induction h with
  | nil hle => exact h'.widen hle (Nat.le_refl _)
  | cons hn h _ ih => exact .cons hn h (ih h')

/-- What was taken beside it may be left out. -/
theorem sublist (h : Taken tape n n' l) (hs : l'.Sublist l) : Taken tape n n' l' := by
  induction h generalizing l' with
  | nil hle =>
    rw [List.sublist_nil.mp hs]
    exact .nil hle
  | cons hn h hl ih =>
    cases hs with
    | cons _ hs => exact (ih hs).widen (by omega) (Nat.le_refl _)
    | cons_cons _ hs => exact .cons hn h (ih hs)

/-- Read the same positions as something else. -/
theorem filterMap {tape' : Nat → γ → Prop} {f : α → Option γ} (hf : ∀ p a b, tape p a → f a = some b → tape' p b)
    (h : Taken tape n n' l) : Taken tape' n n' (l.filterMap f) := by
  induction h with
  | nil hle => exact .nil hle
  | @cons n p n' a l hn h hl ih =>
    cases hb : f a with
    | none =>
      rw [List.filterMap_cons_none hb]
      exact ih.widen (by omega) (Nat.le_refl _)
    | some b =>
      rw [List.filterMap_cons_some hb]
      exact .cons hn (hf p a b h hb) ih

theorem of_map {tape' : Nat → γ → Prop} {f : α → γ} (h : Taken tape' n n' (l.map f)) :
    Taken (fun p a => tape' p (f a)) n n' l := by
  induction l generalizing n with
  | nil =>
    cases h with
    | nil hle => exact .nil hle
  | cons a l ih =>
    cases h with
    | cons hn h hl => exact .cons hn h (ih hl)

/-- What is read through `f` comes from values read. -/
theorem read {tape' : Nat → γ → Prop} {f : γ → α} (h : Taken (fun p a => ∃ c, tape' p c ∧ f c = a) n n' l) :
    ∃ cs : List γ, cs.map f = l ∧ Taken tape' n n' cs := by
  induction h with
  | nil hle => exact ⟨[], rfl, .nil hle⟩
  | cons hn h _ ih =>
    obtain ⟨c, hc, rfl⟩ := h
    obtain ⟨cs, rfl, hcs⟩ := ih
    exact ⟨c :: cs, rfl, .cons hn hc hcs⟩

/-- Every value has a position of its own. -/
theorem positions (h : Taken tape n n' l) :
    ∃ ps : List Nat, ps.Pairwise (· < ·) ∧ (∀ p ∈ ps, n ≤ p ∧ p < n') ∧ List.Forall₂ tape ps l := by
  induction h with
  | nil => exact ⟨[], .nil, by simp, .nil⟩
  | @cons n p n' a l hn h hl ih =>
    obtain ⟨ps, hps, hin, hall⟩ := ih
    have hle := hl.le
    refine ⟨p :: ps, List.pairwise_cons.mpr ⟨fun q hq => ?_, hps⟩, List.forall_mem_cons.mpr ⟨⟨hn, by omega⟩, ?_⟩,
      .cons h hall⟩
    · have := (hin q hq).1
      omega
    · intro q hq
      have := hin q hq
      omega

/-- Two values of which the earlier was taken at an earlier position. -/
theorem apart (h : Taken tape n n' l) : l.Pairwise fun a b => ∃ p q, p < q ∧ tape p a ∧ tape q b := by
  induction h with
  | nil => exact .nil
  | @cons n p n' a l hn h hl ih =>
    refine List.pairwise_cons.mpr ⟨fun b hb => ?_, ih⟩
    obtain ⟨ps, -, hin, hall⟩ := hl.positions
    obtain ⟨q, hq, hqb⟩ := paired_right hall hb
    have := (hin q hq).1
    exact ⟨p, q, by omega, h, hqb⟩

end Taken

/-- A loop takes what its rounds take. -/
theorem each_taken {ε ι β : Type} {f : ι → Draws ε β} {g : β → List α}
    (hf : ∀ i n b n', f i n = .ok (b, n') → Taken tape n n' (g b)) :
    ∀ {is : List ι} {n n' : Nat} {bs : List β}, Draws.each f is n = .ok (bs, n') → Taken tape n n' (bs.flatMap g) := by
  intro is
  induction is with
  | nil =>
    intro n n' bs h
    obtain ⟨rfl, rfl⟩ := Draws.pure_ok.mp h
    exact .nil (Nat.le_refl _)
  | cons i is ih =>
    intro n n' bs h
    simp only [Draws.each, Draws.bind_ok, Draws.pure_ok] at h
    obtain ⟨b, m, hb, bs', m', hbs, rfl, rfl⟩ := h
    rw [List.flatMap_cons]
    exact (hf i n b m hb).append (ih hbs)

/-- The same, where what a round takes is told from its element and its result. -/
theorem each_taken_with {ε ι β : Type} {f : ι → Draws ε β} {g : ι → β → α}
    (hf : ∀ i n b n', f i n = .ok (b, n') → Taken tape n n' [g i b]) :
    ∀ {is : List ι} {n n' : Nat} {bs : List β}, Draws.each f is n = .ok (bs, n') →
      Taken tape n n' (List.zipWith g is bs) := by
  intro is
  induction is with
  | nil =>
    intro n n' bs h
    obtain ⟨rfl, rfl⟩ := Draws.pure_ok.mp h
    exact .nil (Nat.le_refl _)
  | cons i is ih =>
    intro n n' bs h
    simp only [Draws.each, Draws.bind_ok, Draws.pure_ok] at h
    obtain ⟨b, m, hb, bs', m', hbs, rfl, rfl⟩ := h
    exact (hf i n b m hb).append (ih hbs)

/-- Keys taken from a stretch not yet used are recorded with their roles. -/
theorem Taken.recorded {β ρ : Type} {S : Suite β} {l : List (ρ × Arr β 32)} {role : Nat → Option ρ}
    (h : Taken (fun p x => S.osKey p = some x.2) n n' l) (hb : Before role n) :
    ∃ role', Extends role role' ∧ Before role' n' ∧ ∀ x ∈ l, DrawnFor S role' x.1 x.2 := by
  induction h generalizing role with
  | nil hle => exact ⟨role, .refl role, hb.mono hle, by simp⟩
  | @cons n p n' x l hn h hl ih =>
    obtain ⟨role', hext, hb', hall⟩ := ih (record_before (hb.mono hn) (Nat.le_succ p) (Nat.lt_succ_self p) x.1)
    refine ⟨role', (record_extends hb hn x.1).trans hext, hb', List.forall_mem_cons.mpr ⟨?_, hall⟩⟩
    exact (record_drawn h x.1).mono hext

/-- Draws for a result and more: a draw for it and draws for the others. -/
def drawsOfCons (f : α → γ) (c : γ) (cs : List γ) :
    {l : List α // l.map f = c :: cs} ≃ {a // f a = c} × {l : List α // l.map f = cs} where
  toFun
    | ⟨a :: l, h⟩ => (⟨a, (List.cons.inj h).1⟩, ⟨l, (List.cons.inj h).2⟩)
  invFun x := ⟨x.1.1 :: x.2.1, by rw [List.map_cons, x.1.2, x.2.2]⟩
  left_inv x := by
    obtain ⟨l, h⟩ := x
    cases l with
    | nil => cases h
    | cons a l => rfl
  right_inv _ := rfl

/-- As many lists of draws give each list of results. -/
theorem card_lists {f : α → γ} {N : Nat} {cs : List γ} (h : ∀ c ∈ cs, Nat.card {a // f a = c} = N) :
    Nat.card {l : List α // l.map f = cs} = N ^ cs.length := by
  induction cs with
  | nil =>
    have hone : Subsingleton {l : List α // l.map f = []} :=
      ⟨fun x y => Subtype.ext ((List.map_eq_nil_iff.mp x.2).trans (List.map_eq_nil_iff.mp y.2).symm)⟩
    have hsome : Nonempty {l : List α // l.map f = []} := ⟨⟨[], rfl⟩⟩
    exact Nat.card_unique
  | cons c cs ih =>
    obtain ⟨hc, hcs⟩ := List.forall_mem_cons.mp h
    rw [Nat.card_congr (drawsOfCons f c cs), Nat.card_prod, hc, ih hcs, List.length_cons, Nat.pow_succ, Nat.mul_comm]

end RootkeyCrypto.Lib
