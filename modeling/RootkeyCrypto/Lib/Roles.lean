/-
  RootkeyCrypto.Lib.Roles — what each key of a run was drawn for.

  A run draws its keys at rising positions of the tape, and a proof about it often needs
  that two keys of different use are different. `role` says for each position what was
  drawn there; `DrawnFor S role r k` that `k` was drawn for `r`. A step that draws at a
  position not yet used extends the record (`record_extends`), what was recorded stays
  (`DrawnFor.mono`), and no key was drawn for two things (`DrawnFor.unique`).
-/

import RootkeyCrypto.Lib.Suite
import Mathlib.Logic.Function.Basic

namespace RootkeyCrypto.Lib

variable {β ρ : Type} {S : Suite β} {role role' role'' : Nat → Option ρ} {n n' p : Nat} {k : Arr β 32}

/-- Nothing is recorded from `n` on. -/
def Before (role : Nat → Option ρ) (n : Nat) : Prop := ∀ q r, role q = some r → q < n

def Extends (role role' : Nat → Option ρ) : Prop := ∀ q r, role q = some r → role' q = some r

/-- The position was drawn at for `r`. -/
def record (role : Nat → Option ρ) (p : Nat) (r : ρ) : Nat → Option ρ := Function.update role p (some r)

def DrawnFor (S : Suite β) (role : Nat → Option ρ) (r : ρ) (k : Arr β 32) : Prop :=
  ∃ q, S.osKey q = some k ∧ role q = some r

theorem Extends.refl (role : Nat → Option ρ) : Extends role role := fun _ _ h => h

theorem Extends.trans (h : Extends role role') (h' : Extends role' role'') : Extends role role'' :=
  fun q r hq => h' q r (h q r hq)

theorem Before.mono (h : Before role n) (hn : n ≤ n') : Before role n' :=
  fun q r hq => Nat.lt_of_lt_of_le (h q r hq) hn

theorem record_extends (hb : Before role n) (hp : n ≤ p) (r : ρ) : Extends role (record role p r) := by
  intro q r' hq
  have hne : q ≠ p := Nat.ne_of_lt (Nat.lt_of_lt_of_le (hb q r' hq) hp)
  exact (Function.update_of_ne hne _ _).trans hq

theorem record_before (hb : Before role n) (hn : n ≤ n') (hp : p < n') (r : ρ) : Before (record role p r) n' := by
  intro q r' hq
  by_cases hqp : q = p
  · rw [hqp]
    exact hp
  · rw [record, Function.update_of_ne hqp] at hq
    exact Nat.lt_of_lt_of_le (hb q r' hq) hn

theorem record_drawn (hk : S.osKey p = some k) (r : ρ) : DrawnFor S (record role p r) r k :=
  ⟨p, hk, Function.update_self ..⟩

theorem DrawnFor.mono {r : ρ} (hk : DrawnFor S role r k) (h : Extends role role') : DrawnFor S role' r k := by
  obtain ⟨q, hq, hr⟩ := hk
  exact ⟨q, hq, h q r hr⟩

/-- No key is drawn for two things. -/
theorem DrawnFor.unique (hS : S.Ideal) {r r' : ρ} (h : DrawnFor S role r k) (h' : DrawnFor S role r' k) : r = r' := by
  obtain ⟨q, hq, hr⟩ := h
  obtain ⟨q', hq', hr'⟩ := h'
  rw [hS.key_fresh hq hq', hr'] at hr
  exact (Option.some.inj hr).symm

end RootkeyCrypto.Lib
