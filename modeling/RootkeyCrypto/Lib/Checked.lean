/-
  RootkeyCrypto.Lib.Checked — machine words whose operations may have no result.

  A program that shifts by the width of a word or more, leaves the range of a word, or
  indexes past the end of an array stops there. `checkedShl`, `checkedShr`, `checkedAdd`
  and `checkedSub` are the operations with that outcome, `none`. A program written with
  them that always has a result never stops; a loop does, when each of its steps does and
  keeps an invariant (`foldlM_total`).
-/

import Mathlib.Tactic.Common

namespace RootkeyCrypto.Lib

def checkedShl (x n : UInt32) : Option UInt32 := if n < 32 then some (x <<< n) else none

def checkedShr (x n : UInt32) : Option UInt32 := if n < 32 then some (x >>> n) else none

def checkedAdd (x y : UInt32) : Option UInt32 := if x.toNat + y.toNat < UInt32.size then some (x + y) else none

def checkedSub (x y : UInt32) : Option UInt32 := if y ≤ x then some (x - y) else none

section Words

variable {x y n : UInt32}

theorem checkedShl_some (h : n.toNat < 32) : checkedShl x n = some (x <<< n) :=
  if_pos (UInt32.lt_iff_toNat_lt.mpr h)

theorem checkedShr_some (h : n.toNat < 32) : checkedShr x n = some (x >>> n) :=
  if_pos (UInt32.lt_iff_toNat_lt.mpr h)

/-- Counts of bits are far from the end of the range. -/
theorem checkedAdd_some (hx : x.toNat < 32) (hy : y.toNat < 32) : checkedAdd x y = some (x + y) := by
  refine if_pos ?_
  show x.toNat + y.toNat < 4294967296
  omega

theorem checkedSub_some (h : y.toNat ≤ x.toNat) : checkedSub x y = some (x - y) :=
  if_pos (UInt32.le_iff_toNat_le.mpr h)

end Words

/-- A loop whose steps all have a result, which are those of `f`, has that of `f`. -/
theorem foldlM_total {σ α : Type} {Inv : σ → Prop} {f : σ → α → σ} {g : σ → α → Option σ}
    (step : ∀ s a, Inv s → g s a = some (f s a) ∧ Inv (f s a)) (l : List α) {s : σ} (h : Inv s) :
    l.foldlM g s = some (l.foldl f s) ∧ Inv (l.foldl f s) := by
  induction l generalizing s with
  | nil => exact ⟨rfl, h⟩
  | cons a l ih =>
    obtain ⟨hg, hf⟩ := step s a h
    rw [List.foldlM_cons, hg]
    exact ih hf

end RootkeyCrypto.Lib
