import Prevision.Program.Basic

/-!
# Affine forms in named variables

A constraint is written down as a constant and terms `coefficient · variable`
in any order; the terms of one variable add up. `toRow` lays the form out as
a row over all variables, which has the same value at every point
(`eval_toRow`).
-/

namespace Prevision

/-- The affine form `constant + Σ coefficient · variable`. -/
structure AffineForm where
  constant : Rat
  terms : List (Nat × Rat)

namespace AffineForm

/-- The total coefficient of a variable. -/
def coefficient (F : AffineForm) (j : Nat) : Rat :=
  Row.total ((F.terms.filter (·.1 == j)).map Prod.snd)

/-- The row of the form over `n` variables. -/
def toRow (n : Nat) (F : AffineForm) : Row := F.constant :: (List.range n).map F.coefficient

/-- Whether every term is in one of the first `n` variables. -/
def isWithin (n : Nat) (F : AffineForm) : Bool := F.terms.all (·.1 < n)

/-- The value at a point. -/
def value (F : AffineForm) (x : Row) : Rat :=
  F.constant + Row.total (F.terms.map fun t => t.2 * Row.entry x t.1)

@[simp] theorem length_toRow (n : Nat) (F : AffineForm) : (F.toRow n).length = n + 1 := by
  simp [toRow]

theorem coefficient_cons (c : Rat) (t : Nat × Rat) (ts : List (Nat × Rat)) (j : Nat) :
    coefficient ⟨c, t :: ts⟩ j = (if t.1 = j then t.2 else 0) + coefficient ⟨c, ts⟩ j := by
  unfold coefficient
  by_cases h : t.1 = j
  · simp only [List.filter_cons, h, beq_self_eq_true, if_true, List.map_cons, Row.total]
  · simp only [List.filter_cons, beq_eq_false_iff_ne.2 h, Bool.false_eq_true, if_false, h,
      Rat.zero_add]

theorem eval_toRow {n : Nat} {F : AffineForm} (h : F.isWithin n = true) (x : Row) :
    Row.eval (F.toRow n) x = F.value x := by
  obtain ⟨c, ts⟩ := F
  show c + Row.dot ((List.range n).map (coefficient ⟨c, ts⟩)) x = c + _
  congr 1
  induction ts with
  | nil => exact Row.dot_map_zero _ x
  | cons t ts ih =>
    have within : t.1 < n ∧ isWithin n ⟨c, ts⟩ = true := by simpa [isWithin] using h
    rw [funext (coefficient_cons c t ts), Row.dot_map_add, Row.dot_map_single within.1,
      ih within.2]
    rfl

end AffineForm

end Prevision
