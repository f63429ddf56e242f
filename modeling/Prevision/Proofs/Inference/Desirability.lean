import Prevision.Proofs.Inference.ConeStrip
import Prevision.Proofs.Inference.Limits
import Prevision.Proofs.Simplex.Budget

/-!
# Answers about desirability

A gamble is asked about by its opposite cones: those of the assessments and the
indicators of states. With enough pivots the answer is whether some selection of
these is exact (`exists_isDesirable`). An answer within fewer pivots is the same,
as the rounds are (`ConeStrip.strip_eq_of_le`), so it is right with any number of
them (`isDesirable_eq_iff`).
-/

namespace Prevision

variable {σ : Type} [State σ] {maxPivots morePivots : Nat}

/-- Within more pivots, the rounds are the same. -/
theorem ConeStrip.Run.of_le {states : SortedSet σ} {target : Option (Gamble σ)} {active : List (Cone σ)}
    {r : Except Error (Option (Witness σ))} (run : Run (Simplex.solve maxPivots) states target active r)
    (decided : r ≠ .error (.unsolved .undecided)) (le : maxPivots ≤ morePivots) :
    Run (Simplex.solve morePivots) states target active r := by
  induction run with
  | empty => exact .empty
  | inconsistent some_cone solved =>
    exact .inconsistent some_cone (Simplex.optimumOf_eq_of_le solved nofun le)
  | failed some_cone other solved =>
    refine .failed some_cone other (Simplex.optimumOf_eq_of_le solved (fun undecided => decided ?_) le)
    rw [Except.error.inj undecided]
  | done some_cone solved stray => exact .done some_cone (Simplex.optimumOf_eq_of_le solved nofun le) stray
  | next some_cone solved stray _ ih =>
    exact .next some_cone (Simplex.optimumOf_eq_of_le solved nofun le) stray (ih decided)

theorem ConeStrip.strip_eq_of_le {states : SortedSet σ} {target : Option (Gamble σ)} {active : List (Cone σ)}
    (fits : (strip (m := Id) (Simplex.solve maxPivots) states target active).hitsLimit = false)
    (le : maxPivots ≤ morePivots) : (strip (m := Id) (Simplex.solve morePivots) states target active).run =
      (strip (m := Id) (Simplex.solve maxPivots) states target active).run := by
  refine ((run_strip (Simplex.solve maxPivots) states target active).of_le (fun undecided => ?_) le).eq
  cases Query.not_isLimit fits undecided

namespace DesirabilitySet

variable {D : DesirabilitySet σ} {f : Gamble σ} {b : Bool}

/-- The assessed cones, and those of the indicators of the states in question. -/
def conesFor (D : DesirabilitySet σ) (f : Gamble σ) : List (Cone σ) :=
  D.cones.toList ++ (vacuous (D.domain ∪ f.domain)).cones.toList

/-- A gamble as a target, none if it is zero. -/
def targetOf (f : Gamble σ) : Option (Gamble σ) := if f.isZero then none else some f

theorem isDesirable_run (solve : LinearProgram → Solution) (D : DesirabilitySet σ) (f : Gamble σ) :
    (D.isDesirable (m := Id) solve f).run =
      match (ConeStrip.feasible (m := Id) solve (D.conesFor f) (targetOf f)).run with
      | .error e => .error e
      | .ok answer => .ok answer.isSome := by
  show ExceptT.bindCont _ (ConeStrip.feasible (m := Id) solve (D.conesFor f) (targetOf f)).run = _
  cases (ConeStrip.feasible (m := Id) solve (D.conesFor f) (targetOf f)).run <;> rfl

/-- With enough pivots, a gamble is desirable exactly if some selection is exact. -/
theorem exists_isDesirable (D : DesirabilitySet σ) (f : Gamble σ) : ∃ limit answer,
    (∀ maxPivots ≥ limit, (D.isDesirable (m := Id) (Simplex.solve maxPivots) f).run = .ok answer) ∧
      (answer = true ↔ ∃ s : Selection (D.conesFor f), s.Exact (targetOf f)) := by
  obtain ⟨limit, answer, answers, decides⟩ := ConeStrip.exists_limit_feasible (D.conesFor f) (targetOf f)
  refine ⟨limit, answer.isSome, fun maxPivots le => ?_, decides.isSome_iff⟩
  rw [isDesirable_run, answers maxPivots le]

theorem isDesirable_eq_of_le (answered : (D.isDesirable (m := Id) (Simplex.solve maxPivots) f).run = .ok b)
    (le : maxPivots ≤ morePivots) : (D.isDesirable (m := Id) (Simplex.solve morePivots) f).run = .ok b := by
  have fits : (D.isDesirable (m := Id) (Simplex.solve maxPivots) f).hitsLimit = false := by
    rw [Query.hitsLimit, answered]
  have same : (ConeStrip.feasible (m := Id) (Simplex.solve morePivots) (D.conesFor f) (targetOf f)).run =
      (ConeStrip.feasible (m := Id) (Simplex.solve maxPivots) (D.conesFor f) (targetOf f)).run :=
    ConeStrip.strip_eq_of_le (Query.hitsLimit_of_bind fits) le
  rw [← answered, isDesirable_run, isDesirable_run, same]

/-- Any answer is right. -/
theorem isDesirable_eq_iff (answered : (D.isDesirable (m := Id) (Simplex.solve maxPivots) f).run = .ok b) :
    b = true ↔ ∃ s : Selection (D.conesFor f), s.Exact (targetOf f) := by
  obtain ⟨limit, answer, answers, decides⟩ := exists_isDesirable D f
  have later := isDesirable_eq_of_le answered (le_max_left maxPivots limit)
  cases later.symm.trans (answers _ (le_max_right maxPivots limit))
  exact decides

end DesirabilitySet

end Prevision
