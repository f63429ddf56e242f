import Prevision.Proofs.Polyhedron.Conversion
import Prevision.Proofs.Program.Forms
import Prevision.Reasoner

/-!
# Limits

The exact reasoner fails for want of pivots or rays only where the answer says
so (`Query.hitsLimit`). The enumerator finds the generators of a cone unless
there are too many rays (`Reasoner.run_converted_or_limit`).

* `Query.run_bind_ok`, `Query.run_bind_error`: a query goes on with an answer and passes a failure on;
* `Query.hitsLimit_of_bind`: a query that stays within the limits does so in its first part;
* `Query.resolve_limit`: within the limits, what holds unless there are too many rays holds;
* `Query.decided_of_fits`: a program whose optimum is asked for within the limits is decided.
-/

namespace Prevision

/-- Whether a failure is for want of pivots or rays. -/
def Error.isLimit : Error → Bool
  | .unsolved .undecided => true
  | .enumerationLimit _ => true
  | _ => false

/-- What holds of all larger limits in two cases holds so of both. -/
theorem exists_limit_and {P Q : ℕ → Prop} (first : ∃ limit, ∀ n ≥ limit, P n)
    (second : ∃ limit, ∀ n ≥ limit, Q n) :
    ∃ limit, ∀ n ≥ limit, P n ∧ Q n := by
  obtain ⟨limit, first⟩ := first
  obtain ⟨limit', second⟩ := second
  exact ⟨max limit limit',
    fun n le => ⟨first n ((le_max_left _ _).trans le), second n ((le_max_right _ _).trans le)⟩⟩

namespace Query

variable {α β : Type} {q : Query Id α} {next : α → Query Id β} {a : α} {e : Error}

/-- Whether a query fails for want of pivots or rays. -/
def hitsLimit (q : Query Id α) : Bool :=
  match show Except Error α from q.run with
  | .ok _ => false
  | .error e => e.isLimit

theorem run_bind_ok (h : q.run = .ok a) : (q >>= next).run = (next a).run := by
  show ExceptT.bindCont next q.run = _
  rw [h]
  rfl

theorem run_bind_error (h : q.run = .error e) : (q >>= next).run = .error e := by
  show ExceptT.bindCont next q.run = _
  rw [h]
  rfl

theorem not_isLimit (fits : q.hitsLimit = false) (h : q.run = .error e) : e.isLimit = false := by
  rwa [hitsLimit, h] at fits

theorem hitsLimit_of_bind (fits : (q >>= next).hitsLimit = false) : q.hitsLimit = false := by
  cases h : (show Except Error α from q.run) with
  | ok a => rw [hitsLimit, h]
  | error e =>
    rw [hitsLimit, h]
    exact not_isLimit fits (run_bind_error h)

theorem hitsLimit_congr {r : Query Id α} (h : q.run = r.run) : q.hitsLimit = r.hitsLimit := by
  rw [hitsLimit, hitsLimit, h]

/-- A program whose optimum is not missed for want of pivots is decided. -/
theorem decided_of_fits {p : LinearProgram} {maxPivots : Nat}
    (fits : (Query.optimum (m := Id) (Simplex.solve maxPivots) p).hitsLimit = false) :
    (Simplex.solve maxPivots p).status ≠ .undecided := fun undecided => by
  have failed : (Query.optimum (m := Id) (Simplex.solve maxPivots) p).run = .error (.unsolved .undecided) :=
    Solution.optimumOf_of_status undecided (by decide) p
  cases not_isLimit fits failed

theorem hitsLimit_of_bind_ok (fits : (q >>= next).hitsLimit = false) (h : q.run = .ok a) :
    (next a).hitsLimit = false := by
  rwa [hitsLimit, run_bind_ok h] at fits

/-- Within the limits there are not too many rays. -/
theorem resolve_limit {P : Prop} {maxRays : ℕ} (fits : q.hitsLimit = false)
    (either : P ∨ q.run = .error (.enumerationLimit maxRays)) : P :=
  either.resolve_right fun failed => nomatch not_isLimit fits failed

/-- A query with an answer had one in its first part. -/
theorem exists_run_of_bind {b : β} (h : (q >>= next).run = .ok b) :
    ∃ a, q.run = .ok a ∧ (next a).run = .ok b := by
  cases first : (show Except Error α from q.run) with
  | ok a => exact ⟨a, first, (run_bind_ok first).symm.trans h⟩
  | error e =>
    have failed : (q >>= next).run = .error e := run_bind_error first
    cases failed.symm.trans h

end Query

/-! ## Enumerations -/

open Enumeration (generators)

/-- A sound description is converted into what the generators of its cone stand for, or there are too
many rays. -/
theorem Reasoner.run_converted_or_limit (limits : Limits) {d : Description} (sound : d.fault? = none) :
    (∃ g, generators limits.maxRays d.width (DoubleDescription.constraints d) = .ok g ∧
      ((within limits).enumerator.converted d d.form.opposite).run = .ok (g.described d.form)) ∨
    ((within limits).enumerator.converted d d.form.opposite).run =
      .error (.enumerationLimit limits.maxRays) := by
  have asked : (ExceptT.mk ((within limits).enumerator.convert d) : Query Id Description).run =
      DoubleDescription.convert limits.maxRays d := rfl
  cases found : generators limits.maxRays d.width (DoubleDescription.constraints d) with
  | ok g =>
    refine .inl ⟨g, rfl,
      (Query.run_bind_ok (asked.trans (DoubleDescription.convert_eq sound found))).trans ?_⟩
    show (g.described d.form).expect d.form.opposite = _
    rw [Description.expect, if_pos (g.form_described d.form)]
  | error e =>
    exact .inr (Query.run_bind_error (asked.trans (DoubleDescription.convert_eq_limit sound found)))

end Prevision
