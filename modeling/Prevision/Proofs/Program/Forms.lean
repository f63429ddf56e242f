import Prevision.Inference.Query
import Prevision.Program.AffineForm
import Prevision.Proofs.Simplex.Decision

/-!
# Programs of affine forms

A program whose rows lay out affine forms asks for a point where some of the
forms are zero and the others at least zero (`LinearProgram.Poses`), and may
maximize the sum of some terms (`LinearProgram.Maximizes`).

* `Poses.feasible_iff`: its feasible points, by the values of the forms;
* `Maximizes.isOptimal_iff`: its optimal points, whatever solver finds them;
* `Maximizes.outcome`: what an answer of the solver says, unless the pivots ran out;
* `Maximizes.exists_answer`: if the sum is bounded on these, then enough pivots
  find a feasible point where it is greatest, or find that there is none.
-/

namespace Prevision

namespace AffineForm

/-- The value of a sum of terms. -/
def sumTerms (terms : List (Nat × Rat)) (x : Row) : Rat := (terms.map fun t => t.2 * Row.entry x t.1).sum

theorem value_eq (F : AffineForm) (x : Row) : F.value x = F.constant + sumTerms F.terms x := by
  rw [value, Row.total_eq_sum]
  rfl

@[simp] theorem sumTerms_nil (x : Row) : sumTerms [] x = 0 := rfl

@[simp] theorem sumTerms_cons (t : Nat × Rat) (ts : List (Nat × Rat)) (x : Row) :
    sumTerms (t :: ts) x = t.2 * Row.entry x t.1 + sumTerms ts x := by
  rw [sumTerms, List.map_cons, List.sum_cons]
  rfl

@[simp] theorem sumTerms_append (ts us : List (Nat × Rat)) (x : Row) :
    sumTerms (ts ++ us) x = sumTerms ts x + sumTerms us x := by
  rw [sumTerms, List.map_append, List.sum_append]
  rfl

theorem sumTerms_flatMap {α : Type} (l : List α) (f : α → List (Nat × Rat)) (x : Row) :
    sumTerms (l.flatMap f) x = (l.map fun a => sumTerms (f a) x).sum := by
  induction l with
  | nil => rfl
  | cons a l ih => rw [List.flatMap_cons, sumTerms_append, ih, List.map_cons, List.sum_cons]

theorem value_single (c a : Rat) (v : Nat) (x : Row) :
    (⟨c, [(v, a)]⟩ : AffineForm).value x = c + a * Row.entry x v := by
  rw [value_eq, sumTerms_cons, sumTerms_nil, add_zero]

theorem isWithin_iff {n : Nat} {F : AffineForm} : F.isWithin n = true ↔ ∀ t ∈ F.terms, t.1 < n := by
  simp [isWithin]

end AffineForm

/-- Any status but an optimum is an error. -/
theorem Solution.optimumOf_of_status {s : Solution} {status : Status} (h : s.status = status)
    (ne : status ≠ .optimal) (p : LinearProgram) : s.optimumOf p = .error (.unsolved status) := by
  rw [optimumOf, optimum, h]
  cases status with
  | optimal => exact absurd rfl ne
  | inconsistent => rfl
  | unbounded => rfl
  | undecided => rfl

/-- What a query goes on to do with an optimum. -/
theorem Query.run_optimum_bind {α : Type} (solve : LinearProgram → Solution) (p : LinearProgram)
    (next : Solution → Query Id α) : (Query.optimum (m := Id) solve p >>= next).run =
      match (solve p).optimumOf p with
      | .error e => .error e
      | .ok s => (next s).run := by
  show ExceptT.bindCont next ((solve p).optimumOf p) = _
  cases (solve p).optimumOf p <;> rfl

namespace LinearProgram

variable {p : LinearProgram} {n : Nat} {zero nonneg : List AffineForm} {terms : List (Nat × Rat)}

/-- A feasible point such that no feasible point has a better objective. -/
structure IsOptimal (p : LinearProgram) (x : Row) : Prop where
  feasible : p.Feasible x
  best : ∀ o, p.objective = some o → ∀ y, p.Feasible y → ¬o.sense.Better (o.value y) (o.value x)

/-- The point of an optimum is optimal. -/
theorem isOptimal_of_status {maxPivots : Nat} (optimal : (Simplex.solve maxPivots p).status = .optimal) :
    p.IsOptimal (Simplex.solve maxPivots p).primal :=
  have sound := Simplex.solve_sound maxPivots p
  ⟨sound.feasible optimal, sound.best optimal⟩

/-- The program asks for a point with `n` entries where the forms in `zero` are zero and those in `nonneg`
are at least zero. -/
structure Poses (p : LinearProgram) (n : Nat) (zero nonneg : List AffineForm) : Prop where
  rows : p.rows = (zero ++ nonneg).map (AffineForm.toRow n)
  some_row : zero ++ nonneg ≠ []
  equalities : p.equalities = .ofList (List.range zero.length)
  within : ∀ F ∈ zero ++ nonneg, F.isWithin n = true

namespace Poses

theorem variableCount (h : p.Poses n zero nonneg) : p.variableCount = n := by
  rw [LinearProgram.variableCount, h.rows]
  obtain ⟨F, rest, shape⟩ := List.exists_cons_of_ne_nil h.some_row
  rw [shape, List.map_cons]
  simp

theorem wellFormed (h : p.Poses n zero nonneg)
    (objective : ∀ o, p.objective = some o → o.coefficients.length = n + 1) : p.WellFormed := by
  refine ⟨fun row hr => ?_, fun o ho => ?_, fun i hi => ?_⟩
  · rw [h.rows] at hr
    obtain ⟨F, -, rfl⟩ := List.mem_map.1 hr
    rw [AffineForm.length_toRow, h.variableCount]
  · rw [objective o ho, h.variableCount]
  · rw [h.equalities, SortedSet.mem_ofList, List.mem_range] at hi
    rw [h.rows, List.length_map, List.length_append]
    omega

/-- The feasible points, by the values of the forms. -/
theorem feasible_iff (h : p.Poses n zero nonneg) {x : Row} :
    p.Feasible x ↔ x.length = n ∧ (∀ F ∈ zero, F.value x = 0) ∧ ∀ F ∈ nonneg, 0 ≤ F.value x := by
  have value {F : AffineForm} (hF : F ∈ zero ++ nonneg) : Row.eval (F.toRow n) x = F.value x :=
    AffineForm.eval_toRow (h.within F hF) x
  have equality (i : Nat) : i ∈ p.equalities ↔ i < zero.length := by
    rw [h.equalities, SortedSet.mem_ofList, List.mem_range]
  rw [Feasible, h.variableCount, h.rows]
  refine and_congr_right fun _ =>
    ⟨fun holds => ⟨fun F hF => ?_, fun F hF => ?_⟩, fun ⟨zeros, signs⟩ i row at_i => ?_⟩
  · obtain ⟨i, at_i⟩ := List.mem_iff_getElem?.1 hF
    have lt := (List.getElem?_eq_some_iff.1 at_i).1
    have sat := holds i (F.toRow n) (by rw [List.getElem?_map, List.getElem?_append_left lt, at_i]; rfl)
    rwa [Holds, if_pos ((equality i).2 lt), value (List.mem_append_left _ hF)] at sat
  · obtain ⟨i, at_i⟩ := List.mem_iff_getElem?.1 hF
    have sat := holds (zero.length + i) (F.toRow n)
      (by rw [List.getElem?_map, List.getElem?_append_right (Nat.le_add_right _ _), Nat.add_sub_cancel_left,
            at_i]; rfl)
    rwa [Holds, if_neg (by rw [equality]; omega), value (List.mem_append_right _ hF)] at sat
  · rw [List.getElem?_map, Option.map_eq_some_iff] at at_i
    obtain ⟨F, at_i, rfl⟩ := at_i
    rw [Holds, value (List.mem_of_getElem? at_i)]
    split
    · rename_i eq
      rw [List.getElem?_append_left ((equality i).1 eq)] at at_i
      exact zeros F (List.mem_of_getElem? at_i)
    · rename_i ineq
      rw [List.getElem?_append_right (by rw [equality] at ineq; omega)] at at_i
      exact signs F (List.mem_of_getElem? at_i)

end Poses

/-- The program maximizes the sum of the terms over the points with `n` entries where the forms in
`zero` are zero and those in `nonneg` are at least zero. -/
structure Maximizes (p : LinearProgram) (n : Nat) (zero nonneg : List AffineForm)
    (terms : List (Nat × Rat)) : Prop where
  rows : p.rows = (zero ++ nonneg).map (AffineForm.toRow n)
  some_row : zero ++ nonneg ≠ []
  equalities : p.equalities = .ofList (List.range zero.length)
  objective : p.objective = some ⟨.maximize, AffineForm.toRow n ⟨0, terms⟩⟩
  within : ∀ F ∈ zero ++ nonneg, F.isWithin n = true
  terms_within : AffineForm.isWithin n ⟨0, terms⟩ = true

namespace Maximizes

theorem poses (h : p.Maximizes n zero nonneg terms) : p.Poses n zero nonneg :=
  ⟨h.rows, h.some_row, h.equalities, h.within⟩

theorem variableCount (h : p.Maximizes n zero nonneg terms) : p.variableCount = n := h.poses.variableCount

theorem wellFormed (h : p.Maximizes n zero nonneg terms) : p.WellFormed := by
  refine h.poses.wellFormed fun o ho => ?_
  rw [h.objective] at ho
  cases ho
  exact AffineForm.length_toRow n _

theorem feasible_iff (h : p.Maximizes n zero nonneg terms) {x : Row} :
    p.Feasible x ↔ x.length = n ∧ (∀ F ∈ zero, F.value x = 0) ∧ ∀ F ∈ nonneg, 0 ≤ F.value x :=
  h.poses.feasible_iff

/-- A feasible point where the sum is greatest. -/
structure Optimal (p : LinearProgram) (terms : List (Nat × Rat)) (s : Solution) : Prop where
  accepted : s.optimumOf p = .ok s
  feasible : p.Feasible s.primal
  best : ∀ x, p.Feasible x → AffineForm.sumTerms terms x ≤ AffineForm.sumTerms terms s.primal

/-- What a solution that is not undecided says of its program. -/
inductive Outcome (p : LinearProgram) (terms : List (Nat × Rat)) (s : Solution) : Prop
  | optimal : Optimal p terms s → s.value = some (AffineForm.sumTerms terms s.primal) → Outcome p terms s
  | inconsistent : s.optimumOf p = .error (.unsolved .inconsistent) → (∀ x, ¬p.Feasible x) → Outcome p terms s
  | unbounded : s.optimumOf p = .error (.unsolved .unbounded) →
      (∀ bound, ∃ x, p.Feasible x ∧ bound < AffineForm.sumTerms terms x) → Outcome p terms s

/-- The objective is the sum of the terms. -/
theorem value_objective (h : p.Maximizes n zero nonneg terms) (x : Row) :
    (⟨.maximize, AffineForm.toRow n ⟨0, terms⟩⟩ : Objective).value x = AffineForm.sumTerms terms x := by
  rw [Objective.value, AffineForm.eval_toRow h.terms_within, AffineForm.value_eq, zero_add]

theorem isOptimal_iff (h : p.Maximizes n zero nonneg terms) {x : Row} : p.IsOptimal x ↔
    p.Feasible x ∧ ∀ y, p.Feasible y → AffineForm.sumTerms terms y ≤ AffineForm.sumTerms terms x := by
  constructor
  · refine fun optimal => ⟨optimal.feasible, fun y hy => ?_⟩
    have := optimal.best _ h.objective y hy
    rw [h.value_objective, h.value_objective] at this
    exact not_lt.1 this
  · rintro ⟨feasible, best⟩
    refine ⟨feasible, fun o ho y hy => ?_⟩
    obtain rfl := Option.some.inj (h.objective.symm.trans ho)
    rw [h.value_objective, h.value_objective]
    exact not_lt.2 (best y hy)

theorem outcome (h : p.Maximizes n zero nonneg terms) {maxPivots : Nat}
    (decided : (Simplex.solve maxPivots p).status ≠ .undecided) :
    Outcome p terms (Simplex.solve maxPivots p) := by
  have sound := Simplex.solve_sound maxPivots p
  generalize Simplex.solve maxPivots p = s at decided sound
  have value := h.value_objective
  cases status : s.status with
  | optimal =>
    have feasible := sound.feasible status
    refine .optimal ⟨?_, feasible, fun x hx => ?_⟩ ?_
    · rw [Solution.optimumOf, Solution.optimum, status]
      exact if_pos feasible.1
    · have := sound.best status _ h.objective x hx
      rw [value, value] at this
      exact not_lt.1 this
    · rw [sound.value status, h.objective, Option.map_some, value]
  | inconsistent =>
    exact .inconsistent (Solution.optimumOf_of_status status (by decide) p) (sound.inconsistent status)
  | unbounded =>
    obtain ⟨o, ho, beyond⟩ := sound.unbounded status
    rw [h.objective] at ho
    cases ho
    refine .unbounded (Solution.optimumOf_of_status status (by decide) p) fun bound => ?_
    obtain ⟨x, hx, better⟩ := beyond bound
    rw [value] at better
    exact ⟨x, hx, better⟩
  | undecided => exact absurd status decided

/-- With enough pivots, a bounded program has an optimum or is found to be inconsistent. -/
theorem exists_answer (h : p.Maximizes n zero nonneg terms)
    (bounded : ∃ bound, ∀ x, p.Feasible x → AffineForm.sumTerms terms x ≤ bound) :
    ∃ limit s, (∀ maxPivots ≥ limit, Simplex.solve maxPivots p = s) ∧
      (Optimal p terms s ∨
        s.optimumOf p = .error (.unsolved .inconsistent) ∧ ∀ x, ¬p.Feasible x) := by
  obtain ⟨limit, s, decided, eq⟩ := Simplex.exists_decided h.wellFormed
  refine ⟨limit, s, eq, ?_⟩
  have outcome : Outcome p terms (Simplex.solve limit p) := h.outcome (by rwa [eq limit le_rfl])
  rw [eq limit le_rfl] at outcome
  cases outcome with
  | optimal optimal _ => exact .inl optimal
  | inconsistent failed none => exact .inr ⟨failed, none⟩
  | unbounded _ beyond =>
    obtain ⟨bound, le⟩ := bounded
    obtain ⟨x, hx, better⟩ := beyond bound
    exact absurd better (not_lt.2 (le x hx))

end Maximizes

end LinearProgram

end Prevision
