import Mathlib.Algebra.Order.BigOperators.Group.List
import Prevision.Proofs.Simplex.Artificials
import Prevision.Proofs.Simplex.Pivoting
import Prevision.Proofs.Simplex.StandardForm
import Prevision.Simplex.Solve

/-!
# What the answer to a program means

The two phases of the simplex method, each from what its run of pivots keeps
and where it ends.

* `Reached.withoutArtificials`, `Reached.not_feasible`: where the first phase ends,
  its tableau still has the feasible points as solutions, and if artificial columns
  are left over there are none;
* `not_better_of_stop`, `exists_better_of_escape`: what it means where the second
  phase stops, and where it escapes;
* `solve_sound`: every answer is `Sound`;
* `solve_answers`: the same, spelled out for each status.
-/

namespace Prevision

/-- Whether the first of two objective values is the better one. -/
def Sense.Better : Sense → Rat → Rat → Prop
  | maximize, a, b => b < a
  | minimize, a, b => a < b

/-- The value of the objective at a point. -/
def Objective.value (o : Objective) (x : Row) : Rat := Row.eval o.coefficients x

/-- What the statuses say about a program. -/
structure Solution.Sound (s : Solution) (p : LinearProgram) : Prop where
  feasible : s.status = .optimal → p.Feasible s.primal
  value : s.status = .optimal → s.value = p.objective.map (·.value s.primal)
  best : s.status = .optimal → ∀ o, p.objective = some o → ∀ x, p.Feasible x →
    ¬o.sense.Better (o.value x) (o.value s.primal)
  inconsistent : s.status = .inconsistent → ∀ x, ¬p.Feasible x
  unbounded : s.status = .unbounded → ∃ o, p.objective = some o ∧
    ∀ limit, ∃ x, p.Feasible x ∧ o.sense.Better (o.value x) limit

theorem Solution.sound_undecided (p : LinearProgram) : (failed .undecided).Sound p :=
  ⟨nofun, nofun, nofun, nofun, nofun⟩

namespace Simplex

open Tableau

variable {p : LinearProgram} {t : Tableau} {d : Row}

/-! ## Tableaux that stand for a program -/

theorem feasible_of_agrees (h : p.WellFormed) (agrees : t.Agrees (standardForm p)) {y : Row}
    (holds : t.Holds y) (nonneg : ∀ i, 0 ≤ Row.entry y i) (zero : t.NoArtificials y) :
    p.Feasible (differences p.variableCount y) :=
  have zero := agrees.noArtificials_iff.1 zero
  feasible_differences h ((agrees.holds y zero).1 holds) nonneg zero

theorem noArtificials_columnsOf (h : p.WellFormed) (agrees : t.Agrees (standardForm p)) {x : Row}
    (feasible : p.Feasible x) : t.NoArtificials (columnsOf p x) :=
  agrees.noArtificials_iff.2 fun _ _ => columnsOf_structural h feasible

theorem holds_of_agrees (h : p.WellFormed) (agrees : t.Agrees (standardForm p)) {x : Row}
    (feasible : p.Feasible x) : t.Holds (columnsOf p x) :=
  (agrees.holds _ fun _ _ => columnsOf_structural h feasible).2 (holds_columnsOf h feasible)

theorem structural_le_columns (agrees : t.Agrees (standardForm p)) : t.structural ≤ t.columns := by
  rw [agrees.structural, agrees.columns]
  exact Nat.le_add_right _ _

theorem two_mul_le_structural (agrees : t.Agrees (standardForm p)) :
    2 * p.variableCount ≤ t.structural := by
  rw [agrees.structural]
  exact Nat.le_add_right _ _

theorem primal_eq (bound : 2 * p.variableCount ≤ t.columns) :
    t.primal p.variableCount = differences p.variableCount t.point := by
  refine List.map_congr_left fun j hj => ?_
  have := List.mem_range.1 hj
  rw [entry_point (by omega), entry_point (by omega)]

theorem entry_point_nonneg (nonneg : ∀ l ∈ t.lines, 0 ≤ l.rhs) (canonical : t.Canonical) (i : Nat) :
    0 ≤ Row.entry t.point i := by
  refine Row.entry_nonneg (fun v hv => ?_) i
  obtain ⟨j, -, rfl⟩ := List.mem_map.1 hv
  by_cases basic : t.IsBasic j
  · obtain ⟨l, hl, rfl⟩ := basic
    rw [canonical.value_basic hl]
    exact nonneg l hl
  · exact (value_of_not_basic basic).ge

theorem noArtificials_point (basic : ∀ i, t.IsBasic i → i < t.structural) : t.NoArtificials t.point :=
  fun j hj structural => by
    rw [entry_point hj, value_of_not_basic fun h => absurd (basic j h) (not_lt.2 structural)]

/-- The basic solution of a tableau without artificial columns in its basis is feasible. -/
theorem feasible_primal (h : p.WellFormed) (agrees : t.Agrees (standardForm p)) (canonical : t.Canonical)
    (nonneg : ∀ l ∈ t.lines, 0 ≤ l.rhs) (basic : ∀ i, t.IsBasic i → i < t.structural) :
    p.Feasible (t.primal p.variableCount) := by
  rw [primal_eq ((two_mul_le_structural agrees).trans (structural_le_columns agrees))]
  exact feasible_of_agrees h agrees canonical.holds_point (entry_point_nonneg nonneg canonical)
    (noArtificials_point basic)

/-! ## The first phase -/

theorem length_phaseOneCosts (h : t.structural ≤ t.columns) :
    (phaseOneCosts t).length = t.columns := by
  rw [phaseOneCosts, List.length_append, Row.length_zero, List.length_replicate]
  omega

theorem entry_phaseOneCosts {i : Nat} (h : i < t.columns) :
    Row.entry (phaseOneCosts t) i = if t.structural ≤ i then -1 else 0 := by
  rw [phaseOneCosts]
  split
  · rename_i le
    rw [Row.entry_append_right (by rwa [Row.length_zero]), Row.length_zero,
      Row.entry_eq_getElem (by rw [List.length_replicate]; omega)]
    exact List.getElem_replicate _
  · rename_i lt
    rw [Row.entry_append_left (by rw [Row.length_zero]; omega), Row.entry_zero]

theorem dot_phaseOneCosts_of_noArtificials (h : t.structural ≤ t.columns) {y : Row}
    (zero : t.NoArtificials y) : Row.dot (phaseOneCosts t) y = 0 := by
  rw [Row.dot_eq_sum (length_phaseOneCosts h).le]
  refine Finset.sum_eq_zero fun i hi => ?_
  rw [entry_phaseOneCosts (Finset.mem_range.1 hi)]
  split
  · rename_i structural
    rw [zero i (Finset.mem_range.1 hi) structural, mul_zero]
  · rw [zero_mul]

theorem dot_phaseOneCosts_nonpos (h : t.structural ≤ t.columns) {y : Row}
    (nonneg : ∀ i, 0 ≤ Row.entry y i) : Row.dot (phaseOneCosts t) y ≤ 0 := by
  rw [Row.dot_eq_sum (length_phaseOneCosts h).le]
  refine Finset.sum_nonpos fun i hi => ?_
  rw [entry_phaseOneCosts (Finset.mem_range.1 hi)]
  split
  · linarith [nonneg i]
  · rw [zero_mul]

/-- At the basic solution the first phase's objective is minus what is left of the artificials. -/
theorem dot_phaseOneCosts_point (h : t.structural ≤ t.columns) (canonical : t.Canonical) :
    Row.dot (phaseOneCosts t) t.point = -t.artificialMass := by
  have spread : Row.dot (phaseOneCosts t) t.point =
      (t.lines.map fun l => (if t.structural ≤ l.basic then -1 else 0) * l.rhs).sum := by
    rw [canonical.dot_point (length_phaseOneCosts h)]
    exact congrArg List.sum (List.map_congr_left fun l hl => by
      rw [entry_phaseOneCosts (canonical.basic_lt l hl)])
  rw [spread, artificialMass, Row.total_eq_sum]
  induction t.lines with
  | nil => simp
  | cons l ls ih =>
    rw [List.map_cons, List.sum_cons, ih]
    by_cases artificial : t.structural ≤ l.basic
    · rw [if_pos artificial, List.filter_cons_of_pos (by simpa using artificial), List.map_cons,
        List.sum_cons]
      ring
    · rw [if_neg artificial, List.filter_cons_of_neg (by simpa using artificial), zero_mul, zero_add]

theorem rhs_le_artificialMass (nonneg : ∀ l ∈ t.lines, 0 ≤ l.rhs) {l : Line} (hl : l ∈ t.lines)
    (artificial : t.structural ≤ l.basic) : l.rhs ≤ t.artificialMass := by
  rw [artificialMass, Row.total_eq_sum]
  refine List.single_le_sum (fun v hv => ?_) _ (List.mem_map_of_mem (List.mem_filter.2 ⟨hl, by simpa⟩))
  obtain ⟨m, hm, rfl⟩ := List.mem_map.1 hv
  exact nonneg m (List.mem_filter.1 hm).1

/-- The start of the first phase. -/
theorem ready_standardForm (h : p.WellFormed) : (standardForm p).Ready
    (phaseOneCosts (standardForm p))
    ((standardForm p).reducedCosts (phaseOneCosts (standardForm p))) :=
  ⟨canonical_standardForm h, fun _ => rhs_nonneg_standardForm,
    (canonical_standardForm h).reduced_reducedCosts (length_phaseOneCosts (Nat.le_add_right _ _))⟩

/-- A tableau that the first phase can reach. -/
structure Reached (p : LinearProgram) (t : Tableau) (d : Row) : Prop where
  ready : t.Ready (phaseOneCosts (standardForm p)) d
  agrees : t.Agrees (standardForm p)

theorem Reached.of_run (h : p.WellFormed) {n : Nat}
    (run : Run (standardForm p).columns n (standardForm p)
      ((standardForm p).reducedCosts (phaseOneCosts (standardForm p))) t d) : Reached p t d := by
  obtain ⟨ready, columns, structural, holds, -⟩ := run.ready (ready_standardForm h) le_rfl
  exact ⟨ready, columns, structural, fun y _ => holds y⟩

theorem Reached.costs_eq (h : Reached p t d) : phaseOneCosts (standardForm p) = phaseOneCosts t := by
  rw [phaseOneCosts, phaseOneCosts, h.agrees.columns, h.agrees.structural]

/-- If the first phase ends with artificial columns left over, no point is feasible. -/
theorem Reached.not_feasible (h : p.WellFormed) (reached : Reached p t d)
    (stop : t.move d (standardForm p).columns = .stop) (mass : 0 < t.artificialMass) (x : Row) :
    ¬p.Feasible x := fun feasible => by
  have bound := structural_le_columns reached.agrees
  have le := reached.ready.le_of_stop stop (holds_of_agrees h reached.agrees feasible)
    (columnsOf_nonneg feasible) fun i hi out => absurd hi (not_lt.2 (reached.agrees.columns ▸ out))
  rw [reached.costs_eq, dot_phaseOneCosts_point bound reached.ready.canonical,
    dot_phaseOneCosts_of_noArtificials bound (noArtificials_columnsOf h reached.agrees feasible)] at le
  linarith

/-- If not, all artificial columns are zero. -/
theorem Reached.settled (reached : Reached p t d) (mass : ¬0 < t.artificialMass) : t.Settled :=
  ⟨reached.ready.canonical, reached.ready.nonneg, fun l hl artificial =>
    le_antisymm ((rhs_le_artificialMass reached.ready.nonneg hl artificial).trans (not_lt.1 mass))
      (reached.ready.nonneg l hl)⟩

/-- Then no artificial column need stay in the basis. -/
theorem Reached.withoutArtificials (reached : Reached p t d) (mass : ¬0 < t.artificialMass) :
    t.withoutArtificials.Settled ∧ t.withoutArtificials.Agrees (standardForm p) ∧
      ∀ i, t.withoutArtificials.IsBasic i → i < t.withoutArtificials.structural := by
  obtain ⟨settled, agrees, basic⟩ :=
    (reached.settled mass).withoutArtificials (structural_le_columns reached.agrees)
  refine ⟨settled, agrees.trans reached.agrees, ?_⟩
  rintro _ ⟨l, hl, rfl⟩
  rw [agrees.structural]
  exact basic l hl

/-! ## The second phase -/

variable {o : Objective}

/-- The sign that turns an objective into one to be maximized. -/
def sign : Sense → Rat
  | .maximize => 1
  | .minimize => -1

theorem better_iff (s : Sense) (a b : Rat) : s.Better a b ↔ 0 < sign s * (a - b) := by
  cases s
  · rw [Sense.Better, sign, one_mul, sub_pos]
  · rw [Sense.Better, sign, neg_one_mul, neg_sub, sub_pos]

theorem length_objective_tail (h : p.WellFormed) (some : p.objective = some o) :
    o.coefficients.tail.length = p.variableCount := by
  rw [List.length_tail, h.objective o some]
  rfl

theorem length_phaseTwoCosts (h : p.WellFormed) (agrees : t.Agrees (standardForm p))
    (some : p.objective = some o) : (phaseTwoCosts t o).length = t.columns := by
  have tail := length_objective_tail h some
  have := (two_mul_le_structural agrees).trans (structural_le_columns agrees)
  unfold phaseTwoCosts
  cases o.sense <;>
    simp only [List.length_append, Row.length_neg, Row.length_zero, tail] <;> omega

/-- The objective of the second phase is that of the program up to its constant and its sign. -/
theorem dot_phaseTwoCosts (h : p.WellFormed) (some : p.objective = some o) (t : Tableau) (y : Row) :
    Row.dot (phaseTwoCosts t o) y =
      sign o.sense * (o.value (differences p.variableCount y) - Row.entry o.coefficients 0) := by
  have tail := length_objective_tail h some
  have value : o.value (differences p.variableCount y) - Row.entry o.coefficients 0 =
      Row.dot o.coefficients.tail y - Row.dot o.coefficients.tail (y.drop p.variableCount) := by
    rw [Objective.value, Row.eval, add_sub_cancel_left, dot_differences tail]
  rw [value]
  unfold phaseTwoCosts
  cases o.sense <;>
    simp only [Row.dot_append_left, Row.dot_neg, Row.dot_zero, Row.length_neg, tail, sign] <;> ring

/-- The start of the second phase. -/
theorem ready_phaseTwo (h : p.WellFormed) (settled : t.Settled) (agrees : t.Agrees (standardForm p))
    (some : p.objective = some o) :
    t.Ready (phaseTwoCosts t o) (t.reducedCosts (phaseTwoCosts t o)) :=
  ⟨settled.canonical, settled.nonneg,
    settled.canonical.reduced_reducedCosts (length_phaseTwoCosts h agrees some)⟩

/-- Where the second phase stops, no feasible point is better. -/
theorem not_better_of_stop (h : p.WellFormed) (agrees : t.Agrees (standardForm p))
    (some : p.objective = some o)
    {start : Tableau} {d : Row} (ready : t.Ready (phaseTwoCosts start o) d)
    (stop : t.move d t.structural = .stop) {x : Row} (feasible : p.Feasible x) :
    ¬o.sense.Better (o.value x) (o.value (t.primal p.variableCount)) := by
  have le := ready.le_of_stop stop (holds_of_agrees h agrees feasible) (columnsOf_nonneg feasible)
    fun i hi out => noArtificials_columnsOf h agrees feasible i hi out
  rw [dot_phaseTwoCosts h some, dot_phaseTwoCosts h some, differences_columnsOf feasible,
    ← primal_eq ((two_mul_le_structural agrees).trans (structural_le_columns agrees))] at le
  rw [better_iff, not_lt]
  linarith

/-- Where the second phase escapes, feasible points are better than any limit. -/
theorem exists_better_of_escape (h : p.WellFormed) (agrees : t.Agrees (standardForm p))
    (some : p.objective = some o)
    (basic : ∀ i, t.IsBasic i → i < t.structural) {start : Tableau} {d : Row}
    (ready : t.Ready (phaseTwoCosts start o) d) (escape : t.move d t.structural = .escape) (limit : Rat) :
    ∃ x, p.Feasible x ∧ o.sense.Better (o.value x) limit := by
  obtain ⟨y, holds, nonneg, zero, lt⟩ := ready.exists_of_escape escape (structural_le_columns agrees) basic
    (sign o.sense * (limit - Row.entry o.coefficients 0))
  refine ⟨_, feasible_of_agrees h agrees holds nonneg fun j _ hj => zero j hj, ?_⟩
  rw [dot_phaseTwoCosts h some] at lt
  rw [better_iff]
  linarith

/-- What the second phase answers from a tableau that stands for the program. -/
theorem phaseTwo_sound (h : p.WellFormed) (settled : t.Settled) (agrees : t.Agrees (standardForm p))
    (basic : ∀ i, t.IsBasic i → i < t.structural) (budget : Nat) : (phaseTwo p t budget).Sound p := by
  rw [phaseTwo]
  split
  · rename_i none
    exact ⟨fun _ => feasible_primal h agrees settled.canonical settled.nonneg basic,
      fun _ => by rw [none]; rfl, fun _ o some => by simp [none] at some, nofun, nofun⟩
  · rename_i o some
    obtain ⟨n, -, t', d', run, outcome⟩ :=
      optimize_eq t.structural budget t (t.reducedCosts (phaseTwoCosts t o))
    obtain ⟨ready, columns, structural, holds, -, basic'⟩ :=
      run.ready (ready_phaseTwo h settled agrees some) (structural_le_columns agrees)
    have agrees' : t'.Agrees (standardForm p) :=
      Agrees.trans ⟨columns, structural, fun y _ => holds y⟩ agrees
    have basic'' : ∀ i, t'.IsBasic i → i < t'.structural := fun i hi => by
      rw [structural]
      exact (basic' i hi).elim (basic i) id
    have run_eq : t.maximize (phaseTwoCosts t o) t.structural budget =
        optimize t.structural budget t (t.reducedCosts (phaseTwoCosts t o)) := rfl
    rcases outcome with ⟨stop, eq⟩ | ⟨escape, eq⟩ | ⟨-, -, eq⟩
    · rw [run_eq, eq]
      rw [← structural] at stop
      refine ⟨fun _ => feasible_primal h agrees' ready.canonical ready.nonneg basic'',
        fun _ => by rw [some]; rfl, fun _ o' some' x feasible => ?_, nofun, nofun⟩
      obtain rfl := Option.some.inj (some.symm.trans some')
      exact not_better_of_stop h agrees' some ready stop feasible
    · rw [run_eq, eq]
      rw [← structural] at escape
      exact ⟨nofun, nofun, nofun, nofun, fun _ =>
        ⟨o, some, exists_better_of_escape h agrees' some basic'' ready escape⟩⟩
    · rw [run_eq, eq]
      exact Solution.sound_undecided p

/-! ## Both phases -/

theorem run_sound (h : p.WellFormed) (maxPivots : Nat) : (run maxPivots p).Sound p := by
  obtain ⟨n, -, t, d, pivots, outcome⟩ := optimize_eq (standardForm p).columns maxPivots
    (standardForm p) ((standardForm p).reducedCosts (phaseOneCosts (standardForm p)))
  have reached := Reached.of_run h pivots
  rw [run, maximize]
  rcases outcome with ⟨stop, eq⟩ | ⟨-, eq⟩ | ⟨-, -, eq⟩
  · simp only [eq]
    split
    · rename_i mass
      exact ⟨nofun, nofun, nofun, fun _ => reached.not_feasible h stop mass, nofun⟩
    · rename_i mass
      obtain ⟨settled, agrees, basic⟩ := reached.withoutArtificials mass
      exact phaseTwo_sound h settled agrees basic _
  · simp only [eq]
    exact Solution.sound_undecided p
  · simp only [eq]
    exact Solution.sound_undecided p

/-- Every answer says something true of the program. -/
theorem solve_sound (maxPivots : Nat) (p : LinearProgram) : (solve maxPivots p).Sound p := by
  rw [solve]
  split
  · exact Solution.sound_undecided p
  · rename_i valid
    exact run_sound (LinearProgram.fault?_eq_none_iff.1 (by simpa using valid)) maxPivots

/-- A program without objective is decided by a feasible point, or by there being none. -/
theorem status_of_no_objective {p : LinearProgram} (plain : p.objective = none) {maxPivots : Nat}
    (decided : (solve maxPivots p).status ≠ .undecided) :
    (solve maxPivots p).status = .optimal ∧ (∃ x, p.Feasible x) ∨
      (solve maxPivots p).status = .inconsistent ∧ ∀ x, ¬p.Feasible x := by
  have sound := solve_sound maxPivots p
  cases status : (solve maxPivots p).status with
  | optimal => exact .inl ⟨rfl, _, sound.feasible status⟩
  | inconsistent => exact .inr ⟨rfl, sound.inconsistent status⟩
  | unbounded =>
    obtain ⟨o, ho, -⟩ := sound.unbounded status
    rw [plain] at ho
    cases ho
  | undecided => exact absurd status decided

/-- An optimum is a feasible point with no better one, and comes with the value of the objective; an
inconsistent program has no feasible point; and an unbounded one has feasible points better than any
limit. -/
theorem solve_answers (maxPivots : Nat) (p : LinearProgram) :
    let s := solve maxPivots p
    (s.status = .optimal → p.Feasible s.primal ∧ s.value = p.objective.map (·.value s.primal) ∧
      ∀ o, p.objective = some o → ∀ x, p.Feasible x →
        ¬o.sense.Better (o.value x) (o.value s.primal)) ∧
    (s.status = .inconsistent → ¬∃ x, p.Feasible x) ∧
    (s.status = .unbounded → ∃ o, p.objective = some o ∧
      ∀ limit, ∃ x, p.Feasible x ∧ o.sense.Better (o.value x) limit) := by
  have sound := solve_sound maxPivots p
  refine ⟨fun optimal => ⟨sound.feasible optimal, sound.value optimal, sound.best optimal⟩,
    fun inconsistent => ?_, sound.unbounded⟩
  rintro ⟨x, feasible⟩
  exact sound.inconsistent inconsistent x feasible

end Simplex

end Prevision
