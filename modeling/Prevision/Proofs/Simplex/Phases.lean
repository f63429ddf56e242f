import Prevision.Proofs.Simplex.Decision

/-!
# What every state of a phase keeps

A `Phase` of a program is one of the two calls of the pivoting loop: from the
standard form, and from the tableau that the first phase leaves without
artificial columns. Whatever number of pivots is made in a phase, the tableau is
then canonical with a nonnegative basic solution, has the solutions it started
with, and comes with its own reduced costs, although these are only updated
(`Kept`, `phase_keeps`).

* `Ready.reducedCosts_eq`: a row that acts as the reduced costs is the row of the
  reduced costs;
* `Phase.ready`: a phase starts from a tableau that is ready for its objective.
-/

namespace Prevision.Tableau

variable {t : Tableau} {costs d : Row}

/-- The row that comes with a tableau is computed from its lines: raising a column by one brings
what either row says of it. -/
theorem Ready.reducedCosts_eq (h : t.Ready costs d) (width : costs.length = t.columns) :
    t.reducedCosts costs = d := by
  have computed := h.canonical.reduced_reducedCosts width
  refine Row.eq_of_entry (computed.width.trans h.reduced.width.symm) fun j hj => ?_
  rw [computed.width] at hj
  have told := h.dot_costs_raised hj 1
  have told' := Ready.dot_costs_raised ⟨h.canonical, h.nonneg, computed⟩ hj 1
  linarith

end Prevision.Tableau

namespace Prevision.Simplex

open Tableau

variable {p : LinearProgram} {first t : Tableau} {costs d : Row} {allowed n : Nat}

/-- The phases of a program: the tableau at the start, the objective to be maximized, and how many columns may
enter. -/
inductive Phase (p : LinearProgram) : Tableau → Row → Nat → Prop
  | first : Phase p (standardForm p) (phaseOneCosts (standardForm p)) (standardForm p).columns
  | second {n : Nat} {t : Tableau} {d : Row} {o : Objective} (ended : FirstPhase p n t d)
      (stop : t.move d (standardForm p).columns = .stop) (mass : ¬0 < t.artificialMass)
      (objective : p.objective = some o) :
      Phase p t.withoutArtificials (phaseTwoCosts t.withoutArtificials o) t.withoutArtificials.structural

/-- A phase starts from a tableau that is ready for its objective, with enough columns for those
that may enter. -/
theorem Phase.ready (h : p.WellFormed) (phase : Phase p first costs allowed) :
    first.Ready costs (first.reducedCosts costs) ∧ costs.length = first.columns ∧
    allowed ≤ first.columns := by
  cases phase with
  | first => exact ⟨ready_standardForm h, length_phaseOneCosts (Nat.le_add_right _ _), le_rfl⟩
  | second ended stop mass objective =>
    obtain ⟨settled, agrees, -⟩ := (Reached.of_run h ended).withoutArtificials mass
    exact ⟨ready_phaseTwo h settled agrees objective, length_phaseTwoCosts h agrees objective,
      structural_le_columns agrees⟩

/-- What every state of a phase keeps: a tableau, with the reduced costs that come with it. -/
structure Kept (first : Tableau) (costs : Row) (allowed : Nat) (t : Tableau) (d : Row) : Prop where
  nodup_basic : (t.lines.map Line.basic).Nodup
  unit_column : ∀ (i k : Nat) (l m : Line), t.lines[i]? = some l → t.lines[k]? = some m →
    m.entry l.basic = if k = i then 1 else 0
  rhs_nonneg : ∀ l ∈ t.lines, 0 ≤ l.rhs
  pivot_pos : ∀ r j, t.move d allowed = .pivot r j → ∃ line, t.lines[r]? = some line ∧ 0 < line.entry j
  holds_iff : ∀ y, t.Holds y ↔ first.Holds y
  reduced_eq : d = t.reducedCosts costs
  no_worse : ∀ m t' d', Run allowed m t d t' d' → Row.dot costs t.point ≤ Row.dot costs t'.point

/-- However many pivots are made from a ready tableau, it stays canonical. -/
theorem kept_of_run (ready : first.Ready costs (first.reducedCosts costs))
    (width : costs.length = first.columns)
    (bound : allowed ≤ first.columns) (run : Run allowed n first (first.reducedCosts costs) t d) :
    Kept first costs allowed t d := by
  obtain ⟨now, columns, -, holds, -, -⟩ := run.ready ready bound
  refine ⟨now.canonical.nodup_basic, fun i k l m at_i at_k => now.canonical.entry_basic_eq at_i at_k,
    now.nonneg,
    fun r j move => ?_, holds, (now.reducedCosts_eq (width.trans columns.symm)).symm, fun m t' d' later => ?_⟩
  · obtain ⟨line, choice⟩ := move_eq_pivot move
    exact ⟨line, choice.at_row, choice.positive⟩
  · obtain ⟨-, -, -, -, le, -⟩ := later.ready now (columns ▸ bound)
    exact le

/-- In every state that pivots reach in a phase of a valid program, the tableau is canonical with
nonnegative right-hand sides and the solutions it started with, the next pivot is on a positive
coefficient, the updated reduced costs are those of the tableau, and no later state has a worse
basic solution. -/
theorem phase_keeps (valid : p.fault? = none) (phase : Phase p first costs allowed)
    (run : Run allowed n first (first.reducedCosts costs) t d) :
    (∀ budget, first.maximize costs allowed (n + budget) = optimize allowed budget t d) ∧
      Kept first costs allowed t d := by
  obtain ⟨ready, width, bound⟩ := phase.ready (LinearProgram.fault?_eq_none_iff.1 valid)
  exact ⟨fun budget => optimize_run run budget, kept_of_run ready width bound run⟩

/-- To be as low as possible between zero and one: the first phase ends at one. -/
def lowest : LinearProgram where
  rows := [[0, 1], [1, -1]]
  equalities := ∅
  objective := some ⟨.minimize, [0, 1]⟩

theorem phase_keeps_lowest :
    let first := (((standardForm lowest).pivot 0 0).pivot 1 2).withoutArtificials
    let costs := phaseTwoCosts first ⟨.minimize, [0, 1]⟩
    let last := (first.pivot 0 3).pivot 1 1
    lowest.fault? = none ∧ Phase lowest first costs first.structural ∧
      ∃ d, Run first.structural 2 first (first.reducedCosts costs) last d ∧
        (∀ budget, first.maximize costs first.structural (2 + budget) =
          optimize first.structural budget last d) ∧
          Kept first costs first.structural last d := by
  intro first costs last
  have valid : lowest.fault? = none := by decide +kernel
  have ended : FirstPhase lowest 2 (((standardForm lowest).pivot 0 0).pivot 1 2) _ :=
    .step (r := 0) (j := 0) (by decide +kernel) (.step (r := 1) (j := 2) (by decide +kernel) (.refl _ _))
  have phase : Phase lowest first costs first.structural :=
    .second ended (by decide +kernel) (by decide +kernel) rfl
  have run : Run first.structural 2 first (first.reducedCosts costs) last _ :=
    .step (r := 0) (j := 3) (by decide +kernel) (.step (r := 1) (j := 1) (by decide +kernel) (.refl _ _))
  exact ⟨valid, phase, _, run, phase_keeps valid phase run⟩

end Prevision.Simplex
