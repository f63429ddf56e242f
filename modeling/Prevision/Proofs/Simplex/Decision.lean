import Prevision.Proofs.Simplex.Soundness
import Prevision.Proofs.Simplex.Termination

/-!
# Enough pivots decide a program

Both phases end, so some number of pivots decides a well-formed program, and
more of them do not change the answer (`exists_decided`). A program stays
undecided only if its pivots are spent in one of the phases while another one
is due (`OutOfPivots`, `outOfPivots_of_undecided`); the first phase never escapes.
-/

namespace Prevision.Simplex

open Tableau

variable {p : LinearProgram} {t : Tableau} {o : Objective}

/-- The first phase cannot go on without end, since its objective is never positive. -/
theorem Reached.not_escape {d : Row} (reached : Reached p t d) :
    t.move d (standardForm p).columns ≠ .escape := fun escape => by
  have columns := reached.agrees.columns
  obtain ⟨y, -, nonneg, -, lt⟩ := reached.ready.exists_of_escape escape columns.ge
    (fun i ⟨l, hl, basic⟩ => basic ▸ columns ▸ reached.ready.canonical.basic_lt l hl) 0
  rw [reached.costs_eq] at lt
  exact absurd lt (not_lt.2 (dot_phaseOneCosts_nonpos (structural_le_columns reached.agrees) nonneg))

/-- Some number of pivots is enough for the second phase. -/
theorem exists_phaseTwo_decided (h : p.WellFormed) (settled : t.Settled)
    (agrees : t.Agrees (standardForm p)) :
    ∃ limit s, s.status ≠ .undecided ∧ ∀ budget, phaseTwo p t (limit + budget) = s := by
  cases objective : p.objective with
  | none =>
    refine ⟨0, ⟨.optimal, none, t.primal p.variableCount⟩, by rintro ⟨⟩, fun budget => ?_⟩
    rw [phaseTwo, objective]
  | some o =>
    obtain ⟨limit, t', d', n, -, -, outcome⟩ :=
      (ready_phaseTwo h settled agrees objective).exists_budget (structural_le_columns agrees)
    rcases outcome with ⟨-, eq⟩ | ⟨-, eq⟩
    · refine ⟨limit, ⟨.optimal, some (o.value (t'.primal p.variableCount)),
        t'.primal p.variableCount⟩, by rintro ⟨⟩, fun budget => ?_⟩
      rw [phaseTwo, objective]
      simp only [maximize, eq]
      rfl
    · refine ⟨limit, .failed .unbounded, by rintro ⟨⟩, fun budget => ?_⟩
      rw [phaseTwo, objective]
      simp only [maximize, eq]

/-- Some number of pivots decides a program, and with more of them the answer is the same. -/
theorem exists_decided (h : p.WellFormed) :
    ∃ limit s, s.status ≠ .undecided ∧ ∀ maxPivots ≥ limit, solve maxPivots p = s := by
  have valid : p.fault?.isSome = false := by
    rw [LinearProgram.fault?_eq_none_iff.2 h]
    rfl
  obtain ⟨limit, t, d, n, -, pivots, outcome⟩ := (ready_standardForm h).exists_budget le_rfl
  have reached := Reached.of_run h pivots
  rcases outcome with ⟨stop, eq⟩ | ⟨escape, -⟩
  · by_cases mass : 0 < t.artificialMass
    · refine ⟨limit, .failed .inconsistent, by rintro ⟨⟩, fun maxPivots le => ?_⟩
      obtain ⟨budget, rfl⟩ := Nat.exists_eq_add_of_le le
      simp only [solve, valid, run, maximize, eq, mass, Bool.false_eq_true, if_false, if_true]
    · obtain ⟨settled, agrees, basic⟩ := reached.withoutArtificials mass
      obtain ⟨limit', s, decided, eq'⟩ := exists_phaseTwo_decided h settled agrees
      refine ⟨limit + limit', s, decided, fun maxPivots le => ?_⟩
      obtain ⟨budget, rfl⟩ := Nat.exists_eq_add_of_le le
      rw [Nat.add_assoc]
      simp only [solve, valid, run, maximize, eq, mass, Bool.false_eq_true, if_false]
      rw [show limit - n + (limit' + budget) = limit' + (limit - n + budget) by omega, eq']
  · exact absurd escape (reached.not_escape)

/-- `n` pivots of the first phase lead to the tableau `t` with reduced costs `d`. -/
def FirstPhase (p : LinearProgram) (n : Nat) (t : Tableau) (d : Row) : Prop :=
  Run (standardForm p).columns n (standardForm p)
    ((standardForm p).reducedCosts (phaseOneCosts (standardForm p))) t d

/-- `n` pivots of the second phase, which starts from `start`, lead to the tableau `t` with reduced
costs `d`. -/
def SecondPhase (start : Tableau) (o : Objective) (n : Nat) (t : Tableau) (d : Row) : Prop :=
  Run start.structural n start (start.reducedCosts (phaseTwoCosts start o)) t d

/-- All pivots that are allowed are made, and one more is due: in the first phase, or in the second
after the first has ended without artificial columns left over. -/
inductive OutOfPivots (p : LinearProgram) (maxPivots : Nat) : Prop
  | first {t : Tableau} {d : Row} (spent : FirstPhase p maxPivots t d)
      (due : ∃ r j, t.move d (standardForm p).columns = .pivot r j) : OutOfPivots p maxPivots
  | second {n m : Nat} {t t' : Tableau} {d d' : Row} {o : Objective} (ended : FirstPhase p n t d)
      (stop : t.move d (standardForm p).columns = .stop) (mass : ¬0 < t.artificialMass)
      (objective : p.objective = some o) (spent : SecondPhase t.withoutArtificials o m t' d')
      (all : n + m = maxPivots)
      (due : ∃ r j, t'.move d' t.withoutArtificials.structural = .pivot r j) : OutOfPivots p maxPivots

theorem run_eq (valid : p.fault? = none) (maxPivots : Nat) : solve maxPivots p = run maxPivots p := by
  rw [solve, valid]
  rfl

/-- A run that has made all its pivots while another is due is exhausted. -/
theorem optimize_exhausted {n allowed : Nat} {t t' : Tableau} {d d' : Row} (run : Run allowed n t d t' d')
    (due : ∃ r j, t'.move d' allowed = .pivot r j) : optimize allowed n t d = .exhausted := by
  obtain ⟨r, j, due⟩ := due
  rw [← Nat.add_zero n, optimize_run run, optimize, due]

theorem optimize_stopped {n allowed : Nat} {t t' : Tableau} {d d' : Row} (run : Run allowed n t d t' d')
    (stop : t'.move d' allowed = .stop) (left : Nat) :
    optimize allowed (n + left) t d = .optimal t' left := by
  rw [optimize_run run, optimize, stop]

theorem OutOfPivots.status_eq {maxPivots : Nat} (h : OutOfPivots p maxPivots) :
    (run maxPivots p).status = .undecided := by
  cases h with
  | first spent due =>
    rw [run, maximize, optimize_exhausted spent due]
    rfl
  | second ended stop mass objective spent all due =>
    subst all
    rw [run, maximize, optimize_stopped ended stop]
    simp only [mass, if_false, phaseTwo, objective, maximize]
    rw [optimize_exhausted spent due]
    rfl

/-- The second phase is undecided only if its pivots are spent. -/
theorem exists_secondPhase {budget : Nat} (undecided : (phaseTwo p t budget).status = .undecided) :
    ∃ o t' d', p.objective = some o ∧ SecondPhase t o budget t' d' ∧
      ∃ r j, t'.move d' t.structural = .pivot r j := by
  unfold phaseTwo at undecided
  split at undecided
  · cases undecided
  · rename_i o objective
    obtain ⟨n, -, t', d', pivots, outcome⟩ :=
      optimize_eq t.structural budget t (t.reducedCosts (phaseTwoCosts t o))
    rw [maximize] at undecided
    rcases outcome with ⟨-, eq⟩ | ⟨-, eq⟩ | ⟨rfl, due, -⟩
    · rw [eq] at undecided
      cases undecided
    · rw [eq] at undecided
      cases undecided
    · exact ⟨o, t', d', objective, pivots, due⟩

/-- The first phase of a well-formed program never escapes. -/
theorem maximize_phaseOne_ne_unbounded (h : p.WellFormed) (maxPivots : Nat) :
    (standardForm p).maximize (phaseOneCosts (standardForm p)) (standardForm p).columns maxPivots ≠
      .unbounded := by
  obtain ⟨n, -, t, d, pivots, outcome⟩ := optimize_eq (standardForm p).columns maxPivots
    (standardForm p) ((standardForm p).reducedCosts (phaseOneCosts (standardForm p)))
  rw [maximize]
  rcases outcome with ⟨-, eq⟩ | ⟨escape, -⟩ | ⟨-, -, eq⟩
  · rw [eq]
    intro unbounded
    cases unbounded
  · exact absurd escape (Reached.of_run h pivots).not_escape
  · rw [eq]
    intro unbounded
    cases unbounded

theorem outOfPivots_of_undecided (h : p.WellFormed) {maxPivots : Nat}
    (undecided : (run maxPivots p).status = .undecided) : OutOfPivots p maxPivots := by
  obtain ⟨n, le, t, d, pivots, outcome⟩ := optimize_eq (standardForm p).columns maxPivots
    (standardForm p) ((standardForm p).reducedCosts (phaseOneCosts (standardForm p)))
  rw [run, maximize] at undecided
  rcases outcome with ⟨stop, eq⟩ | ⟨escape, -⟩ | ⟨rfl, due, -⟩
  · by_cases mass : 0 < t.artificialMass
    · simp only [eq, mass, if_true] at undecided
      cases undecided
    · simp only [eq, mass, if_false] at undecided
      obtain ⟨o, t', d', objective, spent, due⟩ := exists_secondPhase undecided
      exact .second pivots stop mass objective spent (by omega) due
  · exact absurd escape (Reached.of_run h pivots).not_escape
  · exact .first pivots due

/-- Pivoting by smallest indices does not go in circles: some number of pivots is enough for a
well-formed program, its first phase never escapes, and it is undecided only where the pivots are spent
and another one is due. -/
theorem solve_decides (valid : p.fault? = none) :
    (∃ limit, ∀ maxPivots ≥ limit, (solve maxPivots p).status ≠ .undecided) ∧
      ∀ maxPivots, (standardForm p).maximize (phaseOneCosts (standardForm p)) (standardForm p).columns
          maxPivots ≠ .unbounded ∧
        ((solve maxPivots p).status = .undecided ↔ OutOfPivots p maxPivots) := by
  have wellFormed := LinearProgram.fault?_eq_none_iff.1 valid
  refine ⟨?_, fun maxPivots => ⟨maximize_phaseOne_ne_unbounded wellFormed maxPivots, ?_⟩⟩
  · obtain ⟨limit, s, decided, eq⟩ := exists_decided wellFormed
    refine ⟨limit, fun maxPivots le => ?_⟩
    rw [eq maxPivots le]
    exact decided
  · rw [run_eq valid]
    exact ⟨outOfPivots_of_undecided wellFormed, OutOfPivots.status_eq⟩

/-- Two degenerate constraints and a bound, with their slacks: pivots that always take the column with the
greatest reduced cost are back at the basis of the slacks after six steps. -/
def circular : LinearProgram where
  rows := [[0, 1, 0, 0, 1 / 4, -8, -1, 9], [0, 0, 1, 0, 1 / 2, -12, -1 / 2, 3], [-1, 0, 0, 1, 0, 0, 1, 0],
    [0, 1, 0, 0, 0, 0, 0, 0], [0, 0, 1, 0, 0, 0, 0, 0], [0, 0, 0, 1, 0, 0, 0, 0], [0, 0, 0, 0, 1, 0, 0, 0],
    [0, 0, 0, 0, 0, 1, 0, 0], [0, 0, 0, 0, 0, 0, 1, 0], [0, 0, 0, 0, 0, 0, 0, 1]]
  equalities := .ofList [0, 1, 2]
  objective := some ⟨.maximize, [0, 0, 0, 0, 3 / 4, -20, 1 / 2, -6]⟩

theorem solve_decides_circular : circular.fault? = none ∧
    (∃ limit, ∀ maxPivots ≥ limit, (solve maxPivots circular).status ≠ .undecided) ∧
      ∀ maxPivots, (standardForm circular).maximize (phaseOneCosts (standardForm circular))
          (standardForm circular).columns maxPivots ≠ .unbounded ∧
        ((solve maxPivots circular).status = .undecided ↔ OutOfPivots circular maxPivots) := by
  have valid : circular.fault? = none := by decide +kernel
  exact ⟨valid, solve_decides valid⟩

end Prevision.Simplex
