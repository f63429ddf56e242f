import Prevision.Proofs.Program.Forms
import Prevision.Proofs.Simplex.Decision

/-!
# A larger budget of pivots

A program that is decided within some budget has the same answer within any
larger one (`solve_eq_of_le`): pivots do not look at the budget, so a phase that
ends before the budget is spent ends in the same way, with as much more left
for what follows.
-/

namespace Prevision.Simplex

open Tableau

variable {p : LinearProgram} {t t' : Tableau} {d : Row} {allowed budget left : Nat}

/-! ## One phase -/

theorem optimize_add_of_optimal (h : optimize allowed budget t d = .optimal t' left) (more : Nat) :
    optimize allowed (budget + more) t d = .optimal t' (left + more) := by
  obtain ⟨n, le, t₁, d₁, run, outcome⟩ := optimize_eq allowed budget t d
  have split : budget + more = n + (budget - n + more) := by omega
  rcases outcome with ⟨stop, eq⟩ | ⟨-, eq⟩ | ⟨-, -, eq⟩
  · cases eq.symm.trans h
    rw [split]
    exact optimize_stopped run stop _
  · cases eq.symm.trans h
  · cases eq.symm.trans h

theorem optimize_add_of_unbounded (h : optimize allowed budget t d = .unbounded) (more : Nat) :
    optimize allowed (budget + more) t d = .unbounded := by
  obtain ⟨n, le, t₁, d₁, run, outcome⟩ := optimize_eq allowed budget t d
  have split : budget + more = n + (budget - n + more) := by omega
  rcases outcome with ⟨-, eq⟩ | ⟨escape, -⟩ | ⟨-, -, eq⟩
  · cases eq.symm.trans h
  · rw [split, optimize_run run, optimize, escape]
  · cases eq.symm.trans h

/-! ## Both phases -/

theorem phaseTwo_add (decided : (phaseTwo p t budget).status ≠ .undecided) (more : Nat) :
    phaseTwo p t (budget + more) = phaseTwo p t budget := by
  cases objective : p.objective with
  | none => rw [phaseTwo, phaseTwo, objective]
  | some o =>
    rw [phaseTwo, objective] at decided
    rw [phaseTwo, phaseTwo, objective]
    cases outcome : t.maximize (phaseTwoCosts t o) t.structural budget with
    | optimal t' left =>
      have larger : t.maximize (phaseTwoCosts t o) t.structural (budget + more) = .optimal t' (left + more) :=
        optimize_add_of_optimal outcome more
      simp only [larger, outcome]
    | unbounded =>
      have larger : t.maximize (phaseTwoCosts t o) t.structural (budget + more) = .unbounded :=
        optimize_add_of_unbounded outcome more
      simp only [larger, outcome]
    | exhausted =>
      simp only [outcome] at decided
      exact absurd rfl decided

theorem run_add {maxPivots : Nat} (decided : (run maxPivots p).status ≠ .undecided) (more : Nat) :
    run (maxPivots + more) p = run maxPivots p := by
  rw [run] at decided
  rw [run, run]
  cases outcome :
      (standardForm p).maximize (phaseOneCosts (standardForm p)) (standardForm p).columns maxPivots with
  | optimal t left =>
    have larger : (standardForm p).maximize (phaseOneCosts (standardForm p)) (standardForm p).columns
        (maxPivots + more) = .optimal t (left + more) := optimize_add_of_optimal outcome more
    simp only [outcome] at decided
    simp only [larger]
    split
    · rfl
    · rename_i mass
      rw [if_neg mass] at decided
      exact phaseTwo_add decided more
  | unbounded =>
    simp only [outcome] at decided
    exact absurd rfl decided
  | exhausted =>
    simp only [outcome] at decided
    exact absurd rfl decided

/-- A program that is decided has the same answer with more pivots. -/
theorem solve_eq_of_le {maxPivots morePivots : Nat} (decided : (solve maxPivots p).status ≠ .undecided)
    (le : maxPivots ≤ morePivots) : solve morePivots p = solve maxPivots p := by
  obtain ⟨more, rfl⟩ := Nat.exists_eq_add_of_le le
  rw [solve] at decided
  rw [solve, solve]
  split
  · rfl
  · rename_i valid
    rw [if_neg valid] at decided
    exact run_add decided more

/-- An optimum, or a failure but for want of pivots, is the same with more pivots. -/
theorem optimumOf_eq_of_le {maxPivots morePivots : Nat} {r : Except Error Solution}
    (found : (solve maxPivots p).optimumOf p = r) (decided : r ≠ .error (.unsolved .undecided))
    (le : maxPivots ≤ morePivots) : (solve morePivots p).optimumOf p = r := by
  have status : (solve maxPivots p).status ≠ .undecided := fun undecided =>
    decided (found.symm.trans (Solution.optimumOf_of_status undecided (by decide) p))
  rw [solve_eq_of_le status le, found]

end Prevision.Simplex
