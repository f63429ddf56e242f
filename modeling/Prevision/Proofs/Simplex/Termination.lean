import Mathlib.Data.Fintype.Pigeonhole
import Mathlib.Order.Interval.Finset.Nat
import Prevision.Proofs.Simplex.Pivoting

/-!
# Pivoting by smallest indices ends

Every run of pivots is finite (`Ready.exists_length_le`), and so some budget
is enough (`Ready.exists_budget`).

Suppose that a run had no end. The objective never falls along it and takes
one value for each basis, so from some point on it stays the same, and with
it the basic solution (`Endless.exists_still`). Take the largest column that
enters again and again. It also leaves again and again
(`Endless.exists_fickle`). What its reduced cost says when it enters, and what
the ratio test says when it leaves, cannot both be: some smaller column would
have entered, or left, in its place (`Endless.Fickle.false`).
-/

namespace Prevision.Tableau

variable {t : Tableau} {costs d : Row} {allowed : Nat}

/-- An endless sequence of pivots. -/
structure Endless (costs : Row) (allowed : Nat) where
  tableau : Nat → Tableau
  reduced : Nat → Row
  row : Nat → Nat
  column : Nat → Nat
  line : Nat → Line
  ready : ∀ n, (tableau n).Ready costs (reduced n)
  choice : ∀ n, Choice (tableau n) (reduced n) allowed (row n) (column n) (line n)
  next : ∀ n, tableau (n + 1) = (tableau n).pivot (row n) (column n)
  bound : allowed ≤ (tableau 0).columns

namespace Endless

variable (e : Endless costs allowed)

theorem columns_eq (n : Nat) : (e.tableau n).columns = (e.tableau 0).columns := by
  induction n with
  | zero => rfl
  | succ n ih => rw [e.next, columns_pivot, ih]

theorem column_lt (n : Nat) : e.column n < (e.tableau n).columns := by
  rw [e.columns_eq]
  exact (e.choice n).column_lt.trans_le e.bound

theorem holds_iff (n : Nat) (y : Row) : (e.tableau n).Holds y ↔ (e.tableau 0).Holds y := by
  induction n with
  | zero => rfl
  | succ n ih =>
    rw [e.next, (e.ready n).canonical.holds_pivot_iff (e.choice n).at_row (e.choice n).positive.ne', ih]

theorem isBasic_succ (n i : Nat) : (e.tableau (n + 1)).IsBasic i ↔
    i = e.column n ∨ ((e.tableau n).IsBasic i ∧ i ≠ (e.line n).basic) := by
  rw [e.next]
  exact (e.ready n).canonical.isBasic_pivot (e.choice n).at_row i

theorem not_isBasic_column (n : Nat) : ¬(e.tableau n).IsBasic (e.column n) := fun basic =>
  (e.choice n).improves.ne' ((e.ready n).reduced.basic _ basic)

/-- The value of the objective at the basic solution. -/
def objective (n : Nat) : Rat := Row.dot costs (e.tableau n).point

theorem objective_succ (n : Nat) : e.objective (n + 1) = e.objective n +
    Row.entry (e.reduced n) (e.column n) * ((e.line n).solvedFor (e.column n)).rhs := by
  rw [objective, e.next]
  exact ((e.ready n).step (e.choice n) (e.column_lt n)).2

theorem objective_mono : Monotone e.objective := by
  refine monotone_nat_of_le_succ fun n => ?_
  rw [e.objective_succ, le_add_iff_nonneg_right]
  refine mul_nonneg (e.choice n).improves.le ((e.ready (n + 1)).nonneg _ ?_)
  rw [e.next]
  exact (mem_lines_pivot (e.choice n).at_row).2 (.inl rfl)

/-- A solution of a tableau that is zero on all columns not basic in another has the values of the
other's basic solution. -/
theorem point_eq {n m : Nat} (zero : ∀ i, ¬(e.tableau m).IsBasic i → (e.tableau n).value i = 0) :
    (e.tableau n).point = (e.tableau m).point := by
  have columns : (e.tableau n).columns = (e.tableau m).columns :=
    (e.columns_eq n).trans (e.columns_eq m).symm
  have holds : (e.tableau m).Holds (e.tableau n).point :=
    (e.holds_iff m _).2 ((e.holds_iff n _).1 (e.ready n).canonical.holds_point)
  have value {i : Nat} (hi : i < (e.tableau m).columns) :
      (e.tableau n).value i = (e.tableau m).value i := by
    rw [← entry_point (columns ▸ hi)]
    refine (e.ready m).canonical.eq_value holds (fun k hk out => ?_) hi
    rw [entry_point (columns ▸ hk), zero k out]
  rw [point, point, columns]
  exact List.map_congr_left fun i hi => value (List.mem_range.1 hi)

/-- Which columns are basic at a point of the sequence. -/
def basis (n : Nat) (i : Fin (e.tableau 0).columns) : Prop := (e.tableau n).IsBasic i

theorem isBasic_of_basis_eq {n m : Nat} (same : e.basis n = e.basis m) {i : Nat}
    (basic : (e.tableau n).IsBasic i) : (e.tableau m).IsBasic i := by
  have lt : i < (e.tableau 0).columns := by
    obtain ⟨l, hl, rfl⟩ := basic
    exact e.columns_eq n ▸ (e.ready n).canonical.basic_lt l hl
  exact (congrFun same ⟨i, lt⟩).mp basic

theorem objective_of_basis_eq {n m : Nat} (same : e.basis n = e.basis m) :
    e.objective n = e.objective m := by
  rw [objective, e.point_eq fun i out => value_of_not_basic fun basic =>
    out (e.isBasic_of_basis_eq same basic), objective]

/-- From some point on the objective stays the same: some basis comes back again and again, and in
between the objective cannot fall. -/
theorem exists_objective_const : ∃ start, ∀ n ≥ start, e.objective n = e.objective start := by
  obtain ⟨B, often⟩ := Finite.exists_infinite_fiber e.basis
  have often := Set.infinite_coe_iff.1 often
  obtain ⟨start, at_start⟩ := often.nonempty
  refine ⟨start, fun n hn => le_antisymm ?_ (e.objective_mono hn)⟩
  obtain ⟨m, at_m, lt⟩ := Set.Infinite.exists_gt often n
  calc e.objective n ≤ e.objective m := e.objective_mono lt.le
    _ = e.objective start := e.objective_of_basis_eq (Eq.trans at_m at_start.symm)

/-- From some point on every pivot leaves the basic solution as it is. -/
theorem exists_still : ∃ start, ∀ n ≥ start, (e.tableau n).point = (e.tableau start).point := by
  obtain ⟨start, const⟩ := e.exists_objective_const
  refine ⟨start, fun n hn => ?_⟩
  induction n, hn using Nat.le_induction with
  | base => rfl
  | succ n hn ih =>
    rw [← ih]
    have gain : Row.entry (e.reduced n) (e.column n) *
        ((e.line n).solvedFor (e.column n)).rhs = 0 := by
      have := e.objective_succ n
      rw [const n hn, const (n + 1) (hn.trans n.le_succ)] at this
      linarith
    have rhs : (e.line n).rhs = 0 := by
      have := (mul_eq_zero.1 gain).resolve_left (e.choice n).improves.ne'
      exact (mul_eq_zero.1 this).resolve_left (inv_ne_zero (e.choice n).positive.ne')
    refine (e.point_eq fun i out => ?_).symm
    rw [e.isBasic_succ, not_or, not_and, not_not] at out
    by_cases basic : (e.tableau n).IsBasic i
    · rw [out.2 basic, (e.ready n).canonical.value_basic (List.mem_of_getElem? (e.choice n).at_row),
        rhs]
    · exact value_of_not_basic basic

/-- Some column enters again and again while no larger one does. -/
theorem exists_largest : ∃ top start, (∀ n ≥ start, e.column n ≤ top) ∧
    ∀ m, ∃ n ≥ m, e.column n = top := by
  classical
  have exceeded : ∃ c, ¬∀ m, ∃ n ≥ m, c ≤ e.column n :=
    ⟨allowed, fun h => by
      obtain ⟨n, -, le⟩ := h 0
      exact absurd (e.choice n).column_lt (not_lt.2 le)⟩
  obtain ⟨top, found⟩ : ∃ top, Nat.find exceeded = top + 1 :=
    Nat.exists_eq_succ_of_ne_zero fun zero =>
      Nat.find_spec exceeded (zero ▸ fun m => ⟨m, le_rfl, Nat.zero_le _⟩)
  have above := Nat.find_spec exceeded
  rw [found] at above
  obtain ⟨start, above⟩ := not_forall.1 above
  have above : ∀ n ≥ start, e.column n ≤ top := fun n hn =>
    Nat.le_of_lt_succ (not_le.1 fun le => above ⟨n, hn, le⟩)
  refine ⟨top, start, above, fun m => ?_⟩
  obtain ⟨n, hn, le⟩ :=
    not_not.1 (Nat.find_min exceeded (by rw [found]; exact top.lt_succ_self)) (max m start)
  exact ⟨n, (le_max_left _ _).trans hn, le_antisymm (above n ((le_max_right _ _).trans hn)) le⟩

/-- Between a point where something holds and a later one where it does not, it ceases to hold. -/
theorem exists_change {P : Nat → Prop} {a b : Nat} (le : a ≤ b) (first : P a) (last : ¬P b) :
    ∃ n, a ≤ n ∧ n < b ∧ P n ∧ ¬P (n + 1) := by
  induction b, le using Nat.le_induction with
  | base => exact absurd first last
  | succ b hb ih =>
    by_cases h : P b
    · exact ⟨b, hb, b.lt_succ_self, h, last⟩
    · obtain ⟨n, ha, lt, holds, ceases⟩ := ih h
      exact ⟨n, ha, lt.trans b.lt_succ_self, holds, ceases⟩

/-- A column that is not basic at one point but is at a later one has entered in between. -/
theorem exists_entering {n m i : Nat} (le : n ≤ m) (before : ¬(e.tableau n).IsBasic i)
    (after : (e.tableau m).IsBasic i) : ∃ k ≥ n, e.column k = i := by
  obtain ⟨k, hk, -, out, enters⟩ := exists_change (P := fun k => ¬(e.tableau k).IsBasic i) le before
    (not_not_intro after)
  rcases (e.isBasic_succ k i).1 (not_not.1 enters) with same | basic
  · exact ⟨k, hk, same.symm⟩
  · exact absurd basic.1 out

/-- A column that enters twice leaves in between. -/
theorem exists_leaving {n m : Nat} (lt : n < m) (same : e.column n = e.column m) :
    ∃ k > n, (e.line k).basic = e.column n := by
  have entered : (e.tableau (n + 1)).IsBasic (e.column n) := (e.isBasic_succ n _).2 (.inl rfl)
  obtain ⟨k, hk, -, basic, leaves⟩ := exists_change (P := fun k => (e.tableau k).IsBasic (e.column n))
    lt entered (by rw [same]; exact e.not_isBasic_column m)
  rw [e.isBasic_succ, not_or, not_and, not_not] at leaves
  exact ⟨k, hk, (leaves.2 basic).symm⟩

/-- The largest column that enters from `n` on does so at `n` and leaves at `m`, with the basic
solution still the same. -/
structure Fickle (n m : Nat) : Prop where
  lt : n < m
  largest : ∀ k ≥ n, e.column k ≤ e.column n
  leaves : (e.line m).basic = e.column n
  point : (e.tableau m).point = (e.tableau n).point

theorem exists_fickle : ∃ n m, e.Fickle n m := by
  obtain ⟨start, still⟩ := e.exists_still
  obtain ⟨top, start', below, often⟩ := e.exists_largest
  obtain ⟨n, hn, enters⟩ := often (max start start')
  obtain ⟨n', hn', again⟩ := often (n + 1)
  obtain ⟨m, lt, leaves⟩ := e.exists_leaving hn' (enters.trans again.symm)
  have after : start ≤ n := (le_max_left _ _).trans hn
  have after' : start' ≤ n := (le_max_right _ _).trans hn
  refine ⟨n, m, lt, fun k hk => ?_, leaves, ?_⟩
  · rw [enters]
    exact below k (after'.trans hk)
  · rw [still m (after.trans lt.le), still n after]

namespace Fickle

variable {e : Endless costs allowed} {n m : Nat} (f : e.Fickle n m)

include f

/-- Columns that came in between are at most the fickle one. -/
theorem le_of_entered {i : Nat} (out : ¬(e.tableau n).IsBasic i) (basic : (e.tableau m).IsBasic i) :
    i ≤ e.column n := by
  obtain ⟨k, hk, rfl⟩ := e.exists_entering f.lt.le out basic
  exact f.largest k hk

/-- The column that takes the place of the fickle one is smaller. -/
theorem column_lt : e.column m < e.column n := by
  refine lt_of_le_of_ne (f.largest m f.lt.le) fun same => e.not_isBasic_column m ?_
  exact ⟨_, List.mem_of_getElem? (e.choice m).at_row, f.leaves.trans same.symm⟩

/-- The gain along a column is the same whichever reduced costs tell it. -/
theorem dot_direction {s : Nat} (hs : s < (e.tableau m).columns) :
    Row.dot (e.reduced n) ((e.tableau m).direction s) = Row.entry (e.reduced m) s := by
  have width : (e.reduced n).length = (e.tableau m).columns := by
    rw [(e.ready n).reduced.width, e.columns_eq n, e.columns_eq m]
  have holds := (e.ready m).canonical.holds_raised hs 1
  have told_m := (e.ready m).dot_costs_raised hs 1
  have told_n := (e.ready n).reduced.eval _ ((e.holds_iff n _).2 ((e.holds_iff m _).1 holds))
  rw [dot_raised width, f.point, (e.ready n).canonical.dot_point_eq_zero (e.ready n).reduced.width
    (e.ready n).reduced.basic] at told_n
  rw [f.point] at told_m
  linarith

/-- Some basic column has a reduced cost at `n` and a coefficient for the entering one at `m` of
unlike signs. -/
theorem exists_unlike : ∃ l ∈ (e.tableau m).lines,
    Row.entry (e.reduced n) l.basic * l.entry (e.column m) < 0 := by
  by_contra none
  push Not at none
  have width : (e.reduced n).length = (e.tableau m).columns := by
    rw [(e.ready n).reduced.width, e.columns_eq n, e.columns_eq m]
  have told := f.dot_direction (e.column_lt m)
  rw [(e.ready m).canonical.dot_direction width (e.column_lt m)] at told
  have rest : 0 ≤ ((e.tableau m).lines.map fun l =>
      Row.entry (e.reduced n) l.basic * l.entry (e.column m)).sum :=
    List.sum_nonneg fun x hx => by
      obtain ⟨l, hl, rfl⟩ := List.mem_map.1 hx
      exact none l hl
  have not_chosen := (e.choice n).first _ f.column_lt
  have improves := (e.choice m).improves
  linarith

/-- A line whose basic column came in between has a right-hand side of zero. -/
theorem rhs_eq_zero {l : Line} (hl : l ∈ (e.tableau m).lines)
    (out : ¬(e.tableau n).IsBasic l.basic) : l.rhs = 0 := by
  have canonical := (e.ready m).canonical
  have lt := canonical.basic_lt l hl
  have lt' : l.basic < (e.tableau n).columns := by rwa [e.columns_eq n, ← e.columns_eq m]
  rw [← canonical.value_basic hl, ← entry_point lt, f.point, entry_point lt', value_of_not_basic out]

protected theorem false : False := by
  obtain ⟨l, hl, unlike⟩ := f.exists_unlike
  have mem_line := List.mem_of_getElem? (e.choice m).at_row
  have out : ¬(e.tableau n).IsBasic l.basic := fun basic => by
    rw [(e.ready n).reduced.basic _ basic, zero_mul] at unlike
    exact lt_irrefl _ unlike
  -- At the fickle column both signs are positive, so it is another one.
  have other : l.basic ≠ e.column n := fun same => by
    have same_line := (e.ready m).canonical.basic_injective hl mem_line (same.trans f.leaves.symm)
    refine absurd unlike (not_lt.2 (mul_nonneg ?_ ?_))
    · rw [same]
      exact (e.choice n).improves.le
    · rw [same_line]
      exact (e.choice m).positive.le
  have smaller : l.basic < e.column n := lt_of_le_of_ne (f.le_of_entered out ⟨l, hl, rfl⟩) other
  have positive : 0 < l.entry (e.column m) := by
    have := (e.choice n).first _ smaller
    nlinarith
  -- It is at zero like the fickle one, and would have left in its place.
  have rhs : (e.line m).rhs = 0 :=
    f.rhs_eq_zero mem_line (by rw [f.leaves]; exact e.not_isBasic_column n)
  have leaves_first := (e.choice m).smallest l hl positive
    (by rw [f.rhs_eq_zero hl out, rhs, zero_div, zero_div])
  exact absurd leaves_first (not_le.2 (f.leaves ▸ smaller))

end Fickle

/-- No sequence of pivots is endless. -/
protected theorem false (e : Endless costs allowed) : False := by
  obtain ⟨n, m, f⟩ := e.exists_fickle
  exact f.false

end Endless

/-- The tableau and its reduced costs after the next pivot; they stay if there is none. -/
def advance (allowed : Nat) (s : Tableau × Row) : Tableau × Row :=
  match s.1.move s.2 allowed with
  | .pivot r j => (s.1.pivot r j, (s.1.pivot r j).updateReduced s.2 r j)
  | _ => s

theorem advance_pivot {s : Tableau × Row} {r j : Nat} (move : s.1.move s.2 allowed = .pivot r j) :
    advance allowed s = (s.1.pivot r j, (s.1.pivot r j).updateReduced s.2 r j) := by
  rw [advance, move]

theorem Run.move_iterate {n : Nat} {t' : Tableau} {d' : Row} (run : Run allowed n t d t' d') {k : Nat}
    (hk : k < n) : ∃ r j, ((advance allowed)^[k] (t, d)).1.move ((advance allowed)^[k] (t, d)).2
      allowed = .pivot r j := by
  induction run generalizing k with
  | refl => omega
  | @step n r j t t' d d' move rest ih =>
    cases k with
    | zero => exact ⟨r, j, move⟩
    | succ k =>
      rw [Function.iterate_succ_apply, advance_pivot (s := (t, d)) move]
      exact ih (by omega)

/-- Pivots that never come to an end are an endless sequence. -/
noncomputable def Endless.ofMoves (h : t.Ready costs d) (bound : allowed ≤ t.columns)
    (moves : ∀ n, ∃ r j, ((advance allowed)^[n] (t, d)).1.move ((advance allowed)^[n] (t, d)).2
      allowed = .pivot r j) : Endless costs allowed :=
  let r n := (moves n).choose
  let j n := (moves n).choose_spec.choose
  have move n : ((advance allowed)^[n] (t, d)).1.move ((advance allowed)^[n] (t, d)).2 allowed =
      .pivot (r n) (j n) := (moves n).choose_spec.choose_spec
  have succ n : (advance allowed)^[n + 1] (t, d) = advance allowed ((advance allowed)^[n] (t, d)) :=
    Function.iterate_succ_apply' _ _ _
  have ready n : ((advance allowed)^[n] (t, d)).1.Ready costs ((advance allowed)^[n] (t, d)).2 ∧
      ((advance allowed)^[n] (t, d)).1.columns = t.columns := by
    induction n with
    | zero => exact ⟨h, rfl⟩
    | succ n ih =>
      obtain ⟨line, choice⟩ := move_eq_pivot (move n)
      rw [succ, advance_pivot (move n)]
      exact ⟨(ih.1.step choice (ih.2 ▸ choice.column_lt.trans_le bound)).1,
        (columns_pivot _ _ _).trans ih.2⟩
  { tableau n := ((advance allowed)^[n] (t, d)).1
    reduced n := ((advance allowed)^[n] (t, d)).2
    row := r
    column := j
    line n := (move_eq_pivot (move n)).choose
    ready n := (ready n).1
    choice n := (move_eq_pivot (move n)).choose_spec
    next n := by rw [succ, advance_pivot (move n)]
    bound := bound }

/-- All runs from a tableau are bounded in length. -/
theorem Ready.exists_length_le (h : t.Ready costs d) (bound : allowed ≤ t.columns) :
    ∃ limit, ∀ n t' d', Run allowed n t d t' d' → n ≤ limit := by
  by_contra endless
  push Not at endless
  refine (Endless.ofMoves h bound fun n => ?_).false
  obtain ⟨m, t', d', run, lt⟩ := endless n
  exact run.move_iterate lt

/-- Some budget is enough, and any larger one only leaves more of it over. -/
theorem Ready.exists_budget (h : t.Ready costs d) (bound : allowed ≤ t.columns) :
    ∃ limit t' d', ∃ n ≤ limit, Run allowed n t d t' d' ∧
      ((t'.move d' allowed = .stop ∧
          ∀ budget, optimize allowed (limit + budget) t d = .optimal t' (limit - n + budget)) ∨
        (t'.move d' allowed = .escape ∧
          ∀ budget, optimize allowed (limit + budget) t d = .unbounded)) := by
  obtain ⟨limit, short⟩ := h.exists_length_le bound
  obtain ⟨n, le, t', d', run, outcome⟩ := optimize_eq allowed (limit + 1) t d
  have split (budget : Nat) : limit + 1 + budget = n + (limit + 1 - n + budget) := by omega
  refine ⟨limit + 1, t', d', n, le, run, ?_⟩
  rcases outcome with ⟨stop, -⟩ | ⟨escape, -⟩ | ⟨full, -⟩
  · refine .inl ⟨stop, fun budget => ?_⟩
    rw [split, optimize_run run, optimize, stop]
  · refine .inr ⟨escape, fun budget => ?_⟩
    rw [split, optimize_run run, optimize, escape]
  · have := short n t' d' run
    omega

end Prevision.Tableau
