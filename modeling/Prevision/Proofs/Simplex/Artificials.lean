import Prevision.Proofs.Simplex.Canonical
import Prevision.Simplex.Optimize

/-!
# Taking artificial columns out of the basis

After a first phase that brings all artificial columns to zero, some of them
may still be basic. `withoutArtificials` solves their lines for other columns
and drops the lines that have none. The tableau stays canonical with a
nonnegative basic solution, no artificial column is left in its basis, and
without artificial columns it has the solutions that it had
(`Settled.withoutArtificials`).

* `Turn`: what one turn of the loop can do, and `Turns` so many of them;
* `exists_turns_withoutArtificials`: a turn for each line ends the loop;
* `Turn.advances`, `Turns.advances`: what a turn keeps, and with it the loop.
-/

namespace Prevision.Tableau

variable {t : Tableau}

/-- A canonical tableau with a nonnegative basic solution, zero on the artificial columns. -/
structure Settled (t : Tableau) : Prop where
  canonical : t.Canonical
  nonneg : ∀ l ∈ t.lines, 0 ≤ l.rhs
  artificial : ∀ l ∈ t.lines, t.structural ≤ l.basic → l.rhs = 0

/-- The artificial columns are zero. -/
def NoArtificials (t : Tableau) (y : Row) : Prop :=
  ∀ j < t.columns, t.structural ≤ j → Row.entry y j = 0

/-- Without artificial columns two tableaux have the same columns and the same solutions. -/
structure Agrees (t' t : Tableau) : Prop where
  columns : t'.columns = t.columns
  structural : t'.structural = t.structural
  holds : ∀ y, t.NoArtificials y → (t'.Holds y ↔ t.Holds y)

theorem Agrees.refl (t : Tableau) : t.Agrees t := ⟨rfl, rfl, fun _ _ => .rfl⟩

theorem Agrees.noArtificials_iff {t' : Tableau} (h : t'.Agrees t) {y : Row} :
    t'.NoArtificials y ↔ t.NoArtificials y := by
  rw [NoArtificials, NoArtificials, h.columns, h.structural]

theorem Agrees.trans {t'' t' : Tableau} (h : t''.Agrees t') (h' : t'.Agrees t) : t''.Agrees t :=
  ⟨h.columns.trans h'.columns, h.structural.trans h'.structural, fun y hy =>
    (h.holds y (h'.noArtificials_iff.2 hy)).trans (h'.holds y hy)⟩

/-- A pivot on a line with right-hand side zero changes no right-hand side. -/
theorem Settled.pivot (h : t.Settled) {i j : Nat} {line : Line} (at_i : t.lines[i]? = some line)
    (rhs : line.rhs = 0) (nonzero : line.entry j ≠ 0) (hj : j < t.structural)
    (bound : t.structural ≤ t.columns) : (t.pivot i j).Settled ∧ (t.pivot i j).Agrees t := by
  have lead : (line.solvedFor j).rhs = 0 := by
    rw [show (line.solvedFor j).rhs = (line.entry j)⁻¹ * line.rhs from rfl, rhs, mul_zero]
  have same {m : Line} : (m.eliminate j (line.solvedFor j)).rhs = m.rhs := by
    rw [Line.rhs_eliminate, lead, mul_zero, sub_zero]
  refine ⟨⟨h.canonical.pivot at_i nonzero (hj.trans_le bound), fun l hl => ?_, fun l hl artificial => ?_⟩,
    columns_pivot _ _ _, structural_pivot _ _ _, fun y _ => h.canonical.holds_pivot_iff at_i nonzero⟩
  · rcases (mem_lines_pivot at_i).1 hl with rfl | ⟨k, m, -, at_k, rfl⟩
    · exact lead.ge
    · rw [same]
      exact h.nonneg m (List.mem_of_getElem? at_k)
  · rcases (mem_lines_pivot at_i).1 hl with rfl | ⟨k, m, -, at_k, rfl⟩
    · exact lead
    · rw [structural_pivot, Line.basic_eliminate] at artificial
      rw [same, h.artificial m (List.mem_of_getElem? at_k) artificial]

theorem Canonical.eraseIdx (h : t.Canonical) (i : Nat) :
    Canonical { t with lines := t.lines.eraseIdx i } := by
  have sub : (t.lines.eraseIdx i).Sublist t.lines := List.eraseIdx_sublist t.lines i
  exact ⟨fun l hl => h.width l (sub.subset hl), fun l hl => h.basic_lt l (sub.subset hl),
    fun l hl => h.diagonal l (sub.subset hl), h.apart.sublist sub⟩

/-- A line without structural coefficients and with right-hand side zero can be dropped. -/
theorem Settled.eraseIdx (h : t.Settled) {i : Nat} {line : Line} (at_i : t.lines[i]? = some line)
    (rhs : line.rhs = 0) (zero : ∀ j < t.structural, line.entry j = 0) :
    Settled { t with lines := t.lines.eraseIdx i } ∧
      Agrees { t with lines := t.lines.eraseIdx i } t := by
  have sub : (t.lines.eraseIdx i).Sublist t.lines := List.eraseIdx_sublist t.lines i
  refine ⟨⟨h.canonical.eraseIdx i, fun l hl => h.nonneg l (sub.subset hl),
    fun l hl => h.artificial l (sub.subset hl)⟩, rfl, rfl, fun y hy =>
      ⟨fun holds l hl => ?_, fun holds l hl => holds l (sub.subset hl)⟩⟩
  obtain ⟨k, at_k⟩ := List.mem_iff_getElem?.1 hl
  by_cases e : k = i
  · obtain rfl : line = l := Option.some.inj (at_i.symm.trans (e ▸ at_k))
    rw [Line.Holds, h.canonical.dot_eq_sum hl, rhs]
    refine Finset.sum_eq_zero fun j hj => ?_
    rcases Nat.lt_or_ge j t.structural with lt | ge
    · rw [zero j lt, zero_mul]
    · rw [hy j (Finset.mem_range.1 hj) ge, mul_zero]
  · exact holds l (List.mem_eraseIdx_iff_getElem?.2 ⟨k, e, at_k⟩)

/-- A solution stays the basic one as long as each column that is not zero in it stays basic. -/
theorem Canonical.value_eq {t' : Tableau} (h' : t'.Canonical) (columns : t'.columns = t.columns)
    (holds : t'.Holds t.point) (stays : ∀ k, t.value k ≠ 0 → t'.IsBasic k) (k : Nat) :
    t'.value k = t.value k := by
  have zero {k : Nat} (out : ¬t'.IsBasic k) : t.value k = 0 := by
    by_contra ne
    exact out (stays k ne)
  by_cases basic : t'.IsBasic k
  · obtain ⟨l, hl, rfl⟩ := basic
    have lt := h'.basic_lt l hl
    rw [← h'.eq_value holds (fun j hj out => ?_) lt, entry_point (columns ▸ lt)]
    rw [entry_point (columns ▸ hj), zero out]
  · rw [value_of_not_basic basic, zero basic]

theorem Canonical.exists_of_value_ne_zero (h : t.Canonical) {k : Nat} (ne : t.value k ≠ 0) :
    ∃ l ∈ t.lines, l.basic = k ∧ l.rhs ≠ 0 := by
  by_cases basic : t.IsBasic k
  · obtain ⟨l, hl, rfl⟩ := basic
    exact ⟨l, hl, rfl, h.value_basic hl ▸ ne⟩
  · exact absurd (value_of_not_basic basic) ne

/-- A pivot on a line with right-hand side zero keeps the basic solution. -/
theorem Canonical.value_pivot (h : t.Canonical) {i j : Nat} {line : Line} (at_i : t.lines[i]? = some line)
    (rhs : line.rhs = 0) (nonzero : line.entry j ≠ 0) (hj : j < t.columns) (k : Nat) :
    (t.pivot i j).value k = t.value k := by
  refine (h.pivot at_i nonzero hj).value_eq (columns_pivot t i j) ?_ (fun k ne => ?_) k
  · exact (h.holds_pivot_iff at_i nonzero).2 h.holds_point
  · obtain ⟨l, hl, rfl, charged⟩ := h.exists_of_value_ne_zero ne
    refine (h.isBasic_pivot at_i l.basic).2 (.inr ⟨⟨l, hl, rfl⟩, fun e => charged ?_⟩)
    rw [h.basic_injective hl (List.mem_of_getElem? at_i) e, rhs]

/-- Leaving out a line with right-hand side zero keeps the basic solution. -/
theorem Canonical.value_eraseIdx (h : t.Canonical) {i : Nat} {line : Line} (at_i : t.lines[i]? = some line)
    (rhs : line.rhs = 0) (k : Nat) : value { t with lines := t.lines.eraseIdx i } k = t.value k := by
  refine Canonical.value_eq (t := t) (h.eraseIdx i) rfl (fun l hl => ?_) (fun k ne => ?_) k
  · exact h.holds_point l ((List.eraseIdx_sublist t.lines i).subset hl)
  · obtain ⟨l, hl, rfl, charged⟩ := h.exists_of_value_ne_zero ne
    obtain ⟨k, at_k⟩ := List.mem_iff_getElem?.1 hl
    refine ⟨l, List.mem_eraseIdx_iff_getElem?.2 ⟨k, fun e => charged ?_, at_k⟩, rfl⟩
    obtain rfl : line = l := Option.some.inj (at_i.symm.trans (e ▸ at_k))
    exact rhs

theorem entry_eq_zero_of_findIdx? {line : Line} {n : Nat}
    (h : (line.entries.take n).findIdx? (· != 0) = none) {j : Nat} (hj : j < n) : line.entry j = 0 := by
  rcases Nat.lt_or_ge j line.entries.length with lt | ge
  · have taken : j < (line.entries.take n).length := by
      rw [List.length_take]
      omega
    have := List.findIdx?_eq_none_iff.1 h _ (List.getElem_mem taken)
    rw [List.getElem_take, ← Row.entry_eq_getElem lt] at this
    simpa [Line.entry] using this
  · exact Row.entry_of_le ge

theorem entry_ne_zero_of_findIdx? {line : Line} {n j : Nat}
    (h : (line.entries.take n).findIdx? (· != 0) = some j) : j < n ∧ line.entry j ≠ 0 := by
  obtain ⟨taken, nonzero, -⟩ := List.findIdx?_eq_some_iff_getElem.1 h
  have bounds := taken
  rw [List.length_take] at bounds
  rw [List.getElem_take, ← Row.entry_eq_getElem (by omega)] at nonzero
  exact ⟨by omega, by simpa [Line.entry] using nonzero⟩

/-- The basic columns of the first `i` lines are below `n`. -/
def BasicBelow (t : Tableau) (n i : Nat) : Prop := ∀ k < i, ∀ l, t.lines[k]? = some l → l.basic < n

theorem BasicBelow.all {n i : Nat} (h : t.BasicBelow n i) (done : t.lines.length ≤ i) :
    ∀ l ∈ t.lines, l.basic < n := fun l hl => by
  obtain ⟨k, at_k⟩ := List.mem_iff_getElem?.1 hl
  have := (List.getElem?_eq_some_iff.1 at_k).1
  exact h k (by omega) l at_k

theorem BasicBelow.succ {n i : Nat} (h : t.BasicBelow n i)
    (next : ∀ l, t.lines[i]? = some l → l.basic < n) : t.BasicBelow n (i + 1) := fun k hk l at_k => by
  rcases Nat.lt_succ_iff_lt_or_eq.1 hk with lt | rfl
  · exact h k lt l at_k
  · exact next l at_k

/-- A pivot changes the basic column of no other line. -/
theorem BasicBelow.pivot {n i j : Nat} (h : t.BasicBelow n i) {line : Line}
    (at_i : t.lines[i]? = some line) (hj : j < n) : (t.pivot i j).BasicBelow n (i + 1) := by
  refine BasicBelow.succ (fun k hk l at_k => ?_) fun l at_i' => ?_
  · rw [lines_pivot at_i, List.getElem?_mapIdx, Option.map_eq_some_iff] at at_k
    obtain ⟨m, at_k, rfl⟩ := at_k
    rw [if_neg (Nat.ne_of_lt hk), Line.basic_eliminate]
    exact h k hk m at_k
  · rw [lines_pivot at_i, List.getElem?_mapIdx, at_i, Option.map_some, if_pos rfl] at at_i'
    exact Option.some.inj at_i' ▸ hj

/-! ## The loop -/

/-- One turn of the loop, from line `i` of `t` to line `i'` of `t'`, with the line that it drops. -/
inductive Turn : Nat → Tableau → List Line → Nat → Tableau → Prop
  | pass {i : Nat} {t : Tableau} {line : Line} (at_i : t.lines[i]? = some line)
      (structural : line.basic < t.structural) : Turn i t [] (i + 1) t
  | exchange {i j : Nat} {t : Tableau} {line : Line} (at_i : t.lines[i]? = some line)
      (artificial : t.structural ≤ line.basic)
      (found : (line.entries.take t.structural).findIdx? (· != 0) = some j) :
      Turn i t [] (i + 1) (t.pivot i j)
  | drop {i : Nat} {t : Tableau} {line : Line} (at_i : t.lines[i]? = some line)
      (artificial : t.structural ≤ line.basic)
      (none : (line.entries.take t.structural).findIdx? (· != 0) = none) :
      Turn i t [line] i { t with lines := t.lines.eraseIdx i }

/-- So many turns of the loop, with the lines that they drop. -/
inductive Turns : Nat → Nat → Tableau → List Line → Nat → Tableau → Prop
  | refl (i : Nat) (t : Tableau) : Turns 0 i t [] i t
  | step {n i i' i'' : Nat} {t t' t'' : Tableau} {now later : List Line} (turn : Turn i t now i' t')
      (rest : Turns n i' t' later i'' t'') : Turns (n + 1) i t (now ++ later) i'' t''

variable {n i i' : Nat} {t' : Tableau} {dropped : List Line}

theorem exists_turn (lt : i < t.lines.length) : ∃ dropped i' t', Turn i t dropped i' t' := by
  have at_i := List.getElem?_eq_getElem lt
  rcases Nat.lt_or_ge (t.lines[i]).basic t.structural with structural | artificial
  · exact ⟨_, _, _, .pass at_i structural⟩
  · cases found : ((t.lines[i]).entries.take t.structural).findIdx? (· != 0) with
    | none => exact ⟨_, _, _, .drop at_i artificial found⟩
    | some j => exact ⟨_, _, _, .exchange at_i artificial found⟩

theorem Turn.driveOut_eq (turn : Turn i t dropped i' t') (count : Nat) :
    driveOut (count + 1) i t = driveOut count i' t' := by
  cases turn with
  | pass at_i structural => simp only [driveOut, at_i, structural, if_true]
  | exchange at_i artificial found => simp only [driveOut, at_i, not_lt.2 artificial, if_false, found]
  | drop at_i artificial none => simp only [driveOut, at_i, not_lt.2 artificial, if_false, none]

/-- A turn goes on to the next line, or there is one line less. -/
theorem Turn.progress (turn : Turn i t dropped i' t') :
    i' + dropped.length = i + 1 ∧ t'.lines.length + dropped.length = t.lines.length := by
  cases turn with
  | pass => exact ⟨rfl, rfl⟩
  | exchange => exact ⟨rfl, length_lines_pivot t _ _⟩
  | drop at_i =>
    have lt := (List.getElem?_eq_some_iff.1 at_i).1
    refine ⟨rfl, ?_⟩
    rw [List.length_eraseIdx_of_lt lt, List.length_singleton, Nat.sub_add_cancel (Nat.zero_lt_of_lt lt)]

/-- A turn for each line that is left takes the loop past the last line. -/
theorem exists_turns (n i : Nat) (t : Tableau) (left : i + n = t.lines.length) :
    ∃ dropped t', Turns n i t dropped t'.lines.length t' := by
  induction n generalizing i t with
  | zero => exact ⟨[], t, left ▸ .refl i t⟩
  | succ n ih =>
    obtain ⟨now, i', t', turn⟩ := exists_turn (t := t) (i := i) (by omega)
    obtain ⟨index, lines⟩ := turn.progress
    obtain ⟨later, t'', rest⟩ := ih i' t' (by omega)
    exact ⟨now ++ later, t'', .step turn rest⟩

theorem Turns.driveOut_eq (turns : Turns n i t dropped i' t') (count : Nat) :
    driveOut (n + count) i t = driveOut count i' t' := by
  induction turns with
  | refl => rw [Nat.zero_add]
  | step turn _ ih => rw [Nat.add_right_comm, turn.driveOut_eq, ih]

theorem driveOut_past (past : t.lines.length ≤ i) (count : Nat) : driveOut count i t = t := by
  cases count with
  | zero => rfl
  | succ count => rw [driveOut, List.getElem?_eq_none past]

/-- The loop ends at its last line after a turn for each line, however many turns it is allowed. -/
theorem exists_turns_withoutArtificials (t : Tableau) :
    ∃ dropped, Turns t.lines.length 0 t dropped t.withoutArtificials.lines.length t.withoutArtificials ∧
      ∀ more, driveOut (t.lines.length + more) 0 t = t.withoutArtificials := by
  obtain ⟨dropped, t', turns⟩ := exists_turns t.lines.length 0 t (Nat.zero_add _)
  have ends (more : Nat) : driveOut (t.lines.length + more) 0 t = t' := by
    rw [turns.driveOut_eq, driveOut_past le_rfl]
  obtain rfl : t.withoutArtificials = t' := ends 0
  exact ⟨dropped, turns, ends⟩

/-- What a stretch of the loop from line `i` of `t` to line `i'` of `t'` keeps. -/
structure Advances (i : Nat) (t : Tableau) (i' : Nat) (t' : Tableau) : Prop where
  settled : t'.Settled
  agrees : t'.Agrees t
  value_eq : ∀ k, t'.value k = t.value k
  basicBelow : t.BasicBelow t.structural i → t'.BasicBelow t.structural i'

theorem Advances.bound (h : Advances i t i' t') (bound : t.structural ≤ t.columns) :
    t'.structural ≤ t'.columns := by
  rwa [h.agrees.structural, h.agrees.columns]

theorem Turn.advances (turn : Turn i t dropped i' t') (h : t.Settled) (bound : t.structural ≤ t.columns) :
    Advances i t i' t' := by
  cases turn with
  | pass at_i structural =>
    exact ⟨h, .refl t, fun _ => rfl, fun before =>
      before.succ fun l at_i' => Option.some.inj (at_i.symm.trans at_i') ▸ structural⟩
  | exchange at_i artificial found =>
    have rhs := h.artificial _ (List.mem_of_getElem? at_i) artificial
    obtain ⟨hj, nonzero⟩ := entry_ne_zero_of_findIdx? found
    obtain ⟨settled, agrees⟩ := h.pivot at_i rhs nonzero hj bound
    exact ⟨settled, agrees, h.canonical.value_pivot at_i rhs nonzero (hj.trans_le bound),
      fun before => before.pivot at_i hj⟩
  | drop at_i artificial none =>
    have rhs := h.artificial _ (List.mem_of_getElem? at_i) artificial
    obtain ⟨settled, agrees⟩ := h.eraseIdx at_i rhs fun j => entry_eq_zero_of_findIdx? none
    exact ⟨settled, agrees, h.canonical.value_eraseIdx at_i rhs,
      fun before k hk l at_k => before k hk l (by rwa [List.getElem?_eraseIdx_of_lt hk] at at_k)⟩

theorem Turns.advances (turns : Turns n i t dropped i' t') (h : t.Settled)
    (bound : t.structural ≤ t.columns) :
    Advances i t i' t' := by
  induction turns with
  | refl i t => exact ⟨h, .refl t, fun _ => rfl, id⟩
  | step turn _ ih =>
    have first := turn.advances h bound
    have rest := ih first.settled (first.bound bound)
    refine ⟨rest.settled, rest.agrees.trans first.agrees, fun k => (rest.value_eq k).trans (first.value_eq k),
      fun before => ?_⟩
    have := rest.basicBelow
    rw [first.agrees.structural] at this
    exact this (first.basicBelow before)

/-- No artificial column is left in the basis, and without artificial columns the solutions are the
same. -/
theorem Settled.withoutArtificials (h : t.Settled) (bound : t.structural ≤ t.columns) :
    t.withoutArtificials.Settled ∧ t.withoutArtificials.Agrees t ∧
      ∀ l ∈ t.withoutArtificials.lines, l.basic < t.structural := by
  obtain ⟨dropped, turns, -⟩ := exists_turns_withoutArtificials t
  have all := turns.advances h bound
  exact ⟨all.settled, all.agrees, (all.basicBelow fun _ hk => absurd hk (Nat.not_lt_zero _)).all le_rfl⟩

end Prevision.Tableau
