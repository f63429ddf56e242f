import Prevision.Proofs.Linear.Vectors
import Prevision.Proofs.Simplex.Decision

/-!
# Dropped lines depend on the others

Row operations make each line of a tableau a combination of the lines it started
from, and the columns that were basic at the start keep count of it
(`Line.CombinedFrom`). A line that is dropped has nothing but such counts, so
one of the lines at the start is a combination of others. Put back, the dropped
lines complete a canonical tableau (`Turns.canonical`): no count of one is for the
column of another, so those others are lines that are kept (`Canonical.mem_span_kept`).

* `Stable.pivot`, `Stable.run`, `Stable.turns`: what row operations keep holds of
  every line after a pivot, a run of pivots, and the loop that drops lines;
* `withoutArtificials_keeps`: what the loop keeps at the end of the first phase.
-/

namespace Prevision.Tableau

open Row (toVector vectors)

variable {t t' start : Tableau} {l lead line : Line} {P : Line → Prop} {n i i' : Nat}
  {dropped : List Line}

/-! ## Row operations -/

/-- The right-hand side and the coefficients of a line. -/
def Line.equation (l : Line) : Row := l.rhs :: l.entries

theorem Line.entry_equation_solvedFor (l : Line) (j i : Nat) :
    Row.entry (l.solvedFor j).equation i = (l.entry j)⁻¹ * Row.entry l.equation i :=
  Row.entry_scale (l.entry j)⁻¹ l.equation i

theorem Line.entry_equation_eliminate (width : l.entries.length = lead.entries.length) (j i : Nat) :
    Row.entry (l.eliminate j lead).equation i =
      Row.entry l.equation i - l.entry j * Row.entry lead.equation i := by
  cases i with
  | zero => exact rhs_eliminate l lead j
  | succ i => exact entry_eliminate width j i

/-- A property of lines that row operations keep. -/
structure Stable (P : Line → Prop) : Prop where
  solvedFor : ∀ {l : Line} (j : Nat), P l → P (l.solvedFor j)
  eliminate : ∀ {l lead : Line} (j : Nat), l.entries.length = lead.entries.length → P l → P lead →
    P (l.eliminate j lead)

theorem stable_entry_eq_zero (j : Nat) : Stable fun l => l.entry j = 0 where
  solvedFor i zero := by rw [Line.entry_solvedFor, zero, mul_zero]
  eliminate i width zero zero' := by rw [Line.entry_eliminate width, zero, zero', mul_zero, sub_zero]

/-- The line is a sum of lines of `start`, each as often as the line has of its basic column. -/
def Line.CombinedFrom (start : Tableau) (l : Line) : Prop :=
  ∀ i, Row.entry l.equation i = (start.lines.map fun b => l.entry b.basic * Row.entry b.equation i).sum

theorem Canonical.combinedFrom (h : start.Canonical) (hl : l ∈ start.lines) : l.CombinedFrom start :=
  fun i => (h.sum_entry_basic hl fun b => Row.entry b.equation i).symm

theorem stable_combinedFrom (start : Tableau) : Stable (Line.CombinedFrom start) where
  solvedFor {l} j h i := by
    rw [Line.entry_equation_solvedFor, h i, ← List.sum_map_mul_left]
    exact congrArg List.sum (List.map_congr_left fun b _ => by rw [Line.entry_solvedFor, mul_assoc])
  eliminate {l lead} j width h h' i := by
    rw [Line.entry_equation_eliminate width, h i, h' i, sub_eq_add_neg, ← neg_mul, ← List.sum_map_mul_left,
      ← List.sum_map_add]
    exact congrArg List.sum (List.map_congr_left fun b _ => by rw [Line.entry_eliminate width]; ring)

theorem Stable.pivot (stable : Stable P) (h : t.Canonical) {r : Nat} (at_r : t.lines[r]? = some line)
    (j : Nat) (all : ∀ l ∈ t.lines, P l) : ∀ l ∈ (t.pivot r j).lines, P l := fun l hl => by
  have mem := List.mem_of_getElem? at_r
  have lead := stable.solvedFor j (all line mem)
  rcases (mem_lines_pivot at_r).1 hl with rfl | ⟨k, m, -, at_k, rfl⟩
  · exact lead
  · have hm := List.mem_of_getElem? at_k
    exact stable.eliminate j ((h.width m hm).trans (h.length_solvedFor mem j).symm) (all m hm) lead

theorem Stable.run (stable : Stable P) {allowed : Nat} {costs d d' : Row} (run : Run allowed n t d t' d')
    (h : t.Ready costs d) (bound : allowed ≤ t.columns) (all : ∀ l ∈ t.lines, P l) :
    ∀ l ∈ t'.lines, P l := by
  induction run with
  | refl => exact all
  | step move _ ih =>
    obtain ⟨line, choice⟩ := move_eq_pivot move
    obtain ⟨ready, -⟩ := h.step choice (choice.column_lt.trans_le bound)
    exact ih ready (by rwa [columns_pivot]) (stable.pivot h.canonical choice.at_row _ all)

theorem mem_of_mem_cons_eraseIdx (at_i : t.lines[i]? = some line) (hl : l ∈ line :: t.lines.eraseIdx i) :
    l ∈ t.lines := by
  rcases List.mem_cons.1 hl with rfl | hl
  · exact List.mem_of_getElem? at_i
  · exact (List.eraseIdx_sublist _ _).subset hl

theorem Stable.turn (stable : Stable P) (turn : Turn i t dropped i' t') (h : t.Settled)
    (all : ∀ l ∈ t.lines, P l) : ∀ l ∈ dropped ++ t'.lines, P l := by
  cases turn with
  | pass => exact all
  | exchange at_i => exact stable.pivot h.canonical at_i _ all
  | drop at_i => exact fun l hl => all l (mem_of_mem_cons_eraseIdx at_i hl)

theorem Stable.turns (stable : Stable P) (turns : Turns n i t dropped i' t') (h : t.Settled)
    (bound : t.structural ≤ t.columns) (all : ∀ l ∈ t.lines, P l) : ∀ l ∈ dropped ++ t'.lines, P l := by
  induction turns with
  | refl => exact all
  | step turn _ ih =>
    have first := turn.advances h bound
    have now := stable.turn turn h all
    have later := ih first.settled (first.bound bound) fun l hl => now l (List.mem_append_right _ hl)
    intro l hl
    rw [List.append_assoc] at hl
    rcases List.mem_append.1 hl with hl | hl
    · exact now l (List.mem_append_left _ hl)
    · exact later l hl

/-! ## Lines that are dropped -/

/-- A line that says nothing of the columns that are not artificial. -/
structure Spent (t : Tableau) (l : Line) : Prop where
  artificial : t.structural ≤ l.basic
  entry_eq_zero : ∀ j < t.structural, l.entry j = 0
  rhs_eq_zero : l.rhs = 0

theorem Spent.of_agrees (h : t'.Spent l) (agrees : t'.Agrees t) : t.Spent l := by
  obtain ⟨artificial, zero, rhs⟩ := h
  rw [agrees.structural] at artificial zero
  exact ⟨artificial, zero, rhs⟩

theorem Turn.spent (turn : Turn i t dropped i' t') (h : t.Settled) : ∀ l ∈ dropped, t.Spent l := by
  cases turn with
  | pass => exact fun _ hl => absurd hl List.not_mem_nil
  | exchange => exact fun _ hl => absurd hl List.not_mem_nil
  | drop at_i artificial none =>
    intro l hl
    obtain rfl := List.mem_singleton.1 hl
    have rhs := h.artificial l (List.mem_of_getElem? at_i) artificial
    exact ⟨artificial, fun j => entry_eq_zero_of_findIdx? none, rhs⟩

theorem Turns.spent (turns : Turns n i t dropped i' t') (h : t.Settled) (bound : t.structural ≤ t.columns) :
    ∀ l ∈ dropped, t.Spent l := by
  induction turns with
  | refl => exact fun _ hl => absurd hl List.not_mem_nil
  | step turn _ ih =>
    have first := turn.advances h bound
    intro l hl
    rcases List.mem_append.1 hl with hl | hl
    · exact turn.spent h l hl
    · exact (ih first.settled (first.bound bound) l hl).of_agrees first.agrees

/-- No artificial column enters the basis. -/
theorem Turn.basic (turn : Turn i t dropped i' t') (h : t.Canonical) :
    ∀ l ∈ dropped ++ t'.lines, l.basic < t.structural ∨ t.IsBasic l.basic := by
  cases turn with
  | pass => exact fun l hl => .inr ⟨l, hl, rfl⟩
  | exchange at_i artificial found =>
    intro l hl
    rcases (h.isBasic_pivot at_i l.basic).1 ⟨l, hl, rfl⟩ with entered | old
    · exact .inl (entered ▸ (entry_ne_zero_of_findIdx? found).1)
    · exact .inr old.1
  | drop at_i => exact fun l hl => .inr ⟨l, mem_of_mem_cons_eraseIdx at_i hl, rfl⟩

theorem Turns.basic (turns : Turns n i t dropped i' t') (h : t.Settled) (bound : t.structural ≤ t.columns) :
    ∀ l ∈ dropped ++ t'.lines, l.basic < t.structural ∨ t.IsBasic l.basic := by
  induction turns with
  | refl => exact fun l hl => .inr ⟨l, hl, rfl⟩
  | step turn _ ih =>
    have first := turn.advances h bound
    have now := turn.basic h.canonical
    have later := ih first.settled (first.bound bound)
    intro l hl
    rw [List.append_assoc] at hl
    rcases List.mem_append.1 hl with hl | hl
    · exact now l (List.mem_append_left _ hl)
    · rcases later l hl with structural | ⟨m, hm, same⟩
      · exact .inl (first.agrees.structural ▸ structural)
      · exact same ▸ now m (List.mem_append_right _ hm)

/-- The tableau with more lines in front of its own. -/
def withLines (t : Tableau) (lines : List Line) : Tableau := { t with lines := lines ++ t.lines }

theorem Canonical.ne_of_mem_eraseIdx (h : t.Canonical) (at_i : t.lines[i]? = some line)
    (hl : l ∈ t.lines.eraseIdx i) : l ∈ t.lines ∧ line ≠ l := by
  obtain ⟨k, ne, at_k⟩ := List.mem_eraseIdx_iff_getElem?.1 hl
  exact ⟨List.mem_of_getElem? at_k, fun e => ne (h.position_eq at_k at_i (congrArg Line.basic e.symm))⟩

/-- With the dropped lines put back the tableau is canonical. -/
theorem Turns.canonical (turns : Turns n i t dropped i' t') (h : t.Settled)
    (bound : t.structural ≤ t.columns) :
    (t'.withLines dropped).Canonical := by
  induction turns with
  | refl => exact h.canonical
  | @step n i i' i'' t t' t'' now later turn rest ih =>
    have first := turn.advances h bound
    have bound' := first.bound bound
    have back := ih first.settled bound'
    cases turn with
    | pass => exact back
    | exchange => exact back
    | @drop _ line at_i artificial none =>
      have mem := List.mem_of_getElem? at_i
      have columns : t''.columns = t.columns := (rest.advances first.settled bound').agrees.columns
      -- The lines after it have no coefficient for its basic column, and it has none for theirs.
      have column : ∀ m ∈ later ++ t''.lines, m.entry line.basic = 0 :=
        (stable_entry_eq_zero line.basic).turns rest first.settled bound' fun m hm =>
          have ⟨hm, ne⟩ := h.canonical.ne_of_mem_eraseIdx at_i hm
          h.canonical.entry_basic hm mem ne.symm
      have row : ∀ m ∈ later ++ t''.lines, line.entry m.basic = 0 := fun m hm => by
        rcases rest.basic first.settled bound' m hm with structural | ⟨m', hm', same⟩
        · exact entry_eq_zero_of_findIdx? none structural
        · obtain ⟨hm', ne⟩ := h.canonical.ne_of_mem_eraseIdx at_i hm'
          exact same ▸ h.canonical.entry_basic mem hm' ne
      refine ⟨fun m hm => ?_, fun m hm => ?_, fun m hm => ?_, ?_⟩
      · rcases List.mem_cons.1 hm with rfl | hm
        · exact (h.canonical.width m mem).trans columns.symm
        · exact back.width m hm
      · rcases List.mem_cons.1 hm with rfl | hm
        · exact (h.canonical.basic_lt m mem).trans_eq columns.symm
        · exact back.basic_lt m hm
      · rcases List.mem_cons.1 hm with rfl | hm
        · exact h.canonical.diagonal m mem
        · exact back.diagonal m hm
      · exact List.pairwise_cons.2 ⟨fun m hm => ⟨row m hm, column m hm⟩, back.apart⟩

/-- The lines of `start` that are basic in none of the given lines. -/
def kept (start : Tableau) (dropped : List Line) : List Line :=
  start.lines.filter fun b => b.basic ∉ dropped.map Line.basic

/-- The line of `start` for the basic column of a dropped line is, without artificial columns, a
combination of the lines that are kept. -/
theorem Canonical.mem_span_kept (h : start.Canonical) (back : (t'.withLines dropped).Canonical)
    (combined : ∀ l ∈ dropped, l.CombinedFrom start) (spent : ∀ l ∈ dropped, start.Spent l)
    (hl : l ∈ dropped) (hb : line ∈ start.lines) (same : line.basic = l.basic) :
    toVector (start.structural + 1) line.equation ∈
      Submodule.span ℚ (vectors (start.structural + 1) ((start.kept dropped).map Line.equation)) := by
  generalize hU :
      Submodule.span ℚ (vectors (start.structural + 1) ((start.kept dropped).map Line.equation)) = U
  have vanishes :
      (start.lines.map fun b => l.entry b.basic • toVector (start.structural + 1) b.equation).sum = 0 := by
    funext i
    rw [Pi.list_sum_apply, List.map_map]
    refine (combined l hl i).symm.trans ?_
    cases i using Fin.cases with
    | zero => exact (spent l hl).rhs_eq_zero
    | succ i => exact (spent l hl).entry_eq_zero i i.isLt
  -- Up to the lines that are kept, only one term of the sum is left.
  have others : ∀ b ≠ line, b ∈ start.lines →
      U.mkQ (l.entry b.basic • toVector (start.structural + 1) b.equation) = 0 := fun b ne hb' => by
    rw [Submodule.mkQ_apply, Submodule.Quotient.mk_eq_zero]
    by_cases again : b.basic ∈ dropped.map Line.basic
    · obtain ⟨m, hm, basic⟩ := List.mem_map.1 again
      have apart : l ≠ m := fun e => ne (h.basic_injective hb' hb (by rw [← basic, ← e, same]))
      rw [← basic, back.entry_basic (List.mem_append_left _ hl) (List.mem_append_left _ hm) apart, zero_smul]
      exact U.zero_mem
    · refine U.smul_mem _ (hU ▸ Submodule.subset_span (Row.toVector_mem_vectors (List.mem_map_of_mem ?_)))
      exact List.mem_filter.2 ⟨hb', by simpa using again⟩
  have quotient := congrArg U.mkQ vanishes
  rw [map_list_sum, List.map_map, List.sum_map_eq_nsmul_single line,
    List.count_eq_one_of_mem h.nodup hb, one_nsmul, map_zero] at quotient
  · rw [Function.comp_apply, same, back.diagonal l (List.mem_append_left _ hl), one_smul, Submodule.mkQ_apply,
      Submodule.Quotient.mk_eq_zero] at quotient
    exact quotient
  · exact others

end Prevision.Tableau

namespace Prevision.Simplex

open Tableau
open Row (toVector vectors)

variable {p : LinearProgram} {t : Tableau}

/-- Every artificial column is basic at the start. -/
theorem exists_standardLine {k : Nat} (artificial : (standardForm p).structural ≤ k)
    (lt : k < (standardForm p).columns) : ∃ b ∈ (standardForm p).lines, b.basic = k := by
  obtain ⟨index, rfl⟩ := Nat.exists_eq_add_of_le artificial
  have bound : index < p.rows.length := Nat.lt_of_add_lt_add_left lt
  exact ⟨_, mem_standardForm.2 ⟨index, p.rows[index], List.getElem?_eq_getElem bound, rfl⟩, rfl⟩

theorem exists_firstPhase {maxPivots left : Nat}
    (ended : (standardForm p).maximize (phaseOneCosts (standardForm p)) (standardForm p).columns maxPivots =
      .optimal t left) : ∃ n d, FirstPhase p n t d := by
  obtain ⟨n, -, t', d, run, outcome⟩ := optimize_eq (standardForm p).columns maxPivots (standardForm p)
    ((standardForm p).reducedCosts (phaseOneCosts (standardForm p)))
  rw [maximize] at ended
  rcases outcome with ⟨-, eq⟩ | ⟨-, eq⟩ | ⟨-, -, eq⟩
  · obtain ⟨rfl, -⟩ := Outcome.optimal.inj (eq.symm.trans ended)
    exact ⟨n, d, run⟩
  · cases eq.symm.trans ended
  · cases eq.symm.trans ended

/-- What is kept of the tableau `t` at the end of the first phase by a tableau without artificial
columns in its basis, for which some lines were dropped. -/
structure Cleared (p : LinearProgram) (t : Tableau) (dropped : List Line) (t' : Tableau) : Prop where
  structural : ∀ l ∈ t'.lines, l.basic < (standardForm p).structural
  rhs_nonneg : ∀ l ∈ t'.lines, 0 ≤ l.rhs
  value_eq : ∀ k, t'.value k = t.value k
  holds_iff : ∀ y, (standardForm p).NoArtificials y → (t'.Holds y ↔ (standardForm p).Holds y)
  spent : ∀ l ∈ dropped, (standardForm p).Spent l
  /-- The constraint of a dropped line is a combination of the constraints that are kept. -/
  dependent : ∀ l ∈ dropped, ∃ b ∈ (standardForm p).lines, b.basic = l.basic ∧
    toVector ((standardForm p).structural + 1) b.equation ∈ Submodule.span ℚ
      (vectors ((standardForm p).structural + 1) (((standardForm p).kept dropped).map Line.equation))

theorem FirstPhase.cleared {n m : Nat} {d : Row} {dropped : List Line} (h : p.WellFormed)
    (run : FirstPhase p n t d) (mass : ¬0 < t.artificialMass)
    (turns : Turns m 0 t dropped t.withoutArtificials.lines.length t.withoutArtificials) :
    Cleared p t dropped t.withoutArtificials := by
  have reached := Reached.of_run h run
  have settled := reached.settled mass
  have bound := structural_le_columns reached.agrees
  have all := turns.advances settled bound
  have below := (all.basicBelow fun _ hk => absurd hk (Nat.not_lt_zero _)).all le_rfl
  rw [reached.agrees.structural] at below
  have start := canonical_standardForm h
  have back := turns.canonical settled bound
  have combined : ∀ l ∈ t.lines, l.CombinedFrom (standardForm p) :=
    (stable_combinedFrom (standardForm p)).run run (ready_standardForm h) le_rfl fun _ => start.combinedFrom
  have spent : ∀ l ∈ dropped, (standardForm p).Spent l := fun l hl =>
    (turns.spent settled bound l hl).of_agrees reached.agrees
  refine ⟨below, all.settled.nonneg, all.value_eq, (all.agrees.trans reached.agrees).holds, spent,
    fun l hl => ?_⟩
  have lt := back.basic_lt l (List.mem_append_left _ hl)
  rw [show (t.withoutArtificials.withLines dropped).columns = (standardForm p).columns from
    (all.agrees.trans reached.agrees).columns] at lt
  obtain ⟨b, hb, same⟩ := exists_standardLine (spent l hl).artificial lt
  refine ⟨b, hb, same, start.mem_span_kept back (fun m hm => ?_) spent hl hb same⟩
  exact (stable_combinedFrom (standardForm p)).turns turns settled bound combined m
    (List.mem_append_left _ hm)

/-- Where the first phase of a valid program ends with all artificial columns zero, the loop that
takes them out of the basis ends after a turn for each line, and more turns change nothing. No
artificial column is left in the basis, the basic solution is the same, with right-hand sides that
are not negative, and without artificial columns so are the solutions: each line that is dropped
is that of a constraint that the others imply. -/
theorem withoutArtificials_keeps {maxPivots left : Nat} (valid : p.fault? = none)
    (ended : (standardForm p).maximize (phaseOneCosts (standardForm p)) (standardForm p).columns maxPivots =
      .optimal t left) (mass : t.artificialMass = 0) :
    (∀ more, driveOut (t.lines.length + more) 0 t = t.withoutArtificials) ∧
      ∃ dropped, Turns t.lines.length 0 t dropped t.withoutArtificials.lines.length t.withoutArtificials ∧
        Cleared p t dropped t.withoutArtificials := by
  obtain ⟨n, d, run⟩ := exists_firstPhase ended
  obtain ⟨dropped, turns, ends⟩ := exists_turns_withoutArtificials t
  exact ⟨ends, dropped, turns, run.cleared (LinearProgram.fault?_eq_none_iff.1 valid) mass.not_gt turns⟩

/-- A variable that is one, also less another, and so with it added too: the first phase ends with
two artificial columns in the basis, of which the pivot on a negative coefficient takes one, and
the last constraint is dropped. -/
def pinned : LinearProgram where
  rows := [[-1, 1, 0], [-1, 1, -1], [-1, 1, 1]]
  equalities := .ofList [0, 1, 2]
  objective := none

theorem withoutArtificials_keeps_pinned :
    let t := (standardForm pinned).pivot 0 0
    pinned.fault? = none ∧
      (standardForm pinned).maximize (phaseOneCosts (standardForm pinned)) (standardForm pinned).columns 3 =
        .optimal t 2 ∧
      t.artificialMass = 0 ∧ t.lines.map Line.basic = [0, 5, 6] ∧
      t.withoutArtificials.lines.map Line.basic = [0, 1] ∧
      (∀ more, driveOut (t.lines.length + more) 0 t = t.withoutArtificials) ∧
        ∃ dropped, Turns t.lines.length 0 t dropped t.withoutArtificials.lines.length t.withoutArtificials ∧
          Cleared pinned t dropped t.withoutArtificials := by
  intro t
  have valid : pinned.fault? = none := by decide +kernel
  have run : FirstPhase pinned 1 t _ := .step (r := 0) (j := 0) (by decide +kernel) (.refl _ _)
  have ended := optimize_stopped run (by decide +kernel) 2
  have mass : t.artificialMass = 0 := by decide +kernel
  exact ⟨valid, ended, mass, by decide +kernel, by decide +kernel, withoutArtificials_keeps valid ended mass⟩

end Prevision.Simplex
