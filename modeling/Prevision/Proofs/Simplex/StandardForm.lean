import Mathlib.Algebra.Order.Group.MinMax
import Prevision.Proofs.Simplex.Canonical

/-!
# The standard form of a program

The standard form has the points of the program as its solutions: a feasible
point gives nonnegative columns that satisfy every line with all artificial
columns zero (`holds_columnsOf`), and such columns give back a feasible point
(`feasible_differences`). At the start the tableau is canonical, and its
basic solution is nonnegative (`canonical_standardForm`,
`rhs_nonneg_standardForm`).
-/

namespace Prevision

namespace LinearProgram

variable {p : LinearProgram}

/-- What it means that a program has no fault. -/
structure WellFormed (p : LinearProgram) : Prop where
  rows : ∀ row ∈ p.rows, row.length = p.variableCount + 1
  objective : ∀ o, p.objective = some o → o.coefficients.length = p.variableCount + 1
  equalities : ∀ i ∈ p.equalities, i < p.rows.length

theorem fault?_eq_none_iff : p.fault? = none ↔ p.WellFormed := by
  have rows : rowFault? (p.variableCount + 1) p.rows = none ↔
      ∀ row ∈ p.rows, row.length = p.variableCount + 1 := by
    simp [rowFault?, List.findIdx?_eq_none_iff]
  have objective : (p.objective.filter fun o => o.coefficients.length != p.variableCount + 1) = none ↔
      ∀ o, p.objective = some o → o.coefficients.length = p.variableCount + 1 := by
    simp [Option.filter_eq_none_iff]
  have equalities : (p.equalities.toList.find? fun i => p.rows.length ≤ i) = none ↔
      ∀ i ∈ p.equalities, i < p.rows.length := by
    simp [List.find?_eq_none]
  unfold fault?
  simp only
  constructor
  · intro h
    split at h
    · cases h
    · split at h
      · cases h
      · rename_i noRow _ noObjective
        exact ⟨rows.1 noRow, objective.1 noObjective, equalities.1 (Option.map_eq_none_iff.1 h)⟩
  · intro h
    rw [rows.2 h.rows, objective.2 h.objective]
    exact Option.map_eq_none_iff.2 (equalities.2 h.equalities)

/-- The number of constraints before one that are no equalities. -/
def surplusIndex (p : LinearProgram) (index : Nat) : Nat :=
  (List.range index).countP fun i => !p.equalities.contains i

theorem surplusIndex_succ (p : LinearProgram) (index : Nat) : p.surplusIndex (index + 1) =
    if p.equalities.contains index then p.surplusIndex index else p.surplusIndex index + 1 := by
  rw [surplusIndex, List.range_succ, List.countP_append]
  split <;> rename_i h <;> simp [h, surplusIndex]

theorem surplusIndex_mono {i k : Nat} (h : i ≤ k) : p.surplusIndex i ≤ p.surplusIndex k :=
  (List.range_sublist.2 h).countP_le

/-- A well-formed program has a surplus for each constraint that is no equality. -/
theorem WellFormed.surplusIndex_length (h : p.WellFormed) :
    p.surplusIndex p.rows.length = p.rows.length - p.equalities.size := by
  have same : ((List.range p.rows.length).filter p.equalities.contains).Perm
      p.equalities.toList := by
    refine (List.perm_ext_iff_of_nodup (List.nodup_range.filter _) p.equalities.nodup).2 fun i => ?_
    rw [List.mem_filter, SortedSet.contains_iff, SortedSet.mem_toList, List.mem_range]
    exact ⟨And.right, fun mem => ⟨h.equalities i mem, mem⟩⟩
  have split := List.length_eq_countP_add_countP p.equalities.contains (l := List.range p.rows.length)
  rw [List.length_range, List.countP_eq_length_filter, same.length_eq] at split
  have eq : p.surplusIndex p.rows.length =
      (List.range p.rows.length).countP fun i => ¬p.equalities.contains i = true :=
    List.countP_congr fun i _ => by cases p.equalities.contains i <;> simp
  rw [eq, SortedSet.size]
  omega

end LinearProgram

namespace Tableau
variable {p : LinearProgram}

/-- The line of a constraint in the standard form. -/
def standardLine (p : LinearProgram) (surpluses : Nat) (row : Row) (index surplus : Nat) : Line :=
  let a := row.tail
  let slack := if p.equalities.contains index then Row.zero surpluses
    else Row.neg (Row.unit surpluses surplus)
  let left := a ++ Row.neg a ++ slack
  let right := -Row.entry row 0
  { basic := 2 * p.variableCount + surpluses + index
    entries := (if right < 0 then Row.neg left else left) ++ Row.unit p.rows.length index
    rhs := if right < 0 then -right else right }

theorem getElem?_standardLines (p : LinearProgram) (surpluses : Nat) (rows : List Row)
    (index k : Nat) : (standardLines p surpluses rows index (p.surplusIndex index))[k]? =
      rows[k]?.map fun row =>
        standardLine p surpluses row (index + k) (p.surplusIndex (index + k)) := by
  induction rows generalizing index k with
  | nil => rfl
  | cons row rest ih =>
    cases k with
    | zero => rfl
    | succ k =>
      rw [standardLines, ← p.surplusIndex_succ, List.getElem?_cons_succ, ih, List.getElem?_cons_succ,
        Nat.add_right_comm index 1 k]
      rfl

/-- The lines of the standard form are those of the constraints. -/
theorem mem_standardForm {l : Line} : l ∈ (standardForm p).lines ↔ ∃ index row,
    p.rows[index]? = some row ∧
      l = standardLine p (p.rows.length - p.equalities.size) row index (p.surplusIndex index) := by
  have get := getElem?_standardLines p (p.rows.length - p.equalities.size) p.rows 0
  simp only [Nat.zero_add] at get
  rw [List.mem_iff_getElem?]
  refine exists_congr fun k => ?_
  rw [show (standardForm p).lines = standardLines p (p.rows.length - p.equalities.size) p.rows 0
    (p.surplusIndex 0) from rfl, get, Option.map_eq_some_iff]
  exact exists_congr fun row => and_congr_right fun _ => eq_comm

theorem length_left {row : Row} (width : row.length = p.variableCount + 1) (surpluses surplus : Nat)
    (equality : Bool) : (row.tail ++ Row.neg row.tail ++ if equality = true then Row.zero surpluses
      else Row.neg (Row.unit surpluses surplus)).length = 2 * p.variableCount + surpluses := by
  rw [List.length_append, List.length_append, Row.length_neg, List.length_tail, width]
  split
  · rw [Row.length_zero]
    omega
  · rw [Row.length_neg, Row.length_unit]
    omega

theorem length_standardLine {row : Row} (width : row.length = p.variableCount + 1)
    (surpluses index surplus : Nat) : (standardLine p surpluses row index surplus).entries.length =
      2 * p.variableCount + surpluses + p.rows.length := by
  have := length_left width surpluses surplus (p.equalities.contains index)
  simp only [standardLine]
  split
  · rw [List.length_append, Row.length_neg, this, Row.length_unit]
  · rw [List.length_append, this, Row.length_unit]

theorem entry_standardLine {row : Row} (width : row.length = p.variableCount + 1)
    (surpluses index surplus : Nat) {k : Nat} (hk : k < p.rows.length) :
    (standardLine p surpluses row index surplus).entry (2 * p.variableCount + surpluses + k) =
      if k = index then 1 else 0 := by
  have left := length_left width surpluses surplus (p.equalities.contains index)
  simp only [standardLine, Line.entry]
  rw [Row.entry_append_right, ← Row.entry_unit hk]
  · congr 1
    split
    · rw [Row.length_neg, left]
      omega
    · rw [left]
      omega
  · split
    · rw [Row.length_neg, left]
      omega
    · rw [left]
      omega

theorem canonical_standardForm (h : p.WellFormed) : (standardForm p).Canonical := by
  have widths {index : Nat} {row : Row} (at_index : p.rows[index]? = some row) :=
    h.rows row (List.mem_of_getElem? at_index)
  have index_lt {index : Nat} {row : Row} (at_index : p.rows[index]? = some row) :=
    (List.getElem?_eq_some_iff.1 at_index).1
  refine ⟨fun l hl => ?_, fun l hl => ?_, fun l hl => ?_, ?_⟩
  · obtain ⟨index, row, at_index, rfl⟩ := mem_standardForm.1 hl
    exact length_standardLine (widths at_index) _ _ _
  · obtain ⟨index, row, at_index, rfl⟩ := mem_standardForm.1 hl
    exact Nat.add_lt_add_left (index_lt at_index) _
  · obtain ⟨index, row, at_index, rfl⟩ := mem_standardForm.1 hl
    exact (entry_standardLine (widths at_index) _ _ _ (index_lt at_index)).trans (if_pos rfl)
  · rw [List.pairwise_iff_getElem]
    intro i k hi hk lt
    have get := getElem?_standardLines p (p.rows.length - p.equalities.size) p.rows 0
    simp only [Nat.zero_add] at get
    have line {i : Nat} (hi : i < (standardForm p).lines.length) : ∃ row, p.rows[i]? = some row ∧
        (standardForm p).lines[i] =
          standardLine p (p.rows.length - p.equalities.size) row i (p.surplusIndex i) := by
      have at_i := (List.getElem?_eq_getElem hi).symm.trans (get i)
      obtain ⟨row, at_row, e⟩ := Option.map_eq_some_iff.1 at_i.symm
      exact ⟨row, at_row, e.symm⟩
    obtain ⟨row, at_i, e⟩ := line hi
    obtain ⟨row', at_k, e'⟩ := line hk
    rw [e, e']
    exact ⟨(entry_standardLine (widths at_i) _ _ _ (index_lt at_k)).trans (if_neg (by omega)),
      (entry_standardLine (widths at_k) _ _ _ (index_lt at_i)).trans (if_neg (by omega))⟩

theorem rhs_nonneg_standardForm {l : Line} (hl : l ∈ (standardForm p).lines) : 0 ≤ l.rhs := by
  obtain ⟨index, row, -, rfl⟩ := mem_standardForm.1 hl
  simp only [standardLine]
  split <;> linarith

/-! ## Points and columns -/

/-- The values of the variables that the first columns stand for, each by two columns. -/
def differences (n : Nat) (y : Row) : Row :=
  (List.range n).map fun j => Row.entry y j - Row.entry y (n + j)

@[simp] theorem length_differences (n : Nat) (y : Row) : (differences n y).length = n := by
  simp [differences]

theorem entry_differences {n j : Nat} (h : j < n) (y : Row) :
    Row.entry (differences n y) j = Row.entry y j - Row.entry y (n + j) := Row.entry_map_range h _

theorem dot_differences {a : Row} {n : Nat} (width : a.length = n) (y : Row) :
    Row.dot a (differences n y) = Row.dot a y - Row.dot a (y.drop n) := by
  rw [Row.dot_eq_sum width.le, Row.dot_eq_sum width.le, Row.dot_eq_sum width.le,
    ← Finset.sum_sub_distrib]
  refine Finset.sum_congr rfl fun j hj => ?_
  rw [entry_differences (Finset.mem_range.1 hj), Row.entry_drop, mul_sub]

/-- A line of the standard form says that the artificial column makes up for the difference between
the constraint and its surplus. -/
theorem holds_standardLine {row : Row} (width : row.length = p.variableCount + 1)
    {surpluses index surplus : Nat} (hi : index < p.rows.length) {y : Row}
    (zero : Row.entry y (2 * p.variableCount + surpluses + index) = 0) :
    (standardLine p surpluses row index surplus).Holds y ↔
      Row.eval row (differences p.variableCount y) =
        if p.equalities.contains index then 0
        else if surplus < surpluses then Row.entry y (2 * p.variableCount + surplus) else 0 := by
  have tail : row.tail.length = p.variableCount := by rw [List.length_tail, width]; rfl
  have slack : Row.dot (if p.equalities.contains index = true then Row.zero surpluses
      else Row.neg (Row.unit surpluses surplus)) (y.drop (2 * p.variableCount)) =
        -if p.equalities.contains index then 0
        else if surplus < surpluses then Row.entry y (2 * p.variableCount + surplus) else 0 := by
    split
    · rw [Row.dot_zero, neg_zero]
    · rw [Row.dot_neg]
      split
      · rename_i lt
        rw [Row.dot_unit lt, Row.entry_drop]
      · rename_i ge
        rw [Row.dot_eq_sum (n := surpluses) (by simp), Finset.sum_eq_zero fun i hi => ?_]
        have := Finset.mem_range.1 hi
        rw [Row.entry_unit this, if_neg (by omega), zero_mul]
  have left := length_left width surpluses surplus (p.equalities.contains index)
  have dot_left : Row.dot (row.tail ++ Row.neg row.tail ++ if p.equalities.contains index = true then
      Row.zero surpluses else Row.neg (Row.unit surpluses surplus)) y =
        Row.dot row.tail (differences p.variableCount y) -
          if p.equalities.contains index then 0
          else if surplus < surpluses then Row.entry y (2 * p.variableCount + surplus) else 0 := by
    rw [Row.dot_append_left, Row.dot_append_left, Row.dot_neg, List.length_append, Row.length_neg,
      tail, ← two_mul, slack, dot_differences tail, ← sub_eq_add_neg, ← sub_eq_add_neg]
  rw [Row.eval]
  simp only [standardLine, Line.Holds]
  split
  · rw [Row.dot_append_left, Row.dot_neg, Row.length_neg, left, dot_left, Row.dot_unit hi,
      Row.entry_drop, zero]
    constructor <;> intro e <;> linarith
  · rw [Row.dot_append_left, left, dot_left, Row.dot_unit hi, Row.entry_drop, zero]
    constructor <;> intro e <;> linarith

/-- Nonnegative columns that satisfy the standard form without artificial columns give a feasible
point. -/
theorem feasible_differences (h : p.WellFormed) {y : Row} (holds : (standardForm p).Holds y)
    (nonneg : ∀ i, 0 ≤ Row.entry y i)
    (zero : ∀ i < (standardForm p).columns, (standardForm p).structural ≤ i → Row.entry y i = 0) :
    p.Feasible (differences p.variableCount y) := by
  refine ⟨length_differences _ _, fun index row at_index => ?_⟩
  have lt := (List.getElem?_eq_some_iff.1 at_index).1
  have art : Row.entry y
      (2 * p.variableCount + (p.rows.length - p.equalities.size) + index) = 0 :=
    zero _ (Nat.add_lt_add_left lt _) (Nat.le_add_right _ _)
  have eval := (holds_standardLine (h.rows row (List.mem_of_getElem? at_index)) lt art).1
    (holds _ (mem_standardForm.2 ⟨index, row, at_index, rfl⟩))
  rw [LinearProgram.Holds]
  split
  · rename_i equality
    rw [eval, if_pos (SortedSet.contains_iff.2 equality)]
  · rw [eval]
    split
    · exact le_rfl
    · split
      · exact nonneg _
      · exact le_rfl

/-- The surpluses of the constraints that are no equalities, from constraint `index` on. -/
def surpluses (p : LinearProgram) (x : Row) : List Row → Nat → Row
  | [], _ => []
  | row :: rest, index =>
    if p.equalities.contains index then surpluses p x rest (index + 1)
    else Row.eval row x :: surpluses p x rest (index + 1)

theorem entry_surpluses {x : Row} (rows : List Row) {index k : Nat} {row : Row}
    (at_k : rows[k]? = some row) (inequality : p.equalities.contains (index + k) = false)
    {before : Row} (width : before.length = p.surplusIndex index) :
    Row.entry (before ++ surpluses p x rows index) (p.surplusIndex (index + k)) = Row.eval row x := by
  induction rows generalizing index k before with
  | nil => cases at_k
  | cons head rest ih =>
    have succ := p.surplusIndex_succ index
    cases k with
    | zero =>
      cases at_k
      rw [Nat.add_zero] at inequality ⊢
      rw [surpluses, inequality, Row.entry_append_right width.le, width, Nat.sub_self]
      rfl
    | succ k =>
      rw [← Nat.succ_add_eq_add_succ] at inequality ⊢
      cases equality : p.equalities.contains index with
      | true =>
        rw [surpluses, if_pos equality]
        exact ih at_k inequality (by rw [width, succ, if_pos equality])
      | false =>
        rw [surpluses, equality, if_neg Bool.false_ne_true, List.append_cons]
        refine ih at_k inequality ?_
        rw [List.length_append, width, succ, equality]
        rfl

theorem surpluses_nonneg {x : Row} (rows : List Row) {index : Nat}
    (h : ∀ k row, rows[k]? = some row → p.Holds (index + k) row x) :
    ∀ v ∈ surpluses p x rows index, 0 ≤ v := by
  induction rows generalizing index with
  | nil => simp [surpluses]
  | cons head rest ih =>
    have later : ∀ v ∈ surpluses p x rest (index + 1), 0 ≤ v := ih fun k row at_k => by
      rw [Nat.succ_add_eq_add_succ]
      exact h (k + 1) row at_k
    rw [surpluses]
    split
    · exact later
    · rename_i inequality
      intro v hv
      rcases List.mem_cons.1 hv with rfl | hv
      · have := h 0 head rfl
        rwa [Nat.add_zero, LinearProgram.Holds,
          if_neg fun mem => inequality (SortedSet.contains_iff.2 mem)] at this
      · exact later v hv

theorem length_surpluses {x : Row} (rows : List Row) (index : Nat) :
    p.surplusIndex index + (surpluses p x rows index).length = p.surplusIndex (index + rows.length) := by
  induction rows generalizing index with
  | nil => rfl
  | cons head rest ih =>
    have succ := p.surplusIndex_succ index
    have later := ih (index + 1)
    rw [Nat.add_right_comm, Nat.add_assoc] at later
    rw [surpluses, List.length_cons, ← later, succ]
    split
    · rfl
    · rw [List.length_cons, Nat.add_assoc, Nat.add_comm 1]

/-- The columns of a point: positive parts, negative parts, surpluses, and nothing artificial. -/
def columnsOf (p : LinearProgram) (x : Row) : Row :=
  x.map (fun v => max v 0) ++ x.map (fun v => max (-v) 0) ++ surpluses p x p.rows 0 ++
    Row.zero p.rows.length

theorem columnsOf_nonneg {x : Row} (feasible : p.Feasible x) (i : Nat) :
    0 ≤ Row.entry (columnsOf p x) i := by
  refine Row.entry_nonneg (fun v hv => ?_) i
  simp only [columnsOf, List.mem_append, List.mem_map] at hv
  rcases hv with ((⟨a, -, rfl⟩ | ⟨a, -, rfl⟩) | surplus) | zero
  · exact le_max_right _ _
  · exact le_max_right _ _
  · refine surpluses_nonneg p.rows (fun k row at_k => ?_) v surplus
    rw [Nat.zero_add]
    exact feasible.2 k row at_k
  · exact (List.eq_of_mem_replicate zero).ge

theorem length_columnsOf_structural (h : p.WellFormed) {x : Row} (feasible : p.Feasible x) :
    (x.map (fun v => max v 0) ++ x.map (fun v => max (-v) 0) ++ surpluses p x p.rows 0).length =
      (standardForm p).structural := by
  have length := length_surpluses (x := x) p.rows (p := p) 0
  rw [Nat.zero_add, h.surplusIndex_length] at length
  rw [List.length_append, List.length_append, List.length_map, List.length_map, feasible.1, ← two_mul]
  exact congrArg _ ((Nat.zero_add _).symm.trans length)

/-- A feasible point gives columns that satisfy the standard form, none of them artificial. -/
theorem columnsOf_structural (h : p.WellFormed) {x : Row} (feasible : p.Feasible x) {i : Nat}
    (hi : (standardForm p).structural ≤ i) : Row.entry (columnsOf p x) i = 0 := by
  rw [columnsOf, Row.entry_append_zero, Row.entry_of_le]
  rwa [length_columnsOf_structural h feasible]

theorem differences_columnsOf {x : Row} (feasible : p.Feasible x) :
    differences p.variableCount (columnsOf p x) = x := by
  refine Row.eq_of_entry ((length_differences _ _).trans feasible.1.symm) fun j hj => ?_
  rw [length_differences] at hj
  have bound : j < x.length := by rwa [feasible.1]
  have positive : Row.entry (columnsOf p x) j = max (Row.entry x j) 0 := by
    rw [columnsOf, List.append_assoc, List.append_assoc, Row.entry_append_left (by simpa),
      Row.entry_map bound]
  have negative : Row.entry (columnsOf p x) (p.variableCount + j) = max (-Row.entry x j) 0 := by
    rw [columnsOf, List.append_assoc, List.append_assoc, Row.entry_append_right
      (by rw [List.length_map, feasible.1]; omega), List.length_map, feasible.1,
      Nat.add_sub_cancel_left, Row.entry_append_left (by simpa), Row.entry_map bound]
  rw [entry_differences hj, positive, negative, max_zero_sub_max_neg_zero_eq_self]

theorem holds_columnsOf (h : p.WellFormed) {x : Row} (feasible : p.Feasible x) :
    (standardForm p).Holds (columnsOf p x) := by
  intro l hl
  obtain ⟨index, row, at_index, rfl⟩ := mem_standardForm.1 hl
  have lt := (List.getElem?_eq_some_iff.1 at_index).1
  rw [holds_standardLine (h.rows row (List.mem_of_getElem? at_index)) lt
    (columnsOf_structural h feasible (Nat.le_add_right _ _)), differences_columnsOf feasible]
  have sat := feasible.2 index row at_index
  rw [LinearProgram.Holds] at sat
  split
  · rename_i equality
    rwa [if_pos (SortedSet.contains_iff.1 equality)] at sat
  · rename_i inequality
    have inequality := Bool.eq_false_iff.2 inequality
    have smaller : p.surplusIndex index < p.rows.length - p.equalities.size := by
      have := p.surplusIndex_succ index
      rw [inequality, if_neg Bool.false_ne_true] at this
      have := LinearProgram.surplusIndex_mono (p := p) (show index + 1 ≤ p.rows.length from lt)
      rw [h.surplusIndex_length] at this
      omega
    have surplus : Row.entry ([] ++ surpluses p x p.rows 0) (p.surplusIndex (0 + index)) = Row.eval row x :=
      entry_surpluses p.rows at_index (by rwa [Nat.zero_add]) rfl
    rw [Nat.zero_add, List.nil_append] at surplus
    have before : 2 * p.variableCount = (x.map (fun v => max v 0) ++ x.map (fun v => max (-v) 0)).length := by
      rw [List.length_append, List.length_map, List.length_map, feasible.1, two_mul]
    rw [if_pos smaller, columnsOf, Row.entry_append_zero, Row.entry_append_right (by omega), before,
      Nat.add_sub_cancel_left, surplus]

end Tableau

end Prevision
