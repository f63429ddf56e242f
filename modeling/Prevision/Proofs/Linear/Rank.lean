import Prevision.Linear.Rank
import Prevision.Proofs.Linear.Independence

/-!
# The rank of rows

Elimination counts the rows that it brings into echelon form. In a column where
none of the other rows has an entry it changes nothing (`step_of_forall_eq_zero`);
otherwise one of them comes behind the rows in echelon form, and clears the
column from the rest (`exists_step_eq`). Either way the rows span what they
spanned before, those in echelon form stay in it, and the others begin past the
column (`Reduced.step`, and `reduced_run` for all columns).

After the last column the other rows are zero. Rows in echelon form are
independent (`IsEchelon.linearIndependent`), so their number is the dimension of
what all rows span, and the greatest number of independent rows (`rank_isGreatest`).
-/

namespace Prevision

open Row (entry toVector vectors vectors_append toVector_mem_vectors)

variable {n k i j : ℕ} {rows rest : List Row} {row lead : Row} {e e' : Elimination}

/-! ## Echelon form -/

namespace Row

/-- The column in which a row begins, and the width of a row of zeros. -/
def leadColumn (row : Row) : ℕ := row.findIdx (· != 0)

theorem entry_eq_zero_of_lt_leadColumn (h : j < leadColumn row) : entry row j = 0 := by
  rw [entry_eq_getElem (h.trans_le List.findIdx_le_length)]
  simpa using List.not_of_lt_findIdx h

theorem entry_leadColumn_ne_zero (h : leadColumn row < row.length) : entry row (leadColumn row) ≠ 0 := by
  rw [entry_eq_getElem h]
  exact bne_iff_ne.1 (List.findIdx_getElem (w := h))

theorem leadColumn_eq (before : ∀ j < k, entry row j = 0) (nonzero : entry row k ≠ 0) :
    leadColumn row = k := by
  have inside : k < row.length := lt_of_not_ge fun past => nonzero (entry_of_le past)
  refine le_antisymm (not_lt.1 fun late => nonzero (entry_eq_zero_of_lt_leadColumn late)) ?_
  refine not_lt.1 fun early => entry_leadColumn_ne_zero (early.trans inside) (before _ early)

/-- Each row begins further right than those before it. -/
def IsEchelon (rows : List Row) : Prop := rows.Pairwise fun r s => leadColumn r < leadColumn s

theorem apply_eq_zero_of_mem_span {v : Fin n → ℚ} {i : Fin n} (zero : ∀ row ∈ rows, entry row i = 0)
    (mem : v ∈ Submodule.span ℚ (vectors n rows)) : v i = 0 := by
  have inside :
      Submodule.span ℚ (vectors n rows) ≤ LinearMap.ker (LinearMap.proj i : (Fin n → ℚ) →ₗ[ℚ] ℚ) := by
    rw [Submodule.span_le]
    rintro _ ⟨row, hr, rfl⟩
    exact zero row hr
  exact inside mem

/-- Rows in echelon form, none of them zero, are independent: no row has an entry in the column
in which one before it begins. -/
theorem IsEchelon.linearIndependent (h : IsEchelon rows) (width : ∀ row ∈ rows, row.length = n)
    (begun : ∀ row ∈ rows, leadColumn row < n) :
    LinearIndependent ℚ fun i => toVector n (rows.get i) := by
  induction rows with
  | nil => exact linearIndependent_of_length_le (Nat.zero_le _)
  | cons row rest ih =>
    obtain ⟨before, echelon⟩ := List.pairwise_cons.1 h
    obtain ⟨inside, begun⟩ := List.forall_mem_cons.1 begun
    obtain ⟨rowWidth, width⟩ := List.forall_mem_cons.1 width
    refine linearIndependent_cons (ih echelon width begun) fun spanned => ?_
    have zero : entry row (leadColumn row) = 0 :=
      apply_eq_zero_of_mem_span (i := ⟨leadColumn row, inside⟩)
        (fun r hr => entry_eq_zero_of_lt_leadColumn (before r hr)) spanned
    exact entry_leadColumn_ne_zero (inside.trans_eq rowWidth.symm) zero

end Row

namespace Elimination

open Row (IsEchelon leadColumn)

/-! ## One column -/

/-- An exchange with a later row brings it behind the rows in front, and permutes the others. -/
theorem exists_exchange_eq (le : i ≤ j) (hj : j < rows.length) :
    ∃ rest, exchange rows i j = rows.take i ++ rows[j] :: rest ∧
      (rows[j] :: rest).Perm (rows.drop i) := by
  have hi := le.trans_lt hj
  have perm : (exchange rows i j).Perm rows := by
    rw [exchange, List.getD_eq_getElem _ _ hi, List.getD_eq_getElem _ _ hj]
    exact List.set_set_perm hi hj
  have front : (exchange rows i j).take i = rows.take i := by
    rw [exchange, List.take_set_of_le le, List.take_set_of_le le_rfl]
  have length : i < (exchange rows i j).length := by rwa [perm.length_eq]
  have at_i : (exchange rows i j)[i] = rows[j] := by
    simp only [exchange, List.getElem_set, List.getD_eq_getElem _ _ hj]
    grind
  have split : exchange rows i j = rows.take i ++ rows[j] :: (exchange rows i j).drop (i + 1) := by
    rw [← at_i, ← List.drop_eq_getElem_cons length, ← front, List.take_append_drop]
  refine ⟨_, split, (List.perm_append_left_iff (rows.take i)).1 ?_⟩
  rw [← split, List.take_append_drop]
  exact perm

/-- The rows in echelon form. -/
def front (e : Elimination) : List Row := e.rows.take e.rank

/-- The rows that are not yet in echelon form. -/
def back (e : Elimination) : List Row := e.rows.drop e.rank

theorem front_append_back (e : Elimination) : e.front ++ e.back = e.rows := List.take_append_drop _ _

theorem step_of_forall_eq_zero (zero : ∀ row ∈ e.back, entry row k = 0) : e.step k = e := by
  have none : e.pivot? k = none := by
    rw [pivot?, Option.map_eq_none_iff, List.findIdx?_eq_none_iff]
    exact fun row hr => bne_eq_false_iff_eq.2 (zero row hr)
  rw [step, none]

/-- Where some of the other rows have an entry in the column, one of them comes behind the rows in
echelon form, and clears the column from the rest. -/
theorem exists_step_eq (length : e.front.length = e.rank) (entries : ¬∀ row ∈ e.back, entry row k = 0) :
    ∃ lead rest, entry lead k ≠ 0 ∧ (lead :: rest).Perm e.back ∧ (e.step k).rank = e.rank + 1 ∧
      (e.step k).front = e.front ++ [lead] ∧ (e.step k).back = rest.map (clear k lead) := by
  cases found : e.back.findIdx? fun row => entry row k != 0 with
  | none =>
    refine absurd (fun row hr => ?_) entries
    exact bne_eq_false_iff_eq.1 (List.findIdx?_eq_none_iff.1 found row hr)
  | some i =>
    obtain ⟨hi, nonzero, -⟩ := List.findIdx?_eq_some_iff_getElem.1 found
    rw [bne_iff_ne] at nonzero
    simp only [back, List.getElem_drop, List.length_drop] at hi nonzero
    have inside : e.rank + i < e.rows.length := by omega
    obtain ⟨rest, exchanged, perm⟩ := exists_exchange_eq (Nat.le_add_right e.rank i) inside
    set lead := e.rows[e.rank + i]
    have at_rank : (e.front ++ lead :: rest).getD e.rank [] = lead := by
      rw [List.getD_append_right _ _ _ _ length.le, length, Nat.sub_self, List.getD_cons_zero]
    have longer : (e.front ++ [lead]).length = e.rank + 1 := by rw [List.length_append, length]; rfl
    have stepped : e.step k = ⟨(e.front ++ [lead]) ++ rest.map (clear k lead), e.rank + 1⟩ := by
      rw [← front] at exchanged
      rw [step, pivot?, ← back, found, Option.map_some]
      simp only [exchanged, at_rank]
      rw [List.append_cons, List.take_left' longer, List.drop_left' longer]
    rw [stepped]
    exact ⟨lead, rest, nonzero, perm, rfl, List.take_left' longer, List.drop_left' longer⟩

theorem length_clear (width : row.length = lead.length) : (clear k lead row).length = row.length := by
  unfold clear
  split
  · rfl
  · exact Row.length_subMul _ width

theorem entry_clear_of_eq_zero (width : row.length = lead.length) (zero : entry row j = 0)
    (leadZero : entry lead j = 0) : entry (clear k lead row) j = 0 := by
  unfold clear
  split
  · exact zero
  · rw [Row.entry_subMul _ width, zero, leadZero, mul_zero, sub_zero]

theorem entry_clear (width : row.length = lead.length) (nonzero : entry lead k ≠ 0) :
    entry (clear k lead row) k = 0 := by
  unfold clear
  split
  · assumption
  · rw [Row.entry_subMul _ width, div_mul_cancel₀ _ nonzero, sub_self]

/-- A row differs from the cleared one by a multiple of the lead. -/
theorem exists_toVector_clear (n : ℕ) (width : row.length = lead.length) :
    ∃ c : ℚ, toVector n (clear k lead row) = toVector n row - c • toVector n lead := by
  unfold clear
  split
  · exact ⟨0, by rw [zero_smul, sub_zero]⟩
  · exact ⟨_, Row.toVector_subMul _ width⟩

theorem span_cons_le {rows' : List Row}
    (mem : ∀ row ∈ rows, toVector n row ∈ Submodule.span ℚ (vectors n (lead :: rows'))) :
    Submodule.span ℚ (vectors n (lead :: rows)) ≤ Submodule.span ℚ (vectors n (lead :: rows')) := by
  rw [Submodule.span_le]
  rintro _ ⟨row, hr, rfl⟩
  rcases List.mem_cons.1 hr with rfl | hr
  · exact Submodule.subset_span (toVector_mem_vectors List.mem_cons_self)
  · exact mem row hr

/-- Clearing a column from some rows changes nothing in what they and the lead span. -/
theorem span_clear (n k : ℕ) (width : ∀ row ∈ rest, row.length = lead.length) :
    Submodule.span ℚ (vectors n (lead :: rest.map (clear k lead))) =
      Submodule.span ℚ (vectors n (lead :: rest)) := by
  have mem {row : Row} {rows : List Row} (hr : row ∈ rows) :=
    Submodule.subset_span (R := ℚ) (toVector_mem_vectors (d := n) hr)
  refine le_antisymm (span_cons_le fun r cleared => ?_) (span_cons_le fun row hr => ?_)
  · obtain ⟨row, hr, rfl⟩ := List.mem_map.1 cleared
    obtain ⟨c, eq⟩ := exists_toVector_clear (k := k) n (width row hr)
    rw [eq]
    exact Submodule.sub_mem _ (mem (List.mem_cons_of_mem _ hr))
      (Submodule.smul_mem _ c (mem List.mem_cons_self))
  · obtain ⟨c, eq⟩ := exists_toVector_clear (k := k) n (width row hr)
    rw [eq_add_of_sub_eq eq.symm]
    exact Submodule.add_mem _ (mem (List.mem_cons_of_mem _ (List.mem_map_of_mem hr)))
      (Submodule.smul_mem _ c (mem List.mem_cons_self))

/-! ## All columns -/

/-- What elimination in the first `k` columns leaves of rows of width `n`. -/
structure Reduced (rows : List Row) (n k : ℕ) (e : Elimination) : Prop where
  length_front : e.front.length = e.rank
  width : ∀ row ∈ e.rows, row.length = n
  span_eq : Submodule.span ℚ (vectors n e.rows) = Submodule.span ℚ (vectors n rows)
  isEchelon : IsEchelon e.front
  leadColumn_lt : ∀ row ∈ e.front, leadColumn row < k
  entry_eq_zero : ∀ row ∈ e.back, ∀ j < k, entry row j = 0

theorem reduced_zero (width : ∀ row ∈ rows, row.length = n) : Reduced rows n 0 ⟨rows, 0⟩ where
  length_front := rfl
  width := width
  span_eq := rfl
  isEchelon := .nil
  leadColumn_lt _ mem := absurd mem List.not_mem_nil
  entry_eq_zero _ _ j hj := absurd hj (Nat.not_lt_zero j)

/-- A row of the others that has an entry in the column comes behind those in echelon form, and
clears the column from the rest. -/
theorem Reduced.advance (h : e.Reduced rows n k) (nonzero : entry lead k ≠ 0)
    (perm : (lead :: rest).Perm e.back) (rank : e'.rank = e.rank + 1) (front : e'.front = e.front ++ [lead])
    (back : e'.back = rest.map (clear k lead)) : e'.Reduced rows n (k + 1) := by
  have inBack : ∀ row ∈ lead :: rest, row ∈ e.back := fun row mem => perm.subset mem
  obtain ⟨leadZero, zero⟩ := List.forall_mem_cons.1 fun row mem => h.entry_eq_zero row (inBack row mem)
  have begins : leadColumn lead = k := Row.leadColumn_eq leadZero nonzero
  obtain ⟨widthFront, widthBack⟩ := List.forall_mem_append.1 (e.front_append_back.symm ▸ h.width)
  obtain ⟨widthLead, widthRest⟩ := List.forall_mem_cons.1 fun row mem => widthBack row (inBack row mem)
  have same : ∀ row ∈ rest, row.length = lead.length :=
    fun row mem => (widthRest row mem).trans widthLead.symm
  have split : e'.rows = e.front ++ lead :: rest.map (clear k lead) := by
    rw [← e'.front_append_back, front, back, List.append_assoc, List.singleton_append]
  refine ⟨?_, ?_, ?_, ?_, ?_, ?_⟩
  · rw [front, rank, List.length_append, h.length_front, List.length_singleton]
  · rw [split, List.forall_mem_append, List.forall_mem_cons, List.forall_mem_map]
    exact ⟨widthFront, widthLead, fun row mem => (length_clear (same row mem)).trans (widthRest row mem)⟩
  · rw [← h.span_eq, split, ← e.front_append_back, vectors_append, vectors_append, Submodule.span_union,
      Submodule.span_union, span_clear n k same,
      (Row.vectors_mono perm.subset).antisymm (Row.vectors_mono perm.symm.subset)]
  · rw [front]
    refine List.pairwise_append.2 ⟨h.isEchelon, List.pairwise_singleton _ _, fun row mem r new => ?_⟩
    rw [List.mem_singleton.1 new, begins]
    exact h.leadColumn_lt row mem
  · rw [front, List.forall_mem_append, List.forall_mem_singleton, begins]
    exact ⟨fun row mem => (h.leadColumn_lt row mem).trans (Nat.lt_succ_self k), Nat.lt_succ_self k⟩
  · rw [back, List.forall_mem_map]
    refine fun row mem => Nat.forall_lt_succ_right.2 ⟨fun j hj => ?_, entry_clear (same row mem) nonzero⟩
    exact entry_clear_of_eq_zero (same row mem) (zero row mem j hj) (leadZero j hj)

/-- Elimination in one more column. -/
theorem Reduced.step (h : e.Reduced rows n k) : (e.step k).Reduced rows n (k + 1) := by
  by_cases zero : ∀ row ∈ e.back, entry row k = 0
  · rw [step_of_forall_eq_zero zero]
    exact { h with
      leadColumn_lt := fun row mem => (h.leadColumn_lt row mem).trans (Nat.lt_succ_self k)
      entry_eq_zero := fun row mem => Nat.forall_lt_succ_right.2 ⟨h.entry_eq_zero row mem, zero row mem⟩ }
  · obtain ⟨lead, rest, nonzero, perm, rank, front, back⟩ := exists_step_eq h.length_front zero
    exact h.advance nonzero perm rank front back

/-- Elimination in the first columns. The induction is on their number. -/
theorem reduced_run (width : ∀ row ∈ rows, row.length = n) (k : ℕ) : (run rows k).Reduced rows n k := by
  induction k with
  | zero => exact reduced_zero width
  | succ k ih =>
    rw [run, List.range_succ, List.foldl_append]
    exact ih.step

example : (run [[0, 1, 0], [0, 1, 1], [1, 0, 0]] 2).rows = [[1, 0, 0], [0, 1, 1], [0, 0, -1]] := by
  decide +kernel

/-- After the last column the rows that are not in echelon form are zero. -/
theorem Reduced.rank_eq_finrank (h : e.Reduced rows n n) :
    e.rank = Module.finrank ℚ (Submodule.span ℚ (vectors n rows)) := by
  have none : Submodule.span ℚ (vectors n e.back) = ⊥ := by
    rw [Submodule.span_eq_bot]
    rintro _ ⟨row, mem, rfl⟩
    exact funext fun i => h.entry_eq_zero row mem i i.isLt
  have width : ∀ row ∈ e.front, row.length = n := fun row mem => h.width row (List.mem_of_mem_take mem)
  rw [← h.span_eq, ← e.front_append_back, vectors_append, Submodule.span_union, none, sup_bot_eq,
    Row.finrank_span_of_linearIndependent (h.isEchelon.linearIndependent width h.leadColumn_lt),
    h.length_front]

end Elimination

/-! ## The rank -/

namespace Row

/-- The rank of rows of one width is the dimension of what they span. -/
theorem rank_eq_finrank (width : ∀ row ∈ rows, row.length = n) :
    rank rows = Module.finrank ℚ (Submodule.span ℚ (vectors n rows)) := by
  cases rows with
  | nil => exact (Nat.le_zero.1 (finrank_span_vectors_le n [])).symm
  | cons row rest =>
    rw [rank, List.headD_cons, width row List.mem_cons_self]
    exact (Elimination.reduced_run width n).rank_eq_finrank

/-- The rank of rows of one width is the greatest number of independent ones among them, and the
dimension of what they span. -/
theorem rank_isGreatest (width : ∀ row ∈ rows, row.length = n) :
    IsGreatest {k | ∃ chosen : List Row, chosen.Sublist rows ∧ chosen.length = k ∧
        LinearIndependent ℚ fun i => toVector n (chosen.get i)} (rank rows) ∧
      rank rows = Module.finrank ℚ (Submodule.span ℚ (vectors n rows)) := by
  have dimension := rank_eq_finrank width
  refine ⟨⟨?_, ?_⟩, dimension⟩
  · obtain ⟨chosen, sub, independent, same⟩ := exists_independent_sublist n rows
    refine ⟨chosen, sub, ?_, independent⟩
    rw [dimension, ← same, finrank_span_of_linearIndependent independent]
  · rintro _ ⟨chosen, sub, rfl, independent⟩
    rw [dimension, ← finrank_span_of_linearIndependent independent]
    exact Submodule.finrank_mono (Submodule.span_mono (vectors_mono sub.subset))

theorem rank_isGreatest_repeated :
    let rows : List Row := [[0, 0, 0], [0, 2, 4], [1, 1, 1], [0, 1, 2], [2, 3, 4], [1, 1, 1]]
    (∀ row ∈ rows, row.length = 3) ∧ rank rows = 2 ∧
      IsGreatest {k | ∃ chosen : List Row, chosen.Sublist rows ∧ chosen.length = k ∧
          LinearIndependent ℚ fun i => toVector 3 (chosen.get i)} 2 ∧
        2 = Module.finrank ℚ (Submodule.span ℚ (vectors 3 rows)) := by
  intro rows
  have width : ∀ row ∈ rows, row.length = 3 := by decide
  have rank : rank rows = 2 := by decide +kernel
  exact ⟨width, rank, rank ▸ rank_isGreatest width⟩

end Row

end Prevision
