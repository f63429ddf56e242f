import Mathlib.LinearAlgebra.Dimension.OrzechProperty
import Mathlib.LinearAlgebra.FiniteDimensional.Lemmas
import Prevision.Proofs.Linear.Vectors

/-!
# Independent rows

Rows span no more dimensions than they are (`finrank_span_vectors_le`), and
exactly as many when they are independent (`finrank_span_of_linearIndependent`,
`linearIndependent_of_length_le`). A row that independent rows do not span is
independent of them (`linearIndependent_cons`), so taking each row that those
after it do not span gives independent rows that span what all span
(`exists_independent_sublist`).
-/

namespace Prevision.Row

variable {n : ℕ} {rows chosen : List Row} {row : Row}

theorem range_toVector (rows : List Row) :
    Set.range (fun i => toVector n (rows.get i)) = vectors n rows := by
  ext v
  constructor
  · rintro ⟨i, rfl⟩
    exact toVector_mem_vectors (List.getElem_mem _)
  · rintro ⟨l, hl, rfl⟩
    obtain ⟨i, hi, rfl⟩ := List.getElem_of_mem hl
    exact ⟨⟨i, hi⟩, rfl⟩

/-- Rows span no more dimensions than they are. -/
theorem finrank_span_vectors_le (n : ℕ) (rows : List Row) :
    Module.finrank ℚ (Submodule.span ℚ (vectors n rows)) ≤ rows.length := by
  have count := finrank_range_le_card (R := ℚ) fun i => toVector n (rows.get i)
  rwa [Set.finrank, range_toVector, Fintype.card_fin] at count

/-- Rows are independent if they are no more than the dimension of what they span. -/
theorem linearIndependent_of_length_le
    (count : rows.length ≤ Module.finrank ℚ (Submodule.span ℚ (vectors n rows))) :
    LinearIndependent ℚ fun i => toVector n (rows.get i) := by
  rw [linearIndependent_iff_card_le_finrank_span, Set.finrank, range_toVector, Fintype.card_fin]
  exact count

/-- Independent rows are as many as the dimension of what they span. -/
theorem finrank_span_of_linearIndependent
    (independent : LinearIndependent ℚ fun i => toVector n (rows.get i)) :
    Module.finrank ℚ (Submodule.span ℚ (vectors n rows)) = rows.length := by
  rw [← range_toVector, finrank_span_eq_card independent, Fintype.card_fin]

/-- A row that independent rows do not span is independent of them. -/
theorem linearIndependent_cons (independent : LinearIndependent ℚ fun i => toVector n (rows.get i))
    (free : toVector n row ∉ Submodule.span ℚ (vectors n rows)) :
    LinearIndependent ℚ fun i => toVector n ((row :: rows).get i) := by
  have more : Submodule.span ℚ (vectors n rows) < Submodule.span ℚ (vectors n (row :: rows)) := by
    refine lt_of_le_of_ne (Submodule.span_mono (vectors_mono (List.subset_cons_self _ _))) fun e => free ?_
    rw [e]
    exact Submodule.subset_span (toVector_mem_vectors List.mem_cons_self)
  have larger := Submodule.finrank_lt_finrank_of_lt more
  rw [finrank_span_of_linearIndependent independent] at larger
  exact linearIndependent_of_length_le larger

/-- Some of the rows are independent and span what all span: each row is taken that those after it
do not span. -/
theorem exists_independent_sublist (n : ℕ) (rows : List Row) :
    ∃ chosen, chosen.Sublist rows ∧ (LinearIndependent ℚ fun i => toVector n (chosen.get i)) ∧
      Submodule.span ℚ (vectors n chosen) = Submodule.span ℚ (vectors n rows) := by
  induction rows with
  | nil => exact ⟨[], .slnil, linearIndependent_of_length_le (Nat.zero_le _), rfl⟩
  | cons row rest ih =>
    obtain ⟨chosen, sub, independent, same⟩ := ih
    by_cases spanned : toVector n row ∈ Submodule.span ℚ (vectors n rest)
    · refine ⟨chosen, sub.cons row, independent, ?_⟩
      rw [same, vectors_cons, Submodule.span_insert_eq_span spanned]
    · refine ⟨row :: chosen, sub.cons_cons row, linearIndependent_cons independent (same ▸ spanned), ?_⟩
      rw [vectors_cons, vectors_cons, Submodule.span_insert, Submodule.span_insert, same]

end Prevision.Row
