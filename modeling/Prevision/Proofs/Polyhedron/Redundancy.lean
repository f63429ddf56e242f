import Prevision.Proofs.Linear.Rank
import Prevision.Proofs.Polyhedron.Conversion
import Prevision.Proofs.Polyhedron.Relative

/-!
# Redundant rows

The rows of a description that are one on a common vector and not redundant
are those that are extreme among the combinations of all of them
(`definesFacet_iff`): the test compares the rank of the generators that meet a
row with equality to the rank of all generators. A scan leaves out nothing
else, as no two rows define the same facet (`mem_scanRows_iff`).
-/

namespace Prevision

open Enumeration (Generators)
open Row (toForm toVector vectors toVector_mem_vectors vectors_append)

namespace DoubleDescription

variable {g : Generators} {d : ℕ} {rows : List Row} {row : Row}

/-- Whether a row defines a facet of the cone of some generators. -/
def definesFacet (g : Generators) (row : Row) : Bool := spansFacet g (tightRays g.rays row)

/-! ## The scan -/

/-- The sets of generators that rows meet with equality, of those that are not linear. -/
def tightSets (g : Generators) (list : List (Row × Bool)) : List (List ℕ) :=
  (list.filter fun c => !c.2).map fun c => tightRays g.rays c.1

/-- Whether a scan that has met some facets and rows reports another row: it is not linear, and
defines no facet or one met before. -/
def Reported (g : Generators) (seen : List (List ℕ)) (before : List (Row × Bool)) (c : Row × Bool) : Prop :=
  c.2 = false ∧ (definesFacet g c.1 = true →
    tightRays g.rays c.1 ∈ seen ∨ tightRays g.rays c.1 ∈ tightSets g before)

section Scan

variable {seen : List (List ℕ)} {before rest list : List (Row × Bool)} {c : Row × Bool} {k i : ℕ}

theorem mem_tightSets {t : List ℕ} :
    t ∈ tightSets g list ↔ ∃ row, (row, false) ∈ list ∧ tightRays g.rays row = t := by
  simp [tightSets]

theorem reported_nil :
    Reported g seen [] (row, false) ↔ (definesFacet g row = true → tightRays g.rays row ∈ seen) := by
  simp [Reported, tightSets]

theorem reported_cons_linear : Reported g seen ((row, true) :: before) c ↔ Reported g seen before c := Iff.rfl

theorem reported_cons_facet :
    Reported g seen ((row, false) :: before) c ↔ Reported g (tightRays g.rays row :: seen) before c := by
  refine and_congr_right fun _ => imp_congr_right fun _ => ?_
  rw [show tightSets g ((row, false) :: before) = tightRays g.rays row :: tightSets g before from rfl,
    List.mem_cons, List.mem_cons, or_left_comm, or_assoc]

/-- A row that is itself reported does not make another one reported. -/
theorem reported_cons_reported (reported : Reported g seen [] (row, false)) :
    Reported g seen ((row, false) :: before) c ↔ Reported g seen before c := by
  rw [reported_cons_facet]
  refine and_congr_right fun _ => imp_congr_right fun facet => or_congr_left ?_
  refine List.mem_cons.trans (or_iff_right_of_imp fun same => ?_)
  rw [definesFacet, same] at facet
  exact same ▸ reported_nil.1 reported facet

/-- A position in a list, counted from a number on, is the first or one in the rest. -/
theorem exists_position_cons {α : Type} {P : ℕ → α → Prop} {x : α} {rest : List α} :
    (∃ j r, (x :: rest)[j]? = some r ∧ i = k + j ∧ P j r) ↔
      (i = k ∧ P 0 x) ∨ ∃ j r, rest[j]? = some r ∧ i = k + 1 + j ∧ P (j + 1) r := by
  constructor
  · rintro ⟨j, r, at_j, rfl, holds⟩
    cases j with
    | zero =>
      cases at_j
      exact .inl ⟨rfl, holds⟩
    | succ j => exact .inr ⟨j, r, at_j, by omega, holds⟩
  · rintro (⟨rfl, holds⟩ | ⟨j, r, at_j, rfl, holds⟩)
    · exact ⟨0, x, rfl, rfl, holds⟩
    · exact ⟨j + 1, r, at_j, by omega, holds⟩

/-- What a scan reports. The induction is on the list, for all numbers and facets met so far. -/
theorem mem_scanRows : i ∈ scanRows g list k seen ↔
    ∃ j c, list[j]? = some c ∧ i = k + j ∧ Reported g seen (list.take j) c := by
  induction list generalizing k seen with
  | nil => simp [scanRows]
  | cons r rest ih =>
    obtain ⟨row, linear⟩ := r
    rw [exists_position_cons]
    simp only [List.take_succ_cons, List.take_zero]
    cases linear with
    | true =>
      simp only [scanRows, reported_cons_linear, ih]
      exact (or_iff_right fun h => Bool.noConfusion h.2.1).symm
    | false =>
      have test : (spansFacet g (tightRays g.rays row) && !seen.contains (tightRays g.rays row)) = true ↔
          ¬Reported g seen [] (row, false) := by
        rw [reported_nil, Bool.and_eq_true, Bool.not_eq_true', List.contains_eq_mem,
          decide_eq_false_iff_not, Classical.not_imp]
        rfl
      rw [scanRows]
      by_cases reported : Reported g seen [] (row, false)
      · simp only [test, reported, not_true_eq_false, if_false, List.mem_cons,
          reported_cons_reported reported, ih, and_true]
      · simp only [test, reported, not_false_eq_true, if_true, reported_cons_facet, ih, and_false, false_or]

/-- If no two rows define the same facet, a scan reports those that define none. -/
theorem mem_scanRows_iff
    (apart : rows.Pairwise fun r s => definesFacet g r → definesFacet g s →
      tightRays g.rays r ≠ tightRays g.rays s) :
    i ∈ scanRows g (rows.map fun row => (row, false)) 0 [] ↔
      ∃ row, rows[i]? = some row ∧ definesFacet g row = false := by
  rw [mem_scanRows]
  constructor
  · rintro ⟨j, c, at_j, rfl, -, met⟩
    rw [List.getElem?_map, Option.map_eq_some_iff] at at_j
    obtain ⟨row, at_j, rfl⟩ := at_j
    rw [Nat.zero_add]
    refine ⟨row, at_j, Bool.eq_false_iff.2 fun facet => ?_⟩
    obtain ⟨r, hr, same⟩ := mem_tightSets.1 ((met facet).resolve_left List.not_mem_nil)
    rw [← List.map_take, List.mem_map] at hr
    obtain ⟨_, hr, ⟨⟩⟩ := hr
    have later : row ∈ rows.drop j :=
      List.mem_of_getElem? (i := 0) (by rw [List.getElem?_drop, Nat.add_zero, at_j])
    have facet' : definesFacet g r = true := by
      rw [definesFacet, same]
      exact facet
    rw [← List.take_append_drop j rows, List.pairwise_append] at apart
    exact apart.2.2 r hr row later facet' facet same
  · rintro ⟨row, at_i, none⟩
    refine ⟨i, (row, false),
      by rw [List.getElem?_map, at_i, Option.map_some], (Nat.zero_add i).symm, rfl, fun facet => ?_⟩
    exact absurd facet (Bool.eq_false_iff.1 none)

end Scan

/-! ## The rank test -/

/-- The rays at the positions listed are those that meet the constraint with equality. -/
theorem map_tightRays (rays : List Row) (h : Row) :
    (tightRays rays h).map (rays.getD · []) = rays.filter fun r => Row.dot h r == 0 := by
  have at_position : ∀ r ∈ rays.zipIdx.filter fun r => Row.dot h r.1 == 0, rays.getD r.2 [] = r.1 :=
    fun r hr => by
    have at_r := List.mem_zipIdx_iff_getElem?.1 (List.mem_filter.1 hr).1
    rw [List.getD_eq_getElem?_getD, at_r, Option.getD_some]
  rw [tightRays, List.map_map]
  refine (List.map_congr_left at_position).trans ?_
  conv_rhs => rw [← List.zipIdx_map_fst 0 rays, List.filter_map]
  rfl

theorem vectors_tightRays (width : ∀ r ∈ g.rays, r.length = d) (row : Row) :
    vectors d ((tightRays g.rays row).map (g.rays.getD · [])) =
      {v ∈ vectors d g.rays | toForm d row v = 0} := by
  rw [map_tightRays]
  ext v
  constructor
  · rintro ⟨r, hr, rfl⟩
    obtain ⟨mem, zero⟩ := List.mem_filter.1 hr
    refine ⟨toVector_mem_vectors mem, ?_⟩
    rw [Row.toForm_toVector row (width r mem)]
    exact beq_iff_eq.1 zero
  · rintro ⟨⟨r, hr, rfl⟩, zero⟩
    rw [Row.toForm_toVector row (width r hr)] at zero
    exact toVector_mem_vectors (List.mem_filter.2 ⟨hr, beq_iff_eq.2 zero⟩)

/-- The space spanned by the generators that meet a row with equality. -/
theorem facetSpan_eq (width : ∀ r ∈ g.rays, r.length = d) (row : Row) :
    facetSpan (vectors d g.rays) (Submodule.span ℚ (vectors d g.lines)) (toForm d row) =
      Submodule.span ℚ (vectors d ((tightRays g.rays row).map (g.rays.getD · []) ++ g.lines)) := by
  rw [facetSpan, vectors_append, vectors_tightRays width, Submodule.span_union]

/-- A row defines a facet if its form does. -/
theorem definesFacet_iff_isFacet {cs : List (Row × Bool)} (spans : g.Spans d cs) (row : Row) :
    definesFacet g row = true ↔
    Bounds.IsFacet (vectors d g.rays) (Submodule.span ℚ (vectors d g.lines)) (toForm d row) := by
  have tightWidth : ∀ r ∈ (tightRays g.rays row).map (g.rays.getD · []) ++ g.lines, r.length = d :=
    fun r mem => by
    rcases List.mem_append.1 mem with tight | line
    · rw [map_tightRays] at tight
      exact spans.rayWidth r (List.mem_filter.1 tight).1
    · exact spans.lineWidth r line
  have width : ∀ r ∈ g.rays ++ g.lines, r.length = d := fun r mem =>
    (List.mem_append.1 mem).elim (spans.rayWidth r) (spans.lineWidth r)
  rw [definesFacet, spansFacet, beq_iff_eq, Row.rank_eq_finrank tightWidth, Row.rank_eq_finrank width,
    ← facetSpan_eq spans.rayWidth, vectors_append, Submodule.span_union, Bounds.IsFacet]

theorem facetSpan_eq_of_tightRays_eq {cs : List (Row × Bool)} {row' : Row} (spans : g.Spans d cs)
    (same : tightRays g.rays row = tightRays g.rays row') :
    facetSpan (vectors d g.rays) (Submodule.span ℚ (vectors d g.lines)) (toForm d row) =
      facetSpan (vectors d g.rays) (Submodule.span ℚ (vectors d g.lines)) (toForm d row') := by
  rw [facetSpan_eq spans.rayWidth, facetSpan_eq spans.rayWidth, same]

/-- The forms of the constraints that are no equalities. -/
def inequalityForms (d : ℕ) (cs : List (Row × Bool)) : Set (Module.Dual ℚ (Fin d → ℚ)) :=
  {a | ∃ row, (row, false) ∈ cs ∧ a = toForm d row}

/-- The inequalities cut the cone out of the space that it spans. -/
theorem bounds_of_spans {cs : List (Row × Bool)} (spans : g.Spans d cs) :
    Bounds (inequalityForms d cs) (vectors d g.rays) (Submodule.span ℚ (vectors d g.lines)) := by
  have ray {r : Fin d → ℚ} (hr : r ∈ vectors d g.rays) := mem_cone_iff_toForm.1 (spans.rays hr)
  have line {l : Fin d → ℚ} (hl : l ∈ Submodule.span ℚ (vectors d g.lines)) {c : Row × Bool}
      (hc : c ∈ cs) :
      toForm d c.1 l = 0 := toForm_eq_zero_of_mem_lineality (spans.lines ▸ hl) hc
  refine ⟨?_, ?_, ?_, ?_, fun y mem inside => ?_⟩
  · refine (cs.finite_toSet.image fun c => toForm d c.1).subset ?_
    rintro _ ⟨row, hr, rfl⟩
    exact ⟨_, hr, rfl⟩
  · exact (g.rays.finite_toSet.image (toVector d)).subset fun _ ⟨row, hr, e⟩ => ⟨row, hr, e.symm⟩
  · rintro r hr _ ⟨row, mem, rfl⟩
    exact (ray hr _ mem).1
  · rintro l hl _ ⟨row, mem, rfl⟩
    exact line hl mem
  · rw [spans.lines]
    refine spans.generates y (mem_cone_iff_toForm.2 ?_)
    rintro ⟨row, equality⟩ hc
    cases equality with
    | false => exact ⟨inside _ ⟨row, hc, rfl⟩, fun e => absurd e Bool.false_ne_true⟩
    | true =>
      have flat :
          spanned (vectors d g.rays) (Submodule.span ℚ (vectors d g.lines)) ≤ LinearMap.ker (toForm d row) :=
        sup_le (Submodule.span_le.2 fun r hr => LinearMap.mem_ker.2 ((ray hr _ hc).2 rfl))
          fun l hl => LinearMap.mem_ker.2 (line hl hc)
      have zero := LinearMap.mem_ker.1 (flat mem)
      exact ⟨zero.ge, fun _ => zero⟩

/-- The forms of some rows. -/
def forms (d : ℕ) (rows : List Row) : Set (Module.Dual ℚ (Fin d → ℚ)) :=
  {a | ∃ row ∈ rows, a = toForm d row}

/-- The generators of the cone that rows cut out, which are one on a common vector. -/
theorem facets_of_spans {e : Fin d → ℚ} (spans : g.Spans d (rows.map fun row => (row, false)))
    (one : ∀ row ∈ rows, toForm d row e = 1) :
    Facets (forms d rows) (vectors d g.rays) (Submodule.span ℚ (vectors d g.lines)) e := by
  have cone {y : Fin d → ℚ} : y ∈ (Enumeration.halfspaces d (rows.map fun row => (row, false))).cone
      (rows.map fun row => (row, false)).length ↔ ∀ a ∈ forms d rows, 0 ≤ a y := by
    rw [mem_cone_of_no_line]
    constructor
    · rintro h _ ⟨row, hr, rfl⟩
      rw [Row.toForm_eq_dot]
      exact h row hr
    · intro h row hr
      rw [← Row.toForm_eq_dot]
      exact h _ ⟨row, hr, rfl⟩
  refine ⟨?_, ?_, ?_, fun r hr => cone.1 (spans.rays hr), fun l hl a ha => ?_, fun y inside => ?_⟩
  · exact (rows.finite_toSet.image (toForm d)).subset fun _ ⟨row, hr, e⟩ => ⟨row, hr, e.symm⟩
  · exact (g.rays.finite_toSet.image (toVector d)).subset fun _ ⟨row, hr, e⟩ => ⟨row, hr, e.symm⟩
  · rintro _ ⟨row, hr, rfl⟩
    exact one row hr
  · obtain ⟨row, hr, rfl⟩ := ha
    exact toForm_eq_zero_of_mem_lineality (spans.lines ▸ hl) (List.mem_map_of_mem hr)
  · rw [spans.lines]
    exact spans.generates y (cone.2 inside)

section Facets

variable {e : Fin d → ℚ} (spans : g.Spans d (rows.map fun row => (row, false)))
  (one : ∀ row ∈ rows, toForm d row e = 1)

include spans one

/-- A row defines a facet exactly if it is extreme among the combinations of the rows. -/
theorem definesFacet_iff (hr : row ∈ rows) :
    definesFacet g row = true ↔ IsExtremeIn (Generated (forms d rows) ⊥) (toForm d row) := by
  have facets := facets_of_spans spans one
  rw [← facets.finrank_iff_extreme ⟨row, hr, rfl⟩, definesFacet_iff_isFacet spans, Bounds.IsFacet, spanned,
    facets.span_eq_top, finrank_top]

/-- Rows that define a facet and meet the same generators have the same form. -/
theorem toForm_eq_of_tightRays_eq {row' : Row} (hr : row ∈ rows) (hr' : row' ∈ rows)
    (facet : definesFacet g row = true)
    (same : tightRays g.rays row = tightRays g.rays row') : toForm d row = toForm d row' := by
  have facets := facets_of_spans spans one
  refine facets.eq_of_facet ⟨row, hr, rfl⟩ ⟨row', hr', rfl⟩ ?_ ?_
  · exact facets.facet_of_extreme ⟨row, hr, rfl⟩ ((definesFacet_iff spans one hr).1 facet)
  · exact facetSpan_eq_of_tightRays_eq spans same

end Facets

end DoubleDescription

end Prevision
