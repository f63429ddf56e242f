import Prevision.Proofs.Polyhedron.Conversion
import Prevision.Proofs.Polyhedron.Separation

/-!
# From generators to inequalities

A vector is a combination of the rows of a description by generators,
nonnegative but for the linear rows, exactly if it meets the inequalities that
`convert` makes of the description (`exists_combines_iff_meets`).

Both say that the products of the vector with the dual cone are not negative,
with the vectors whose products with the generators are not negative. For the
combinations this is that no form separates the vector from the generators
(`exists_combines_iff_dot_nonneg`), and for the inequalities that these
generate the dual cone (`meets_iff_dot_nonneg`).
-/

namespace Prevision

open Enumeration (Generators generators generators_error generators_spec halfspaces)
open Row (toVector toForm vectors toVector_mem_vectors)

/-- Every form is the product with a row. -/
theorem Row.exists_toForm_eq {n : ℕ} (a : Module.Dual ℚ (Fin n → ℚ)) :
    ∃ z : Row, z.length = n ∧ toForm n z = a := by
  refine ⟨List.ofFn fun i => a (Pi.single i 1), List.length_ofFn,
    LinearMap.pi_ext' fun i => LinearMap.ext_ring ?_⟩
  show toForm n _ (Pi.single i 1) = a (Pi.single i 1)
  rw [← toVector_unit, toForm_toVector _ (length_unit n i), dot_comm, dot_unit i.2, toVector_unit]
  exact congrFun (toVector_ofFn fun i => a (Pi.single i 1)) i

namespace DoubleDescription

variable {d : Description} {n : ℕ} {y z : Row}

/-- The vectors that meet the rows are those whose forms are not negative on what the rows generate. -/
theorem meets_iff_toForm_nonneg (width : ∀ row ∈ d.rows, row.length = n) :
    d.Meets z ↔ (∀ r ∈ d.flaggedVectors n false, 0 ≤ toForm n z r) ∧
      ∀ l ∈ Submodule.span ℚ (d.flaggedVectors n true), toForm n z l = 0 := by
  have same {row : Row} {b : Bool} (mem : (row, b) ∈ d.flaggedRows) :
      toForm n z (toVector n row) = Row.dot row z := by
    obtain ⟨i, at_i, -⟩ := Description.mem_flaggedRows.1 mem
    rw [Row.toForm_toVector z (width row (List.mem_of_getElem? at_i)), Row.dot_comm]
  rw [Description.meets_iff]
  constructor
  · intro h
    refine ⟨?_, fun l hl => ?_⟩
    · rintro _ ⟨row, mem, rfl⟩
      rw [same mem]
      exact (h _ mem).1
    · refine Submodule.span_le (p := LinearMap.ker (toForm n z)).2 ?_ hl
      rintro _ ⟨row, mem, rfl⟩
      rw [SetLike.mem_coe, LinearMap.mem_ker, same mem]
      exact (h _ mem).2 rfl
  · rintro ⟨rays, lines⟩ ⟨row, b⟩ mem
    rw [← same mem]
    cases b with
    | false => exact ⟨rays _ ⟨row, mem, rfl⟩, fun e => absurd e Bool.false_ne_true⟩
    | true =>
      have zero := lines _ (Submodule.subset_span ⟨row, mem, rfl⟩)
      exact ⟨zero.ge, fun _ => zero⟩

/-- The combinations of rows are the vectors whose products with the dual cone are not negative. -/
theorem exists_combines_iff_dot_nonneg (width : ∀ row ∈ d.rows, row.length = n) (hy : y.length = n) :
    (∃ w, d.Combines w y) ↔ ∀ z : Row, z.length = n → d.Meets z → 0 ≤ Row.dot z y := by
  rw [← Description.generated_iff_exists_combines width hy,
    Generated.iff_forms (d.finite_flaggedVectors n false)]
  constructor
  · intro h z _ meets
    obtain ⟨rays, lines⟩ := (meets_iff_toForm_nonneg width).1 meets
    rw [← Row.toForm_toVector z hy]
    exact h _ rays lines
  · intro h a rays lines
    obtain ⟨z, hz, rfl⟩ := Row.exists_toForm_eq a
    rw [Row.toForm_toVector z hy]
    exact h z hz ((meets_iff_toForm_nonneg width).2 ⟨rays, lines⟩)

theorem mem_cone_flaggedRows (hz : z.length = n) :
    toVector n z ∈ (halfspaces n d.flaggedRows).cone d.flaggedRows.length ↔ d.Meets z := by
  rw [mem_cone_halfspaces hz, Description.meets_iff]

/-- A vector meets the generators of the dual cone exactly if its products with that cone are not negative. -/
theorem meets_iff_dot_nonneg {g : Generators} (spans : g.Spans n d.flaggedRows) :
    (Description.ofRows .inequalities g.rays g.lines).Meets y ↔
      ∀ z : Row, z.length = n → d.Meets z → 0 ≤ Row.dot z y := by
  rw [Description.meets_ofRows_iff]
  constructor
  · rintro ⟨rays, lines⟩ z hz meets
    have generated := spans.generates _ ((mem_cone_flaggedRows hz).2 meets)
    rw [← spans.lines] at generated
    rw [Row.dot_comm, ← Row.toForm_toVector y hz]
    refine generated.nonneg ?_ fun l hl => ?_
    · rintro _ ⟨r, hr, rfl⟩
      rw [Row.toForm_toVector y (spans.rayWidth r hr), Row.dot_comm]
      exact rays r hr
    · refine Submodule.span_le (p := LinearMap.ker (toForm n y)).2 ?_ hl
      rintro _ ⟨l, hl, rfl⟩
      rw [SetLike.mem_coe, LinearMap.mem_ker, Row.toForm_toVector y (spans.lineWidth l hl), Row.dot_comm]
      exact lines l hl
  · intro h
    refine ⟨fun r hr => ?_, fun l hl => ?_⟩
    · exact h r (spans.rayWidth r hr) ((mem_cone_flaggedRows (spans.rayWidth r hr)).1
        (spans.rays (toVector_mem_vectors hr)))
    · have width := spans.lineWidth l hl
      have line : toVector n l ∈ (halfspaces n d.flaggedRows).lineality d.flaggedRows.length := by
        rw [← spans.lines]
        exact Submodule.subset_span (toVector_mem_vectors hl)
      have above := h l width ((mem_cone_flaggedRows width).1 (Halfspaces.mem_cone_of_mem_lineality line))
      have below := h (Row.neg l) ((Row.length_neg l).trans width) <| by
        rw [← mem_cone_flaggedRows ((Row.length_neg l).trans width), Row.toVector_neg]
        exact Halfspaces.mem_cone_of_mem_lineality (Submodule.neg_mem _ line)
      rw [Row.dot_neg, neg_nonneg] at below
      exact le_antisymm below above

/-- From generators to inequalities: the combinations of the rows are the vectors that meet the rows that
come out. -/
theorem exists_combines_iff_meets {maxRays : ℕ} (form : d.form = .generators) (sound : d.fault? = none)
    (fits : convert maxRays d ≠ .error (.enumerationLimit maxRays)) :
    ∃ out, convert maxRays d = .ok out ∧ out.form = .inequalities ∧
      (∀ row ∈ out.rows, row.length = d.width) ∧
      ∀ y : Row, y.length = d.width → ((∃ w, d.Combines w y) ↔ out.Meets y) := by
  have width := (Description.width_of_fault?_eq_none sound).2
  cases found : generators maxRays d.width (constraints d) with
  | error error => exact absurd (convert_eq_limit sound found) fits
  | ok g =>
    have spans := generators_spec found
    rw [constraints, form] at spans
    refine ⟨g.described d.form, convert_eq sound found, ?_⟩
    rw [form]
    refine ⟨rfl, fun row mem => ?_, fun y hy => ?_⟩
    · exact (List.mem_append.1 mem).elim (spans.rayWidth row) (spans.lineWidth row)
    · rw [exists_combines_iff_dot_nonneg width hy]
      exact (meets_iff_dot_nonneg spans).symm

/-- A ray that is there twice, a row of zeros and a line: a half plane in space. -/
def halfPlane : Description :=
  ⟨.generators, [[1, 0, 0], [0, 1, -1], [2, 0, 0], [0, 0, 0]], .ofList [1]⟩

theorem exists_combines_halfPlane_iff_meets : halfPlane.form = .generators ∧ halfPlane.fault? = none ∧
    convert 2 halfPlane ≠ .error (.enumerationLimit 2) ∧ ∃ out, convert 2 halfPlane = .ok out ∧
      out.form = .inequalities ∧ (∀ row ∈ out.rows, row.length = 3) ∧
      ∀ y : Row, y.length = 3 → ((∃ w, halfPlane.Combines w y) ↔ out.Meets y) := by
  have sound : halfPlane.fault? = none := by decide +kernel
  have fits : convert 2 halfPlane ≠ .error (.enumerationLimit 2) := by decide +kernel
  exact ⟨rfl, sound, fits, exists_combines_iff_meets rfl sound fits⟩

end DoubleDescription

end Prevision
