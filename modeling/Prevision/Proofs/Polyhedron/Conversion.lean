import Prevision.Polyhedron.DoubleDescription
import Prevision.Proofs.Polyhedron.Descriptions
import Prevision.Proofs.Polyhedron.Enumeration

/-!
# From inequalities to generators

A point satisfies a description by inequalities exactly if it is a mixture of
the rows of the description that `convert` makes of it: a convex combination
of its points plus a nonnegative combination of its directions plus any
combination of its lines.

* `convert_eq`: what comes out are the generators of a cone;
* `mem_cone_iff_satisfies`: the points of a polyhedron are those of the cone
  over it at height one;
* `satisfies_iff_mixture`: the main result. If no point satisfies the
  inequalities, no row is left.
-/

namespace Prevision

open Enumeration (Generators generators generators_error)
open Row (toVector toForm vectors toVector_mem_vectors)

/-! ## What comes out -/

/-- The description in the other form that generators stand for. -/
def Enumeration.Generators.described (g : Generators) : Form → Description
  | .inequalities => DoubleDescription.slice g
  | .generators => .ofRows .inequalities g.rays g.lines

/-- The form that a description turns into. -/
def Form.opposite : Form → Form
  | .inequalities => .generators
  | .generators => .inequalities

theorem Enumeration.Generators.form_described (g : Generators) (form : Form) :
    (g.described form).form = form.opposite := by
  cases form with
  | inequalities =>
    show (DoubleDescription.slice g).form = _
    rw [DoubleDescription.slice]
    split <;> rfl
  | generators => rfl

namespace DoubleDescription

variable {maxRays : ℕ} {d : Description}

theorem convert_eq {g : Generators} (sound : d.fault? = none)
    (found : generators maxRays d.width (constraints d) = .ok g) :
    convert maxRays d = .ok (g.described d.form) := by
  rw [convert, sound]
  simp only [convertSound, found]
  cases d.form <;> rfl

theorem convert_eq_limit {error : Error} (sound : d.fault? = none)
    (failed : generators maxRays d.width (constraints d) = .error error) :
    convert maxRays d = .error (.enumerationLimit maxRays) := by
  rw [convert, sound, ← generators_error failed]
  simp only [convertSound, failed]
  rfl

/-- What a conversion gives is described by generators of the cone that the constraints define. -/
theorem exists_of_convert {out : Description} (sound : d.fault? = none) (done : convert maxRays d = .ok out) :
    ∃ g : Generators, g.Spans d.width (constraints d) ∧ out = g.described d.form := by
  cases found : generators maxRays d.width (constraints d) with
  | error error =>
    rw [convert_eq_limit sound found] at done
    cases done
  | ok g =>
    rw [convert_eq sound found] at done
    cases done
    exact ⟨g, Enumeration.generators_spec found, rfl⟩

end DoubleDescription

namespace DoubleDescription

variable {n : ℕ} {rays lines : List Row}

/-! ## The slice at height one -/

theorem exists_toVector_atHeightOne {r : Row} (nonneg : 0 ≤ Row.entry r 0) :
    ∃ c : ℚ, 0 < c ∧ toVector n (atHeightOne r) = c • toVector n r := by
  unfold atHeightOne
  split
  · exact ⟨1, zero_lt_one, (one_smul ℚ _).symm⟩
  · rename_i ne
    exact ⟨_, inv_pos.2 (lt_of_le_of_ne nonneg (Ne.symm ne)), Row.toVector_scale _ _⟩

theorem entry_atHeightOne (r : Row) :
    Row.entry (atHeightOne r) 0 = 0 ∨ Row.entry (atHeightOne r) 0 = 1 := by
  unfold atHeightOne
  split
  · exact .inl ‹_›
  · rename_i ne
    exact .inr (by rw [Row.entry_scale, inv_mul_cancel₀ ne])

theorem length_atHeightOne (r : Row) : (atHeightOne r).length = r.length := by
  unfold atHeightOne
  split
  · rfl
  · exact Row.length_scale _ _

/-- Bringing the rays to height one does not change what they generate. -/
theorem generated_atHeightOne_iff (nonneg : ∀ r ∈ rays, 0 ≤ Row.entry r 0) {L : Submodule ℚ (Fin n → ℚ)}
    {y : Fin n → ℚ} :
    Generated (vectors n (rays.map atHeightOne)) L y ↔ Generated (vectors n rays) L y := by
  constructor
  · refine fun h => h.trans ?_ le_rfl
    rintro _ ⟨_, mem, rfl⟩
    obtain ⟨r, hr, rfl⟩ := List.mem_map.1 mem
    obtain ⟨c, hc, same⟩ := exists_toVector_atHeightOne (n := n) (nonneg r hr)
    rw [same]
    exact .ray (toVector_mem_vectors hr) hc.le
  · refine fun h => h.trans ?_ le_rfl
    rintro _ ⟨r, hr, rfl⟩
    obtain ⟨c, hc, same⟩ := exists_toVector_atHeightOne (n := n) (nonneg r hr)
    have : toVector n r = c⁻¹ • toVector n (atHeightOne r) := by
      rw [same, smul_smul, inv_mul_cancel₀ hc.ne', one_smul]
    rw [this]
    exact .ray (toVector_mem_vectors (List.mem_map_of_mem hr)) (inv_nonneg.2 hc.le)

/-! ## The cone over a polyhedron -/

variable {d : Description}

theorem dot_cons_one {row x : Row} : Row.dot row (1 :: x) = Row.eval row x := by
  cases row with
  | nil => simp [Row.eval]
  | cons b a =>
    rw [Row.dot_cons, mul_one]
    rfl

/-- The cone that constraints cut out. -/
abbrev coneOf (n : ℕ) (cs : List (Row × Bool)) : Set (Fin n → ℚ) :=
  (Enumeration.halfspaces n cs).cone cs.length

theorem mem_cone_halfspaces {cs : List (Row × Bool)} {y : Row} (width : y.length = n) :
    toVector n y ∈ (Enumeration.halfspaces n cs).cone cs.length ↔
      ∀ c ∈ cs, 0 ≤ Row.dot c.1 y ∧ (c.2 = true → Row.dot c.1 y = 0) := by
  constructor
  · intro h c hc
    obtain ⟨i, at_i⟩ := List.mem_iff_getElem?.1 hc
    have := h i (List.getElem?_eq_some_iff.1 at_i).1
    rwa [Enumeration.form_toVector at_i width, Enumeration.equality_halfspaces at_i] at this
  · intro h i hi
    have at_i : cs[i]? = some (cs[i].1, cs[i].2) := List.getElem?_eq_getElem hi
    rw [Enumeration.form_toVector at_i width, Enumeration.equality_halfspaces at_i]
    exact h _ (List.getElem_mem hi)

theorem mem_cone_iff_toForm {cs : List (Row × Bool)} {y : Fin n → ℚ} :
    y ∈ (Enumeration.halfspaces n cs).cone cs.length ↔
    ∀ c ∈ cs, 0 ≤ toForm n c.1 y ∧ (c.2 = true → toForm n c.1 y = 0) := by
  conv_lhs => rw [← Row.toVector_ofFn y]
  rw [mem_cone_halfspaces List.length_ofFn]
  exact forall₂_congr fun c _ => by rw [← Row.toForm_eq_dot]

theorem toForm_eq_zero_of_mem_lineality {cs : List (Row × Bool)} {l : Fin n → ℚ} {c : Row × Bool}
    (hl : l ∈ (Enumeration.halfspaces n cs).lineality cs.length) (hc : c ∈ cs) : toForm n c.1 l = 0 := by
  obtain ⟨i, at_i⟩ := List.mem_iff_getElem?.1 hc
  rw [← Enumeration.form_halfspaces at_i]
  exact hl i (List.getElem?_eq_some_iff.1 at_i).1

/-- Without equalities, the constraints are products that are to be nonnegative. -/
theorem mem_cone_of_no_line (rows : List Row) (y : Fin n → ℚ) :
    y ∈ (Enumeration.halfspaces n (rows.map fun row => (row, false))).cone
        (rows.map fun row => (row, false)).length ↔
      ∀ h ∈ rows, 0 ≤ Row.dot h (List.ofFn y) := by
  conv_lhs => rw [← Row.toVector_ofFn y]
  rw [mem_cone_halfspaces List.length_ofFn, List.forall_mem_map]
  exact forall₂_congr fun h _ => and_iff_left fun e => absurd e Bool.false_ne_true

/-- The points that meet some rows are those at height one in the cone over these. -/
theorem mem_cone_point {x : Row} (width : x.length + 1 = n) :
    toVector n (1 :: x) ∈ coneOf n (d.flaggedRows ++ [(Row.unit n 0, false)]) ↔ d.Meets (1 :: x) := by
  rw [mem_cone_halfspaces (y := 1 :: x) width, Description.meets_iff, List.forall_mem_append,
    List.forall_mem_singleton, Row.dot_unit (by omega)]
  exact and_iff_left ⟨zero_le_one, fun e => absurd e Bool.false_ne_true⟩

theorem satisfies_iff_meets {x : Row} (width : x.length + 1 = d.width) :
    d.Satisfies x ↔ d.Meets (1 :: x) := by
  constructor
  · rintro ⟨-, nonneg, linear⟩
    simp only [← dot_cons_one] at nonneg linear
    exact ⟨nonneg, linear⟩
  · rintro ⟨nonneg, linear⟩
    simp only [dot_cons_one] at nonneg linear
    exact ⟨width, nonneg, linear⟩

theorem constraints_eq (form : d.form = .inequalities) :
    constraints d = d.flaggedRows ++ [(Row.unit d.width 0, false)] := by
  rw [constraints, form]

/-- The cone over a polyhedron is what meets the rows and is not below height zero. -/
theorem mem_cone_iff_meets (form : d.form = .inequalities) (pos : 0 < d.width) {y : Row}
    (width : y.length = d.width) :
    toVector d.width y ∈ coneOf d.width (constraints d) ↔ d.Meets y ∧ 0 ≤ Row.entry y 0 := by
  rw [constraints_eq form, mem_cone_halfspaces width, Description.meets_iff, List.forall_mem_append,
    List.forall_mem_singleton, Row.dot_unit pos]
  exact and_congr_right fun _ => and_iff_left fun e => absurd e Bool.false_ne_true

/-- The points of a polyhedron are those of the cone over it at height one. -/
theorem mem_cone_iff_satisfies (form : d.form = .inequalities) {x : Row} (width : x.length + 1 = d.width) :
    toVector d.width (1 :: x) ∈ (Enumeration.halfspaces d.width (constraints d)).cone (constraints d).length ↔
      d.Satisfies x := by
  rw [constraints_eq form, satisfies_iff_meets width]
  exact mem_cone_point width

theorem last_constraint (form : d.form = .inequalities) :
    (constraints d)[d.flaggedRows.length]? = some (Row.unit d.width 0, false) := by
  rw [constraints_eq form, List.getElem?_append_right le_rfl, Nat.sub_self]
  rfl

/-- The last constraint measures the height. -/
theorem form_last (form : d.form = .inequalities) (pos : 0 < d.width) {r : Row} (width : r.length = d.width) :
    (Enumeration.halfspaces d.width (constraints d)).form d.flaggedRows.length (toVector d.width r) =
      Row.entry r 0 := by
  rw [Enumeration.form_toVector (last_constraint form) width, Row.dot_unit pos]

variable {g : Enumeration.Generators}

theorem entry_ray_nonneg (form : d.form = .inequalities) (pos : 0 < d.width)
    (spans : g.Spans d.width (constraints d)) {r : Row} (hr : r ∈ g.rays) : 0 ≤ Row.entry r 0 := by
  rw [← form_last form pos (spans.rayWidth r hr)]
  exact (spans.rays (toVector_mem_vectors hr) _ (List.getElem?_eq_some_iff.1 (last_constraint form)).1).1

theorem entry_line_eq_zero (form : d.form = .inequalities) (pos : 0 < d.width)
    (spans : g.Spans d.width (constraints d)) {l : Row} (hl : l ∈ g.lines) : Row.entry l 0 = 0 := by
  rw [← form_last form pos (spans.lineWidth l hl)]
  have : toVector d.width l ∈ Submodule.span ℚ (vectors d.width g.lines) :=
    Submodule.subset_span (toVector_mem_vectors hl)
  rw [spans.lines] at this
  exact this _ (List.getElem?_eq_some_iff.1 (last_constraint form)).1

/-- A ray above height zero meets height one in a point of the polyhedron. -/
theorem satisfies_of_ray (form : d.form = .inequalities) (pos : 0 < d.width)
    (spans : g.Spans d.width (constraints d)) {r : Row} (hr : r ∈ g.rays) (ne : Row.entry r 0 ≠ 0) :
    d.Satisfies (atHeightOne r).tail := by
  have width := (length_atHeightOne r).trans (spans.rayWidth r hr)
  have one : Row.entry (atHeightOne r) 0 = 1 := by
    unfold atHeightOne
    rw [if_neg ne, Row.entry_scale, inv_mul_cancel₀ ne]
  have whole : 1 :: (atHeightOne r).tail = atHeightOne r := by
    cases shape : atHeightOne r with
    | nil => rw [shape] at width; exact absurd width pos.ne
    | cons b a =>
      rw [shape, Row.entry_cons_zero] at one
      rw [one]
      rfl
  refine (mem_cone_iff_satisfies form (by rw [← width, List.length_tail]; omega)).1 ?_
  obtain ⟨c, hc, same⟩ := exists_toVector_atHeightOne (n := d.width) (entry_ray_nonneg form pos spans hr)
  rw [whole, same]
  exact Halfspaces.smul_mem_cone (spans.rays (toVector_mem_vectors hr)) hc.le

/-- A polyhedron with a point has a ray of its cone above height zero. -/
theorem exists_ray_of_satisfies (form : d.form = .inequalities) (pos : 0 < d.width)
    (spans : g.Spans d.width (constraints d)) {x : Row} (sat : d.Satisfies x) :
    ∃ r ∈ g.rays, Row.entry r 0 ≠ 0 := by
  by_contra none
  push Not at none
  have lt := (List.getElem?_eq_some_iff.1 (last_constraint form)).1
  have generated := spans.generates _ ((mem_cone_iff_satisfies form sat.width).2 sat)
  have low := generated.nonneg
    (f := -(Enumeration.halfspaces d.width (constraints d)).form d.flaggedRows.length) ?_ ?_
  · rw [LinearMap.neg_apply, form_last (r := 1 :: x) form pos sat.width, Row.entry_cons_zero] at low
    exact absurd low (by decide)
  · rintro _ ⟨r, hr, rfl⟩
    rw [LinearMap.neg_apply, form_last form pos (spans.rayWidth r hr), none r hr, neg_zero]
  · intro l hl
    rw [LinearMap.neg_apply, hl _ lt, neg_zero]

theorem slice_eq (some_ray : ∃ r ∈ g.rays, Row.entry r 0 ≠ 0) :
    slice g = .ofRows .generators (g.rays.map atHeightOne) g.lines := by
  rw [slice, if_pos]
  obtain ⟨r, hr, ne⟩ := some_ray
  exact List.any_eq_true.2 ⟨r, hr, bne_iff_ne.2 ne⟩

theorem slice_eq_of_no_ray (none : ¬∃ r ∈ g.rays, Row.entry r 0 ≠ 0) :
    slice g = .ofRows .generators [] [] := by
  rw [slice, if_neg]
  intro any
  obtain ⟨r, hr, ne⟩ := List.any_eq_true.1 any
  exact none ⟨r, hr, bne_iff_ne.1 ne⟩

theorem homogeneous_slice (form : d.form = .inequalities) (pos : 0 < d.width)
    (spans : g.Spans d.width (constraints d)) :
    (Description.ofRows .generators (g.rays.map atHeightOne) g.lines).Homogeneous := by
  refine ⟨fun row hr => ?_, fun i row at_i linear => ?_⟩
  · rcases List.mem_append.1 hr with ray | line
    · obtain ⟨r, -, rfl⟩ := List.mem_map.1 ray
      exact entry_atHeightOne r
    · exact .inl (entry_line_eq_zero form pos spans line)
  · have high := (Description.mem_linear_ofRows.1 linear).1
    have at_i : (g.rays.map atHeightOne ++ g.lines)[i]? = some row := at_i
    rw [List.getElem?_append_right high] at at_i
    exact entry_line_eq_zero form pos spans (List.mem_of_getElem? at_i)

/-- The generators of the cone over a polyhedron, brought to height one, generate it. -/
theorem combines_iff_mem_cone (form : d.form = .inequalities) (pos : 0 < d.width)
    (spans : g.Spans d.width (constraints d)) {y : Row} (width : y.length = d.width) :
    (∃ w, (Description.ofRows .generators (g.rays.map atHeightOne) g.lines).Combines w y) ↔
      toVector d.width y ∈ coneOf d.width (constraints d) := by
  have rayWidth : ∀ r ∈ g.rays.map atHeightOne, r.length = d.width := by
    intro _ mem
    obtain ⟨r, hr, rfl⟩ := List.mem_map.1 mem
    exact (length_atHeightOne r).trans (spans.rayWidth r hr)
  have rowWidth : ∀ row ∈ (Description.ofRows .generators (g.rays.map atHeightOne) g.lines).rows,
      row.length = d.width := fun row mem =>
    (List.mem_append.1 mem).elim (rayWidth row) (spans.lineWidth row)
  rw [← Description.generated_iff_exists_combines rowWidth width, Description.flaggedVectors_ofRows_false,
    Description.flaggedVectors_ofRows_true,
    generated_atHeightOne_iff fun r => entry_ray_nonneg form pos spans, spans.lines]
  exact ⟨Halfspaces.mem_cone_of_generated spans.rays, spans.generates _⟩

/-- The points of a polyhedron are the mixtures of the generators of the cone over it, brought to
height one. -/
theorem satisfies_iff_of_spans (form : d.form = .inequalities) (pos : 0 < d.width)
    (spans : g.Spans d.width (constraints d)) {x : Row} (width : x.length + 1 = d.width) :
    d.Satisfies x ↔
      ∃ w, (Description.ofRows .generators (g.rays.map atHeightOne) g.lines).Mixture w x := by
  rw [← mem_cone_iff_satisfies form width, ← combines_iff_mem_cone (y := 1 :: x) form pos spans width]
  exact exists_congr fun w => (Description.mixture_iff_combines (homogeneous_slice form pos spans)).symm

/-- From inequalities to generators: the points of the polyhedron are the mixtures of the rows that
come out, and no row does if it has no point. -/
theorem satisfies_iff_mixture {maxRays : ℕ} {d : Description} (form : d.form = .inequalities)
    (sound : d.fault? = none) (fits : convert maxRays d ≠ .error (.enumerationLimit maxRays)) :
    ∃ out, convert maxRays d = .ok out ∧ out.form = .generators ∧
      ((∃ x, d.Satisfies x) → out.Homogeneous ∧
        ∀ x : Row, x.length + 1 = d.width → (d.Satisfies x ↔ ∃ w, out.Mixture w x)) ∧
      ((¬∃ x, d.Satisfies x) → out.rows = []) := by
  have pos := Nat.pos_of_ne_zero (Description.width_of_fault?_eq_none sound).1
  rw [convert, sound] at fits ⊢
  simp only [convertSound] at fits ⊢
  cases found : Enumeration.generators maxRays d.width (constraints d) with
  | error error =>
    rw [found, Enumeration.generators_error found] at fits
    exact absurd rfl fits
  | ok g =>
    have spans := Enumeration.generators_spec found
    refine ⟨slice g, by rw [form]; rfl, ?_, fun ⟨x, sat⟩ => ?_, fun none => ?_⟩
    · rw [slice]
      split <;> rfl
    · rw [slice_eq (exists_ray_of_satisfies form pos spans sat)]
      exact ⟨homogeneous_slice form pos spans, fun x => satisfies_iff_of_spans form pos spans⟩
    · rw [slice, if_neg]
      · rfl
      · intro some_ray
        obtain ⟨r, hr, ne⟩ := List.any_eq_true.1 some_ray
        exact none ⟨_, satisfies_of_ray form pos spans hr (bne_iff_ne.1 ne)⟩

/-- The points with `0 ≤ x ≤ 1` and `y ≥ 0` and any `z`. -/
def slab : Description :=
  ⟨.inequalities, [[0, 1, 0, 0], [1, -1, 0, 0], [0, 0, 1, 0]], ∅⟩

theorem satisfies_slab_iff_mixture : slab.fault? = none ∧
    convert 4 slab ≠ .error (.enumerationLimit 4) ∧ ∃ out, convert 4 slab = .ok out ∧
    out.form = .generators ∧
      ((∃ x, slab.Satisfies x) → out.Homogeneous ∧
        ∀ x : Row, x.length + 1 = 4 → (slab.Satisfies x ↔ ∃ w, out.Mixture w x)) ∧
      ((¬∃ x, slab.Satisfies x) → out.rows = []) := by
  have sound : slab.fault? = none := by decide +kernel
  have fits : convert 4 slab ≠ .error (.enumerationLimit 4) := by decide +kernel
  exact ⟨sound, fits, satisfies_iff_mixture rfl sound fits⟩

end DoubleDescription

end Prevision
