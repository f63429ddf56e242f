import Prevision.Proofs.Polyhedron.Kept

/-!
# Dropping redundant rows

What a description describes without the rows that `redundantRows` lists is
what it describes with them, unless a row that is not linear acts as a linear
one (`describes_without_iff`): an inequality that all points satisfy with
equality, or a generator whose opposite is generated as well. No such row
defines a facet, so all of them are listed, and what they say is lost unless
the linear rows say it.

* `meets_point_without_iff`: the case of inequalities;
* `combines_point_without_iff`: that of generators, whose dual cone is the one scanned.
-/

namespace Prevision

open Enumeration (Generators generators generators_error generators_spec halfspaces)
open Row (toVector toForm vectors toVector_mem_vectors)

/-- If the rays generate what is generated above height zero, they generate all of it, as they
generate the sums of a vector above height zero and multiples of another. -/
theorem Generated.of_above {V : Type*} [AddCommGroup V] [Module ℚ V] [Module.Finite ℚ V] {S T : Set V}
    {L : Submodule ℚ V} {τ : V →ₗ[ℚ] ℚ} {p r : V} (finite : S.Finite)
    (above : ∀ y, 0 < τ y → Generated T L y → Generated S L y) (hp : Generated T L p) (pos : 0 < τ p)
    (hr : Generated T L r) (nonneg : 0 ≤ τ r) : Generated S L r := by
  rw [Generated.iff_forms finite]
  intro a rays lines
  have sum (t : ℚ) (ht : 0 ≤ t) : 0 ≤ a p + t * a r := by
    have height : 0 < τ (p + t • r) := by
      rw [map_add, map_smul]
      exact add_pos_of_pos_of_nonneg pos (mul_nonneg ht nonneg)
    have generated := (above _ height (hp.add (hr.smul ht))).nonneg rays lines
    rwa [map_add, map_smul] at generated
  by_contra neg
  rw [not_le] at neg
  have base := sum 0 le_rfl
  rw [zero_mul, add_zero] at base
  have far := sum ((a p + 1) / -a r) (div_nonneg (by linarith) (by linarith))
  rw [div_neg, neg_mul, div_mul_cancel₀ _ neg.ne] at far
  linarith

namespace Description

/-- The points of a description: those that satisfy the inequalities, or those at height one in
the cone of the generators. -/
def Describes (d : Description) (x : Row) : Prop :=
  match d.form with
  | .inequalities => d.Meets (1 :: x)
  | .generators => ∃ w, d.Combines w (1 :: x)

/-- Whether a row acts in a description as a linear one: all points satisfy it with equality, or
its opposite is generated as well. -/
def ActsLinear (d : Description) (row : Row) : Prop :=
  match d.form with
  | .inequalities => ∀ x : Row, x.length + 1 = row.length → d.Meets (1 :: x) → Row.dot row (1 :: x) = 0
  | .generators => ∃ w, d.Combines w (Row.neg row)

/-- The heads of generators are not negative, and those of linear ones are zero. -/
structure Upright (d : Description) : Prop where
  head : ∀ row ∈ d.rows, 0 ≤ Row.entry row 0
  linear : ∀ (i : ℕ) (row : Row), d.rows[i]? = some row → i ∈ d.linear → Row.entry row 0 = 0

end Description

namespace DoubleDescription

variable {n : ℕ} {g : Generators} {d : Description} {cs : List (Row × Bool)} {u : Fin n → ℚ} {row : Row}

/-! ## Points at height one -/

theorem exists_point {v : Fin n → ℚ} (one : toForm n (Row.unit n 0) v = 1) :
    ∃ x : Row, x.length + 1 = n ∧ toVector n (1 :: x) = v := by
  cases n with
  | zero => exact absurd one zero_ne_one
  | succ n =>
    rw [Row.toForm_eq_dot, Row.dot_unit n.succ_pos, Row.entry_ofFn_zero] at one
    refine ⟨List.ofFn fun i => v i.succ, by rw [List.length_ofFn], funext fun i => ?_⟩
    cases i using Fin.cases with
    | zero => exact one.symm
    | succ i => exact (Row.entry_cons_succ 1 _ i).trans (congrFun (Row.toVector_ofFn fun i => v i.succ) i)

theorem height_point {x : Row} (width : x.length + 1 = n) :
    toForm n (Row.unit n 0) (toVector n (1 :: x)) = 1 := by
  rw [Row.toForm_toVector (r := 1 :: x) _ width, Row.dot_unit (by omega)]
  rfl

/-- What holds of multiples along with a vector holds above height zero if it holds at height one. -/
theorem forall_height_pos_iff {Q : (Fin n → ℚ) → Prop}
    (scale : ∀ u, Q u → ∀ c : ℚ, 0 < c → Q (c • u)) :
    (∀ u, 0 < toForm n (Row.unit n 0) u → Q u) ↔ ∀ x : Row, x.length + 1 = n → Q (toVector n (1 :: x)) := by
  constructor
  · intro h x width
    exact h _ (by rw [height_point width]; exact one_pos)
  · intro h u pos
    have one : toForm n (Row.unit n 0) ((toForm n (Row.unit n 0) u)⁻¹ • u) = 1 := by
      rw [map_smul, smul_eq_mul, inv_mul_cancel₀ pos.ne']
    obtain ⟨x, width, same⟩ := exists_point one
    have scaled := scale _ (h x width) _ pos
    rwa [same, smul_inv_smul₀ pos.ne'] at scaled

theorem smul_mem_cone_iff {c : ℚ} (pos : 0 < c) : c • u ∈ coneOf n cs ↔ u ∈ coneOf n cs := by
  refine ⟨fun h => ?_, fun h => Halfspaces.smul_mem_cone h pos.le⟩
  have back := Halfspaces.smul_mem_cone h (inv_nonneg.2 pos.le)
  rwa [inv_smul_smul₀ pos.ne'] at back

/-- Without the rows reported, the same points satisfy inequalities exactly if those that all of
them satisfy with equality follow from the linear ones. -/
theorem meets_point_without_iff (spans : g.Spans n (d.flaggedRows ++ [(Row.unit n 0, false)])) :
    (∀ x : Row, x.length + 1 = n → ((d.without (reportedRows g d)).Meets (1 :: x) ↔ d.Meets (1 :: x))) ↔
      ∀ row, (row, false) ∈ d.flaggedRows →
        (∀ x : Row, x.length + 1 = n → d.Meets (1 :: x) → Row.dot row (1 :: x) = 0) →
          ∀ x : Row, x.length + 1 = n → d.linearPart.Meets (1 :: x) → Row.dot row (1 :: x) = 0 := by
  have value {row x : Row} (width : x.length + 1 = n) :
      toForm n row (toVector n (1 :: x)) = Row.dot row (1 :: x) :=
    Row.toForm_toVector (r := 1 :: x) row width
  have cone := cone_without_iff (P := fun u => 0 < toForm n (Row.unit n 0) u) spans
    (fun u pos y hy => by
      rw [map_add]
      exact add_pos_of_nonneg_of_pos (mem_cone_iff_toForm.1 hy _ List.mem_concat_self).1 pos)
    fun c hc => by
      rw [List.mem_singleton.1 hc]
      exact ⟨rfl, fun u pos => pos.le⟩
  have same := forall_height_pos_iff (n := n) (Q := fun u =>
      u ∈ coneOf n ((d.without (reportedRows g d)).flaggedRows ++ [(Row.unit n 0, false)]) ↔
        u ∈ coneOf n (d.flaggedRows ++ [(Row.unit n 0, false)])) fun u h c pos => by
    rwa [smul_mem_cone_iff pos, smul_mem_cone_iff pos]
  have zero (row : Row) := forall_height_pos_iff (n := n) (Q := fun u =>
      u ∈ coneOf n (d.flaggedRows ++ [(Row.unit n 0, false)]) → toForm n row u = 0) fun u h c pos mem => by
    rw [map_smul, h ((smul_mem_cone_iff pos).1 mem), smul_zero]
  have implied (row : Row) := forall_height_pos_iff (n := n) (Q := fun u =>
      (∀ row', (row', true) ∈ d.flaggedRows → toForm n row' u = 0) → toForm n row u = 0)
        fun u h c pos flat => by
    rw [map_smul, h fun row' mem => ?_, smul_zero]
    have := flat row' mem
    rwa [map_smul, smul_eq_mul, mul_eq_zero, or_iff_right pos.ne'] at this
  rw [same] at cone
  simp only [zero, implied] at cone
  refine Iff.trans ?_ (cone.trans ?_)
  · exact forall₂_congr fun x width => by rw [mem_cone_point width, mem_cone_point width]
  · refine forall₂_congr fun row _ => imp_congr ?_ ?_
    · exact forall₂_congr fun x width => by rw [mem_cone_point width, value width]
    · refine forall₂_congr fun x width => ?_
      rw [Description.meets_linearPart_iff, value width]
      exact imp_congr_left (forall₂_congr fun row' _ => by rw [value width])

/-! ## Cones by generators -/

theorem mem_rows_iff : row ∈ d.rows ↔ ∃ b, (row, b) ∈ d.flaggedRows := by
  simp only [Description.mem_flaggedRows]
  constructor
  · intro mem
    obtain ⟨i, at_i⟩ := List.mem_iff_getElem?.1 mem
    exact ⟨_, i, at_i, rfl⟩
  · rintro ⟨b, i, at_i, -⟩
    exact List.mem_of_getElem? at_i

theorem mem_rows_of_mem_without {drop : SortedSet ℕ} (mem : row ∈ (d.without drop).rows) : row ∈ d.rows := by
  obtain ⟨b, mem⟩ := mem_rows_iff.1 mem
  obtain ⟨i, at_i, -⟩ := Description.mem_flaggedRows_without.1 mem
  exact mem_rows_iff.2 ⟨b, List.mem_of_getElem? at_i⟩

theorem length_without (width : ∀ row ∈ d.rows, row.length = n) {drop : SortedSet ℕ} :
    ∀ row ∈ (d.without drop).rows, row.length = n :=
  fun row mem => width row (mem_rows_of_mem_without mem)

theorem length_linearPart (width : ∀ row ∈ d.rows, row.length = n) :
    ∀ row ∈ d.linearPart.rows, row.length = n := by
  intro row mem
  obtain ⟨b, mem⟩ := mem_rows_iff.1 mem
  exact width row (mem_rows_iff.2 ⟨b, (Description.mem_flaggedRows_linearPart.1 mem).1⟩)

/-- The opposite of a row is generated exactly if no vector that meets the generators is positive
on the row. -/
theorem exists_combines_neg_iff (width : ∀ row ∈ d.rows, row.length = n) (hr : row.length = n) :
    (∃ w, d.Combines w (Row.neg row)) ↔ ∀ z : Row, z.length = n → d.Meets z → Row.dot row z ≤ 0 := by
  rw [exists_combines_iff_dot_nonneg width ((Row.length_neg row).trans hr)]
  exact forall₂_congr fun z _ => by rw [Row.dot_comm, Row.dot_neg, neg_nonneg]

/-- A vector meets the generators exactly if its products with all that they generate are not negative. -/
theorem meets_iff_combines_nonneg (width : ∀ row ∈ d.rows, row.length = n) {z : Row} (hz : z.length = n) :
    d.Meets z ↔ ∀ y : Row, y.length = n → (∃ w, d.Combines w y) → 0 ≤ Row.dot z y := by
  refine ⟨fun meets y hy combines => (exists_combines_iff_dot_nonneg width hy).1 combines z hz meets,
    fun h => ?_⟩
  have above {r : Row} (hr : r.length = n) (generated : Generated (d.flaggedVectors n false)
      (Submodule.span ℚ (d.flaggedVectors n true)) (toVector n r)) : 0 ≤ Row.dot r z := by
    rw [Row.dot_comm]
    exact h r hr ((Description.generated_iff_exists_combines width hr).1 generated)
  rw [Description.meets_iff]
  rintro ⟨row, b⟩ mem
  have hr := width row (mem_rows_iff.2 ⟨b, mem⟩)
  cases b with
  | false => exact ⟨above hr (.of_mem ⟨row, mem, rfl⟩), fun e => absurd e Bool.false_ne_true⟩
  | true =>
    have line : toVector n row ∈ Submodule.span ℚ (d.flaggedVectors n true) :=
      Submodule.subset_span ⟨row, mem, rfl⟩
    have below := above ((Row.length_neg row).trans hr) <| by
      rw [Row.toVector_neg]
      exact .line (Submodule.neg_mem _ line)
    rw [Row.dot_neg, neg_nonneg] at below
    have zero := le_antisymm below (above hr (.line line))
    exact ⟨zero.ge, fun _ => zero⟩

/-- Two descriptions by generators generate the same exactly if the same vectors meet them. -/
theorem combines_congr {d' : Description} (width : ∀ row ∈ d.rows, row.length = n)
    (width' : ∀ row ∈ d'.rows, row.length = n) :
    (∀ y : Row, y.length = n → ((∃ w, d'.Combines w y) ↔ ∃ w, d.Combines w y)) ↔
      ∀ z : Row, z.length = n → (d'.Meets z ↔ d.Meets z) := by
  constructor
  · intro same z hz
    rw [meets_iff_combines_nonneg width hz, meets_iff_combines_nonneg width' hz]
    exact forall₂_congr fun y hy => by rw [same y hy]
  · intro same y hy
    rw [exists_combines_iff_dot_nonneg width hy, exists_combines_iff_dot_nonneg width' hy]
    exact forall₂_congr fun z hz => by rw [same z hz]

theorem forall_vector_iff {Q : (Fin n → ℚ) → Prop} :
    (∀ u, Q u) ↔ ∀ z : Row, z.length = n → Q (toVector n z) := by
  refine ⟨fun h z _ => h _, fun h u => ?_⟩
  rw [← Row.toVector_ofFn u]
  exact h _ List.length_ofFn

/-- Without the rows reported, the same vectors meet generators exactly if those that are zero on
all of these are zero wherever the linear ones are. -/
theorem meets_without_iff (spans : g.Spans n d.flaggedRows) :
    (∀ z : Row, z.length = n → ((d.without (reportedRows g d)).Meets z ↔ d.Meets z)) ↔
      ∀ row, (row, false) ∈ d.flaggedRows → (∀ z : Row, z.length = n → d.Meets z → Row.dot row z = 0) →
        ∀ z : Row, z.length = n → d.linearPart.Meets z → Row.dot row z = 0 := by
  rw [← List.append_nil d.flaggedRows] at spans
  have cone := cone_without_iff (P := fun _ => True) spans (fun _ _ _ _ => trivial)
    fun c hc => absurd hc List.not_mem_nil
  simp only [List.append_nil, true_imp_iff, forall_vector_iff] at cone
  refine Iff.trans ?_ (cone.trans ?_)
  · exact forall₂_congr fun z hz => by rw [mem_cone_flaggedRows hz, mem_cone_flaggedRows hz]
  · refine forall₂_congr fun row _ => imp_congr ?_ ?_
    · exact forall₂_congr fun z hz => by rw [mem_cone_flaggedRows hz, Row.toForm_toVector row hz]
    · refine forall₂_congr fun z hz => ?_
      rw [Description.meets_linearPart_iff, Row.toForm_toVector row hz]
      exact imp_congr_left (forall₂_congr fun row' _ => by rw [Row.toForm_toVector row' hz])

/-- Without the rows reported, generators generate the same exactly if those whose opposites are generated are
generated by the linear ones. -/
theorem combines_without_iff (width : ∀ row ∈ d.rows, row.length = n) (spans : g.Spans n d.flaggedRows) :
    (∀ y : Row, y.length = n →
      ((∃ w, (d.without (reportedRows g d)).Combines w y) ↔ ∃ w, d.Combines w y)) ↔
      ∀ row, (row, false) ∈ d.flaggedRows → (∃ w, d.Combines w (Row.neg row)) →
        ∃ w, d.linearPart.Combines w (Row.neg row) := by
  rw [combines_congr width (length_without width), meets_without_iff spans]
  refine forall₂_congr fun row mem => ?_
  have hr := width row (mem_rows_iff.2 ⟨_, mem⟩)
  rw [exists_combines_neg_iff width hr, exists_combines_neg_iff (length_linearPart width) hr]
  refine imp_congr ?_ ?_
  · refine forall₃_congr fun z hz meets => ?_
    exact ⟨fun zero => zero.le, fun le => le_antisymm le (Description.meets_iff.1 meets _ mem).1⟩
  · -- What meets the linear rows does so with either sign.
    refine ⟨fun zero z hz meets => (zero z hz meets).le, fun le z hz meets => le_antisymm (le z hz meets) ?_⟩
    have opposite : d.linearPart.Meets (Row.neg z) := by
      rw [Description.meets_linearPart_iff] at meets ⊢
      intro row' mem'
      rw [Row.dot_comm, Row.dot_neg, Row.dot_comm, meets row' mem', neg_zero]
    have below := le (Row.neg z) ((Row.length_neg z).trans hz) opposite
    rwa [Row.dot_comm, Row.dot_neg, Row.dot_comm, neg_nonpos] at below

/-! ## Polyhedra by generators -/

theorem flaggedVectors_without_subset (b : Bool) {drop : SortedSet ℕ} :
    (d.without drop).flaggedVectors n b ⊆ d.flaggedVectors n b := by
  rintro _ ⟨row, mem, rfl⟩
  obtain ⟨i, at_i, -⟩ := Description.mem_flaggedRows_without.1 mem
  exact ⟨row, List.mem_of_getElem? at_i, rfl⟩

theorem flaggedVectors_without_linear :
    (d.without (reportedRows g d)).flaggedVectors n true = d.flaggedVectors n true := by
  refine (flaggedVectors_without_subset true).antisymm ?_
  rintro _ ⟨row, mem, rfl⟩
  exact ⟨row, linear_mem_without mem, rfl⟩

/-- Generators with a point generate all if they do so at height one. -/
theorem combines_point_without_iff (upright : d.Upright) (width : ∀ row ∈ d.rows, row.length = n)
    (some_point : ∃ row ∈ d.rows, Row.entry row 0 ≠ 0) :
    (∀ x : Row, x.length + 1 = n →
        ((∃ w, (d.without (reportedRows g d)).Combines w (1 :: x)) ↔ ∃ w, d.Combines w (1 :: x))) ↔
      ∀ y : Row, y.length = n →
        ((∃ w, (d.without (reportedRows g d)).Combines w y) ↔ ∃ w, d.Combines w y) := by
  obtain ⟨point, mem, ne⟩ := some_point
  have pos : 0 < n := by
    by_contra none
    exact ne (Row.entry_of_le ((width point mem).trans_le (not_lt.1 none)))
  have height {row : Row} (mem : row ∈ d.rows) :
      toForm n (Row.unit n 0) (toVector n row) = Row.entry row 0 := by
    rw [Row.toForm_toVector _ (width row mem), Row.dot_unit pos]
  refine ⟨fun same y hy => ?_, fun same x hx => same (1 :: x) hx⟩
  rw [← Description.generated_iff_exists_combines width hy,
    ← Description.generated_iff_exists_combines (length_without width) hy,
    flaggedVectors_without_linear]
  refine ⟨fun h => h.mono (flaggedVectors_without_subset false), fun h => h.trans ?_ le_rfl⟩
  have above := (forall_height_pos_iff (n := n) (Q := fun u =>
      Generated (d.flaggedVectors n false) (Submodule.span ℚ (d.flaggedVectors n true)) u →
        Generated ((d.without (reportedRows g d)).flaggedVectors n false)
          (Submodule.span ℚ (d.flaggedVectors n true)) u) fun u h c pos => by
    rwa [Generated.smul_iff pos, Generated.smul_iff pos]).2 fun x hx generated => by
    rw [← flaggedVectors_without_linear (g := g),
      Description.generated_iff_exists_combines (y := 1 :: x) (length_without width) hx, same x hx,
      ← Description.generated_iff_exists_combines (y := 1 :: x) width hx]
    exact generated
  have isPoint : toVector n point ∈ d.flaggedVectors n false := by
    obtain ⟨i, at_i⟩ := List.mem_iff_getElem?.1 mem
    refine ⟨point, Description.mem_flaggedRows.2 ⟨i, at_i, ?_⟩, rfl⟩
    rw [Bool.eq_false_iff, ne_eq, SortedSet.contains_iff]
    exact fun linear => ne (upright.linear i point at_i linear)
  have raised : 0 < toForm n (Row.unit n 0) (toVector n point) := by
    rw [height mem]
    exact (upright.head point mem).lt_of_ne' ne
  rintro _ ⟨row, hr, rfl⟩
  refine Generated.of_above (Description.finite_flaggedVectors _ n false) above (.of_mem isPoint) raised
    (.of_mem ⟨row, hr, rfl⟩) ?_
  have mem' := mem_rows_iff.2 ⟨_, hr⟩
  rw [height mem']
  exact upright.head row mem'

/-- Generators without a point describe none. -/
theorem not_combines_point (flat : ∀ row ∈ d.rows, Row.entry row 0 = 0) (x : Row) :
    ¬∃ w, d.Combines w (1 :: x) := by
  rintro ⟨w, combines⟩
  have one := combines.entries 0
  rw [Row.entry_cons_zero, Finset.sum_eq_zero fun i hi => ?_] at one
  · exact one_ne_zero one
  · have lt := Finset.mem_range.1 hi
    rw [List.getD_eq_getElem _ _ lt, flat _ (List.getElem_mem lt), mul_zero]

/-! ## Descriptions -/

theorem redundantRows_eq {maxRays : ℕ} (sound : d.fault? = none)
    (found : generators maxRays d.width (constraints d) = .ok g) :
    redundantRows maxRays d = .ok (reportedRows g d) := by
  rw [redundantRows, sound]
  simp only [found]
  rfl

theorem redundantRows_eq_limit {maxRays : ℕ} {error : Error} (sound : d.fault? = none)
    (failed : generators maxRays d.width (constraints d) = .error error) :
    redundantRows maxRays d = .error (.enumerationLimit maxRays) := by
  rw [redundantRows, sound, ← generators_error failed]
  simp only [failed]
  rfl

theorem describes_iff_meets (form : d.form = .inequalities) {x : Row} : d.Describes x ↔ d.Meets (1 :: x) := by
  rw [Description.Describes, form]

theorem describes_iff_combines (form : d.form = .generators) {x : Row} :
    d.Describes x ↔ ∃ w, d.Combines w (1 :: x) := by
  rw [Description.Describes, form]

/-- Dropping the rows reported changes nothing exactly if every row that acts as a linear one does
so by the linear rows alone, or no point is generated at all. -/
theorem describes_without_iff {maxRays : ℕ} (sound : d.fault? = none)
    (upright : d.form = .generators → d.Upright)
    (fits : redundantRows maxRays d ≠ .error (.enumerationLimit maxRays)) :
    ∃ drop, redundantRows maxRays d = .ok drop ∧
      ((∀ x : Row, x.length + 1 = d.width → ((d.without drop).Describes x ↔ d.Describes x)) ↔
        (d.form = .generators ∧ ∀ row ∈ d.rows, Row.entry row 0 = 0) ∨
          ∀ row, (row, false) ∈ d.flaggedRows → d.ActsLinear row → d.linearPart.ActsLinear row) := by
  have width := (Description.width_of_fault?_eq_none sound).2
  cases found : generators maxRays d.width (constraints d) with
  | error error => exact absurd (redundantRows_eq_limit sound found) fits
  | ok g =>
    have spans := generators_spec found
    refine ⟨_, redundantRows_eq sound found, ?_⟩
    cases form : d.form with
    | inequalities =>
      rw [constraints_eq form] at spans
      rw [or_iff_right fun h => Form.noConfusion h.1]
      refine Iff.trans ?_ ((meets_point_without_iff spans).trans ?_)
      · exact forall₂_congr fun x _ => by
          rw [describes_iff_meets (d := d.without _) form, describes_iff_meets form]
      · refine forall₂_congr fun row mem => ?_
        rw [Description.ActsLinear, Description.ActsLinear, show d.linearPart.form = d.form from rfl, form,
          width row (mem_rows_iff.2 ⟨_, mem⟩)]
    | generators =>
      rw [constraints, form] at spans
      have describes : (∀ x : Row, x.length + 1 = d.width →
            ((d.without (reportedRows g d)).Describes x ↔ d.Describes x)) ↔
          ∀ x : Row, x.length + 1 = d.width →
            ((∃ w, (d.without (reportedRows g d)).Combines w (1 :: x)) ↔ ∃ w, d.Combines w (1 :: x)) :=
        forall₂_congr fun x _ => by
          rw [describes_iff_combines (d := d.without _) form, describes_iff_combines form]
      rw [describes]
      by_cases flat : ∀ row ∈ d.rows, Row.entry row 0 = 0
      · have flat' : ∀ row ∈ (d.without (reportedRows g d)).rows, Row.entry row 0 = 0 :=
          fun row mem => flat row (mem_rows_of_mem_without mem)
        exact iff_of_true (fun x _ => iff_of_false (not_combines_point flat' x) (not_combines_point flat x))
          (.inl ⟨rfl, flat⟩)
      · rw [or_iff_right fun h => flat h.2]
        push Not at flat
        rw [combines_point_without_iff (upright form) width flat, combines_without_iff width spans]
        refine forall₂_congr fun row _ => ?_
        rw [Description.ActsLinear, Description.ActsLinear, show d.linearPart.form = d.form from rfl, form]

/-- A point with a direction and the opposite one. -/
def arrow : Description := ⟨.generators, [[1, 0], [0, 1], [0, -1]], ∅⟩

theorem describes_without_arrow_iff : arrow.fault? = none ∧ (arrow.form = .generators → arrow.Upright) ∧
    redundantRows defaultMaxRays arrow ≠ .error (.enumerationLimit defaultMaxRays) ∧
    ∃ drop, redundantRows defaultMaxRays arrow = .ok drop ∧
      ((∀ x : Row, x.length + 1 = 2 → ((arrow.without drop).Describes x ↔ arrow.Describes x)) ↔
        (arrow.form = .generators ∧ ∀ row ∈ arrow.rows, Row.entry row 0 = 0) ∨
          ∀ row, (row, false) ∈ arrow.flaggedRows → arrow.ActsLinear row →
            arrow.linearPart.ActsLinear row) := by
  have sound : arrow.fault? = none := by decide +kernel
  have upright : arrow.Upright :=
    ⟨by decide +kernel, fun i row _ mem => absurd mem SortedSet.not_mem_empty⟩
  have fits : redundantRows defaultMaxRays arrow ≠ .error (.enumerationLimit defaultMaxRays) := by
    decide +kernel
  exact ⟨sound, fun _ => upright, fits, describes_without_iff sound (fun _ => upright) fits⟩

/-- The points with `x ≥ 0`, `-x ≥ 0` and `y ≥ 0`. -/
def halfAxis : Description := ⟨.inequalities, [[0, 1, 0], [0, -1, 0], [0, 0, 1]], ∅⟩

/-- Both inequalities that are met with equality are reported, and without them `x` is free. -/
theorem not_describes_without_halfAxis : halfAxis.fault? = none ∧
    ∃ drop, redundantRows defaultMaxRays halfAxis = .ok drop ∧
      ¬∀ x : Row, x.length + 1 = halfAxis.width →
      ((halfAxis.without drop).Describes x ↔ halfAxis.Describes x) := by
  refine ⟨by decide +kernel, .ofList [0, 1], by decide +kernel, fun same => ?_⟩
  have inside : (halfAxis.without (.ofList [0, 1])).Describes [1, 0] :=
    (describes_iff_meets (d := halfAxis.without _) rfl).2 (Description.meets_iff.2 (by decide +kernel))
  have outside := (describes_iff_meets (d := halfAxis) rfl).1 ((same [1, 0] rfl).1 inside)
  exact absurd (outside.nonneg 1 [0, -1, 0] rfl) (by decide +kernel)

end DoubleDescription

end Prevision
