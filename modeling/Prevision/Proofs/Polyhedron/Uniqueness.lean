import Prevision.Proofs.Polyhedron.Dropping
import Prevision.Proofs.Polyhedron.Minimal

/-!
# Conversions without lines are unique

A cone without lines has one extreme ray for each of its minimal generators, up
to positive multiples, and only one multiple has norm one. So minimal generators
of the same cone are the same rows, if they are normalized (`Minimal.mem_rays_iff`),
and at height one they stay so.

Two descriptions agree if the same points satisfy them or they generate the same
vectors. Then the cones that `convert` enumerates are the same: generators agree if
the same vectors meet them, and of inequalities with a point, the cone over the
polyhedron is the closure of what lies above height zero (`coneOf_subset`). Other
ways to list the rows agree (`Restated.agrees`), by what a single change to a list
of rows does to the vectors that meet them (`Restates.forall_met_iff`). So
descriptions that agree are converted into the same rows, unless there are lines
(`convert_unique`).
-/

namespace Prevision

open Enumeration (Generators generators halfspaces)
open Row (toVector toForm vectors toVector_mem_vectors)

/-! ## The same cone -/

namespace Halfspaces

variable {V : Type*} [AddCommGroup V] [Module ℚ V] {H H' : Halfspaces V} {k k' : ℕ} {R R' : Set V} {p r u : V}

theorem lineality_eq_of_cone_eq (same : H.cone k = H'.cone k') : H.lineality k = H'.lineality k' := by
  have opposite {K : Halfspaces V} {j : ℕ} (l : V) : l ∈ K.lineality j ↔ l ∈ K.cone j ∧ -l ∈ K.cone j :=
    ⟨fun hl => ⟨mem_cone_of_mem_lineality hl, mem_cone_of_mem_lineality (Submodule.neg_mem _ hl)⟩,
      fun both => mem_lineality_of_neg_mem both.1 both.2⟩
  ext l
  rw [opposite, opposite, same]

/-- A ray is a positive multiple of one of the rays that also describe the cone, up to lines. -/
theorem Describes.exists_multiple (h : H.Describes k R) (h' : H'.Describes k' R')
    (same : H.cone k = H'.cone k')
    (hr : r ∈ R) : ∃ s ∈ R', ∃ a : ℚ, 0 < a ∧ r - a • s ∈ H.lineality k := by
  have extreme := h.extreme r hr
  have rays : R' ⊆ H.cone k := same ▸ h'.subset_cone
  have generated := h'.generates r (same ▸ extreme.mem)
  rw [← lineality_eq_of_cone_eq same] at generated
  obtain ⟨s, hs, a, near⟩ := extreme.exists_multiple rays generated
  exact ⟨s, hs, a, pos_of_multiple extreme.mem extreme.not_line (rays hs) near, near⟩

/-- The cone is closed: it holds a vector if it holds its sums with small multiples of some other. -/
theorem mem_cone_of_forall_pos (near : ∀ t : ℚ, 0 < t → t • p + u ∈ H.cone k) : u ∈ H.cone k := by
  intro i hi
  have value (t : ℚ) : H.form i (t • p + u) = t * H.form i p + H.form i u := by
    rw [map_add, map_smul, smul_eq_mul]
  refine ⟨?_, fun equality => ?_⟩
  · by_contra negative
    rw [not_le] at negative
    have one := (near 1 one_pos i hi).1
    rw [value, one_mul] at one
    have pos : 0 < H.form i p := by linarith
    have half := (near (-H.form i u / (2 * H.form i p)) (div_pos (neg_pos.2 negative) (by positivity)) i hi).1
    rw [value, div_mul_eq_mul_div, mul_div_mul_right _ _ pos.ne'] at half
    linarith
  · have one := (near 1 one_pos i hi).2 equality
    have two := (near 2 two_pos i hi).2 equality
    rw [value] at one two
    linarith

end Halfspaces

/-! ## Normalized rows -/

namespace Row

theorem norm_normalized {r : Row} (ne : norm (normalized r) ≠ 0) : norm (normalized r) = 1 := by
  unfold normalized at ne ⊢
  split at ne
  · contradiction
  · rename_i nonzero
    rw [if_neg nonzero, norm_scale (inv_pos.2 ((norm_nonneg r).lt_of_ne' nonzero)), inv_mul_cancel₀ nonzero]

/-- Of the positive multiples of a row, one is normalized. -/
theorem eq_of_normalized {r s : Row} {a : ℚ} (hr : ∃ v, r = normalized v) (hs : ∃ v, s = normalized v)
    (ne : norm r ≠ 0) (pos : 0 < a) (multiple : r = scale a s) : r = s := by
  have norms : norm r = a * norm s := by rw [multiple, norm_scale pos]
  have ne' : norm s ≠ 0 := fun zero => ne (by rw [norms, zero, mul_zero])
  have one : a = 1 := by
    obtain ⟨v, rfl⟩ := hr
    obtain ⟨w, rfl⟩ := hs
    rw [norm_normalized ne, norm_normalized ne', mul_one] at norms
    exact norms.symm
  rw [multiple, one, scale_one]

end Row

namespace Minimal

variable {n k k' : ℕ} {H H' : Halfspaces (Fin n → ℚ)} {rays lines rays' lines' : List Row} {r : Row}

theorem lines_eq_nil_iff (minimal : Minimal H k rays lines) : lines = [] ↔ H.lineality k = ⊥ := by
  constructor
  · rintro rfl
    rw [← minimal.span, Submodule.span_eq_bot]
    rintro _ ⟨l, hl, -⟩
    exact absurd hl List.not_mem_nil
  · intro pointed
    have count := minimal.lineCount
    rw [pointed, finrank_bot] at count
    exact List.length_eq_zero_iff.1 (Nat.le_zero.1 count)

theorem mem_rays_of_mem (minimal : Minimal H k rays lines) (minimal' : Minimal H' k' rays' lines')
    (normal : ∀ r ∈ rays, ∃ v, r = Row.normalized v) (normal' : ∀ r ∈ rays', ∃ v, r = Row.normalized v)
    (same : H.cone k = H'.cone k') (pointed : lines = []) (hr : r ∈ rays) : r ∈ rays' := by
  have ray := toVector_mem_vectors (d := n) hr
  obtain ⟨_, ⟨s, hs, rfl⟩, a, pos, near⟩ := minimal.describes.exists_multiple minimal'.describes same ray
  have notLine := (minimal.describes.extreme _ ray).not_line
  rw [minimal.lines_eq_nil_iff.1 pointed, Submodule.mem_bot] at near notLine
  rw [sub_eq_zero, ← Row.toVector_scale] at near
  have multiple : r = Row.scale a s := Row.toVector_injective (minimal.rayWidth r hr)
    ((Row.length_scale a s).trans (minimal'.rayWidth s hs)) near
  have nonzero : Row.norm r ≠ 0 := fun zero => notLine <| by
    have flat := Row.isZero_iff.1 (Row.norm_eq_zero_iff.1 zero)
    funext i
    have lt : (i : ℕ) < r.length := (minimal.rayWidth r hr).symm ▸ i.isLt
    rw [toVector, Row.entry_eq_getElem lt]
    exact flat _ (List.getElem_mem lt)
  rwa [Row.eq_of_normalized (normal r hr) (normal' s hs) nonzero pos multiple]

/-- Minimal generators of the same cone without lines are the same rows, if they are normalized. -/
theorem mem_rays_iff (minimal : Minimal H k rays lines) (minimal' : Minimal H' k' rays' lines')
    (normal : ∀ r ∈ rays, ∃ v, r = Row.normalized v) (normal' : ∀ r ∈ rays', ∃ v, r = Row.normalized v)
    (same : H.cone k = H'.cone k') (pointed : lines = []) : lines' = [] ∧ ∀ r, r ∈ rays ↔ r ∈ rays' := by
  have pointed' : lines' = [] := by
    rw [minimal'.lines_eq_nil_iff, ← Halfspaces.lineality_eq_of_cone_eq same]
    exact minimal.lines_eq_nil_iff.1 pointed
  exact ⟨pointed', fun r => ⟨minimal.mem_rays_of_mem minimal' normal normal' same pointed,
    minimal'.mem_rays_of_mem minimal normal' normal same.symm pointed'⟩⟩

end Minimal

/-! ## Descriptions of the same -/

namespace Description

variable {d d' : Description} {form : Form} {n : ℕ} {list list' : List (Row × Bool)} {row z : Row}

/-- The same points satisfy the descriptions, or they generate the same vectors. -/
structure Agrees (d d' : Description) : Prop where
  form : d.form = d'.form
  width : d.width = d'.width
  satisfies : d.form = .inequalities → ∀ x, d.Satisfies x ↔ d'.Satisfies x
  combines : d.form = .generators → ∀ y : Row, y.length = d.width →
    ((∃ w, d.Combines w y) ↔ ∃ w, d'.Combines w y)

/-- The row adds nothing: all points satisfy it, or it is generated. -/
def Implies (d : Description) (n : ℕ) (row : Row) : Prop :=
  match d.form with
  | .inequalities => ∀ x : Row, x.length + 1 = n → d.Meets (1 :: x) → 0 ≤ Row.eval row x
  | .generators => ∃ w, d.Combines w row

/-- One change to a list of rows of width `n`, each with whether it is linear, that keeps what it
stands for. -/
inductive Restates (form : Form) (n : ℕ) : List (Row × Bool) → List (Row × Bool) → Prop
  | reordered {list list' : List (Row × Bool)} : list.Perm list' → Restates form n list list'
  | repeated {list : List (Row × Bool)} {c : Row × Bool} : c ∈ list → Restates form n list (c :: list)
  | rescaled {list : List (Row × Bool)} {row : Row} {b : Bool} {a : ℚ} : 0 < a →
      Restates form n ((row, b) :: list) ((Row.scale a row, b) :: list)
  | opened {list : List (Row × Bool)} {row : Row} :
      Restates form n ((row, true) :: list) ((row, false) :: (Row.neg row, false) :: list)
  | extended {list : List (Row × Bool)} {row : Row} {b : Bool} :
      row.length = n → (ofFlagged form list).Implies n row →
      (b = true → (ofFlagged form list).Implies n (Row.neg row)) → Restates form n list ((row, b) :: list)

/-- The rows come from those of another description by such changes. -/
structure Restated (d d' : Description) : Prop where
  form : d.form = d'.form
  width : d.width = d'.width
  rows : Relation.ReflTransGen (Restates d.form d.width) d.flaggedRows d'.flaggedRows

/-- The product with the row is not negative, and zero if the row is linear. -/
def Met (z : Row) (c : Row × Bool) : Prop := 0 ≤ Row.dot c.1 z ∧ (c.2 = true → Row.dot c.1 z = 0)

/-- The vectors that tell descriptions apart: those at height one for inequalities, and all for generators. -/
def Probes (form : Form) (n : ℕ) (z : Row) : Prop := z.length = n ∧ (form = .inequalities → ∃ x, z = 1 :: x)

theorem meets_ofFlagged_iff : (ofFlagged form list).Meets z ↔ ∀ c ∈ list, Met z c := by
  rw [meets_iff, flaggedRows_ofFlagged]
  rfl

theorem met_true_iff : Met z (row, true) ↔ Met z (row, false) ∧ Met z (Row.neg row, false) := by
  simp only [Met, true_imp_iff, Bool.false_eq_true, false_imp_iff, and_true, Row.dot_neg, neg_nonneg]
  exact ⟨fun zero => ⟨zero.1, zero.2.le⟩, fun both => ⟨both.1, le_antisymm both.2 both.1⟩⟩

theorem met_scale_iff {a : ℚ} (pos : 0 < a) {b : Bool} : Met z (Row.scale a row, b) ↔ Met z (row, b) := by
  simp only [Met, Row.dot_scale, mul_nonneg_iff_of_pos_left pos, mul_eq_zero, pos.ne', false_or]

/-- What meets the rows meets a row that adds nothing. -/
theorem Implies.met (implied : (ofFlagged form list).Implies n row) (width : ∀ c ∈ list, c.1.length = n)
    (hr : row.length = n) (probes : Probes form n z) (met : ∀ c ∈ list, Met z c) : Met z (row, false) := by
  refine ⟨?_, fun e => absurd e Bool.false_ne_true⟩
  have met : (ofFlagged form list).Meets z := meets_ofFlagged_iff.2 met
  cases form with
  | inequalities =>
    obtain ⟨x, rfl⟩ := probes.2 rfl
    rw [DoubleDescription.dot_cons_one]
    exact implied x probes.1 met
  | generators =>
    have rows : ∀ row ∈ (ofFlagged .generators list).rows, row.length = n := List.forall_mem_map.2 width
    rw [Row.dot_comm]
    exact (DoubleDescription.exists_combines_iff_dot_nonneg rows hr).1 implied z probes.1 met

theorem Restates.width (h : Restates form n list list') (width : ∀ c ∈ list, c.1.length = n) :
    ∀ c ∈ list', c.1.length = n := by
  cases h with
  | reordered perm => exact fun c hc => width c (perm.mem_iff.2 hc)
  | repeated mem => exact List.forall_mem_cons.2 ⟨width _ mem, width⟩
  | @rescaled list row b a _ =>
    obtain ⟨first, rest⟩ := List.forall_mem_cons.1 width
    exact List.forall_mem_cons.2 ⟨(Row.length_scale a row).trans first, rest⟩
  | @opened list row =>
    obtain ⟨first, rest⟩ := List.forall_mem_cons.1 width
    exact List.forall_mem_cons.2 ⟨first, List.forall_mem_cons.2 ⟨(Row.length_neg row).trans first, rest⟩⟩
  | extended hr => exact List.forall_mem_cons.2 ⟨hr, width⟩

/-- After a change, the same vectors meet the rows. -/
theorem Restates.forall_met_iff (h : Restates form n list list') (width : ∀ c ∈ list, c.1.length = n)
    (probes : Probes form n z) : (∀ c ∈ list', Met z c) ↔ ∀ c ∈ list, Met z c := by
  cases h with
  | reordered perm => exact forall_congr' fun c => imp_congr_left perm.mem_iff.symm
  | repeated mem =>
    rw [List.forall_mem_cons]
    exact and_iff_right_of_imp fun met => met _ mem
  | rescaled pos => rw [List.forall_mem_cons, List.forall_mem_cons, met_scale_iff pos]
  | opened => rw [List.forall_mem_cons, List.forall_mem_cons, List.forall_mem_cons, met_true_iff, and_assoc]
  | @extended _ row b hr implied opposite =>
    rw [List.forall_mem_cons]
    refine and_iff_right_of_imp fun met => ?_
    have above := implied.met width hr probes met
    cases b with
    | false => exact above
    | true =>
      exact met_true_iff.2 ⟨above, (opposite rfl).met width ((Row.length_neg row).trans hr) probes met⟩

/-- After any number of changes, the same vectors meet the rows. -/
theorem forall_met_iff_of_reflTransGen (h : Relation.ReflTransGen (Restates form n) list list')
    (width : ∀ c ∈ list, c.1.length = n) (probes : Probes form n z) :
    (∀ c ∈ list', c.1.length = n) ∧ ((∀ c ∈ list', Met z c) ↔ ∀ c ∈ list, Met z c) := by
  induction h with
  | refl => exact ⟨width, Iff.rfl⟩
  | tail _ step ih =>
    obtain ⟨width', same⟩ := ih
    exact ⟨step.width width', (step.forall_met_iff width' probes).trans same⟩

theorem Restated.meets_iff (restated : d.Restated d') (sound : d.fault? = none)
    (probes : Probes d.form d.width z) :
    d'.Meets z ↔ d.Meets z := by
  have width : ∀ c ∈ d.flaggedRows, c.1.length = d.width := fun c hc =>
    (width_of_fault?_eq_none sound).2 c.1 (DoubleDescription.mem_rows_iff.2 ⟨c.2, hc⟩)
  rw [Description.meets_iff, Description.meets_iff]
  exact (forall_met_iff_of_reflTransGen restated.rows width probes).2

/-- A description by rows that come from those of another agrees with it. -/
theorem Restated.agrees (restated : d.Restated d') (sound : d.fault? = none) (sound' : d'.fault? = none) :
    d.Agrees d' := by
  refine ⟨restated.form, restated.width, fun form x => ?_, fun form => ?_⟩
  · by_cases width : x.length + 1 = d.width
    · have probes : Probes d.form d.width (1 :: x) := ⟨width, fun _ => ⟨x, rfl⟩⟩
      rw [DoubleDescription.satisfies_iff_meets width,
        DoubleDescription.satisfies_iff_meets (width.trans restated.width)]
      exact (restated.meets_iff sound probes).symm
    · exact iff_of_false (fun sat => width sat.width) fun sat => width (sat.width.trans restated.width.symm)
  · have rows := (width_of_fault?_eq_none sound).2
    have rows' := (width_of_fault?_eq_none sound').2
    rw [← restated.width] at rows'
    refine (DoubleDescription.combines_congr rows' rows).2 fun z hz =>
      (restated.meets_iff sound ⟨hz, ?_⟩).symm
    rw [form]
    rintro ⟨⟩

/-- Rows followed by linear rows have no linear rows exactly if these are none. -/
theorem linear_ofRows_eq_empty_iff {rows lines : List Row} :
    (ofRows form rows lines).linear = ∅ ↔ lines = [] := by
  constructor
  · intro none
    by_contra some_line
    have pos := List.length_pos_of_ne_nil some_line
    have mem : rows.length ∈ (ofRows form rows lines).linear := mem_linear_ofRows.2 ⟨le_rfl, by omega⟩
    rw [none] at mem
    exact SortedSet.not_mem_empty mem
  · rintro rfl
    rfl

end Description

/-! ## Conversions -/

namespace DoubleDescription

variable {d d' : Description} {g g' : Generators} {maxRays maxRays' : ℕ}

/-- If the points of one polyhedron lie in another, then the cone over it lies in the cone over
the other, as long as it has a point. -/
theorem coneOf_subset (form : d.form = .inequalities) (form' : d'.form = .inequalities)
    (width : d'.width = d.width)
    (within : ∀ x, d.Satisfies x → d'.Satisfies x) {p : Row} (point : d.Satisfies p) :
    coneOf d.width (constraints d) ⊆ coneOf d.width (constraints d') := by
  have mem' {x : Row} (hx : x.length + 1 = d.width) :
      toVector d.width (1 :: x) ∈ coneOf d.width (constraints d') ↔ d'.Satisfies x := by
    rw [← width] at hx ⊢
    exact mem_cone_iff_satisfies form' hx
  have above := (forall_height_pos_iff (n := d.width) (Q := fun u =>
      u ∈ coneOf d.width (constraints d) → u ∈ coneOf d.width (constraints d')) fun u h c pos => by
    rwa [smul_mem_cone_iff pos, smul_mem_cone_iff pos]).2 fun x hx inside =>
      (mem' hx).2 (within x ((mem_cone_iff_satisfies form hx).1 inside))
  intro u hu
  have height : 0 ≤ toForm d.width (Row.unit d.width 0) u :=
    (mem_cone_iff_toForm.1 hu _ (List.mem_of_getElem? (last_constraint form))).1
  refine Halfspaces.mem_cone_of_forall_pos (p := toVector d.width (1 :: p)) fun t ht => above _ ?_ ?_
  · rw [map_add, map_smul, height_point point.width, smul_eq_mul, mul_one]
    exact add_pos_of_pos_of_nonneg ht height
  · exact Halfspaces.add_mem_cone
      (Halfspaces.smul_mem_cone ((mem_cone_iff_satisfies form point.width).2 point) ht.le) hu

/-- The cones over polyhedra with the same points are the same, if there is one. -/
theorem coneOf_eq_of_agrees (agrees : d.Agrees d') (form : d.form = .inequalities)
    (some_point : ∃ x, d.Satisfies x) :
    coneOf d.width (constraints d) = coneOf d.width (constraints d') := by
  obtain ⟨p, point⟩ := some_point
  have form' := agrees.form.symm.trans form
  have same := agrees.satisfies form
  have back := coneOf_subset form' form agrees.width (fun x => (same x).2) ((same p).1 point)
  rw [← agrees.width] at back
  exact (coneOf_subset form form' agrees.width.symm (fun x => (same x).1) point).antisymm back

/-- The cones dual to generators of the same vectors are the same. -/
theorem coneOf_eq_of_combines (sound : d.fault? = none) (sound' : d'.fault? = none) (agrees : d.Agrees d')
    (form : d.form = .generators) : coneOf d.width (constraints d) = coneOf d.width (constraints d') := by
  have rows := (Description.width_of_fault?_eq_none sound).2
  have rows' := (Description.width_of_fault?_eq_none sound').2
  rw [← agrees.width] at rows'
  have meets := (combines_congr rows' rows).1 (agrees.combines form)
  rw [constraints, constraints, ← agrees.form, form]
  refine Set.ext (forall_vector_iff.2 fun z hz => ?_)
  rw [mem_cone_flaggedRows hz, mem_cone_flaggedRows hz, meets z hz]

/-- Some ray reaches height one exactly if the polyhedron has a point. -/
theorem exists_ray_iff (sound : d.fault? = none) (form : d.form = .inequalities)
    (spans : g.Spans d.width (constraints d)) : (∃ r ∈ g.rays, Row.entry r 0 ≠ 0) ↔ ∃ x, d.Satisfies x := by
  have pos := Nat.pos_of_ne_zero (Description.width_of_fault?_eq_none sound).1
  exact ⟨fun ⟨r, hr, ne⟩ => ⟨_, satisfies_of_ray form pos spans hr ne⟩,
    fun ⟨x, sat⟩ => exists_ray_of_satisfies form pos spans sat⟩

theorem mem_rays_iff_of_coneOf_eq {n : ℕ} {cs cs' : List (Row × Bool)}
    (found : generators maxRays n cs = .ok g)
    (found' : generators maxRays' n cs' = .ok g') (same : coneOf n cs = coneOf n cs')
    (pointed : g.lines = []) :
    g'.lines = [] ∧ ∀ r, r ∈ g.rays ↔ r ∈ g'.rays := by
  obtain ⟨minimal, normal⟩ := minimal_of_generators found
  obtain ⟨minimal', normal'⟩ := minimal_of_generators found'
  exact minimal.mem_rays_iff minimal' normal normal' same pointed

/-- Of polyhedra with the same points, the generators at height one are the same. -/
theorem slice_unique (sound : d.fault? = none) (sound' : d'.fault? = none) (agrees : d.Agrees d')
    (form : d.form = .inequalities) (found : generators maxRays d.width (constraints d) = .ok g)
    (found' : generators maxRays' d'.width (constraints d') = .ok g') (pointed : (slice g).linear = ∅) :
    (slice g').linear = ∅ ∧ ∀ row, row ∈ (slice g).rows ↔ row ∈ (slice g').rows := by
  have points : (∃ x, d.Satisfies x) ↔ ∃ x, d'.Satisfies x := exists_congr (agrees.satisfies form)
  have rays := exists_ray_iff sound form (Enumeration.generators_spec found)
  have rays' := exists_ray_iff sound' (agrees.form ▸ form) (Enumeration.generators_spec found')
  by_cases some_point : ∃ x, d.Satisfies x
  · rw [slice_eq (rays.2 some_point)] at pointed ⊢
    rw [slice_eq (rays'.2 (points.1 some_point)), Description.linear_ofRows_eq_empty_iff]
    rw [Description.linear_ofRows_eq_empty_iff] at pointed
    rw [← agrees.width] at found'
    obtain ⟨pointed', same⟩ :=
      mem_rays_iff_of_coneOf_eq found found' (coneOf_eq_of_agrees agrees form some_point) pointed
    refine ⟨pointed', fun row => ?_⟩
    show row ∈ g.rays.map atHeightOne ++ g.lines ↔ row ∈ g'.rays.map atHeightOne ++ g'.lines
    rw [pointed, pointed', List.append_nil, List.append_nil, List.mem_map, List.mem_map]
    exact exists_congr fun r => and_congr_left fun _ => same r
  · rw [slice_eq_of_no_ray (fun ray => some_point (rays.1 ray)),
      slice_eq_of_no_ray fun ray => some_point (points.2 (rays'.1 ray))]
    exact ⟨rfl, fun _ => Iff.rfl⟩

/-- Descriptions of the same, such as those by rows that are listed in another way, are converted
into the same rows, unless there are lines. -/
theorem convert_unique (sound : d.fault? = none) (sound' : d'.fault? = none)
    (fits : convert maxRays d ≠ .error (.enumerationLimit maxRays))
    (fits' : convert maxRays' d' ≠ .error (.enumerationLimit maxRays')) :
    ∃ out out', convert maxRays d = .ok out ∧ convert maxRays' d' = .ok out' ∧
      (d.Agrees d' ∨ d.Restated d' → out.linear = ∅ →
        out'.linear = ∅ ∧ ∀ row, row ∈ out.rows ↔ row ∈ out'.rows) := by
  cases found : generators maxRays d.width (constraints d) with
  | error error => exact absurd (convert_eq_limit sound found) fits
  | ok g =>
    cases found' : generators maxRays' d'.width (constraints d') with
    | error error => exact absurd (convert_eq_limit sound' found') fits'
    | ok g' =>
      refine ⟨_, _, convert_eq sound found, convert_eq sound' found', fun same pointed => ?_⟩
      have agrees : d.Agrees d' := same.elim id fun restated => restated.agrees sound sound'
      rw [← agrees.form]
      cases form : d.form with
      | inequalities =>
        rw [form] at pointed
        exact slice_unique sound sound' agrees form found found' pointed
      | generators =>
        rw [form] at pointed
        have pointed := Description.linear_ofRows_eq_empty_iff.1 pointed
        rw [← agrees.width] at found'
        obtain ⟨pointed', same⟩ := mem_rays_iff_of_coneOf_eq found found'
          (coneOf_eq_of_combines sound sound' agrees form) pointed
        refine ⟨Description.linear_ofRows_eq_empty_iff.2 pointed', fun row => ?_⟩
        show row ∈ g.rays ++ g.lines ↔ row ∈ g'.rays ++ g'.lines
        rw [pointed, pointed', List.append_nil, List.append_nil, same]

/-- The unit interval by two inequalities. -/
def unitInterval : Description := ⟨.inequalities, [[0, 1], [1, -1]], ∅⟩

/-- The same inequalities in another order, one of them twice as large, and one that they imply. -/
def unitIntervalTwice : Description := ⟨.inequalities, [[2, -1], [2, -2], [0, 1]], ∅⟩

theorem unitInterval_restated : unitInterval.Restated unitIntervalTwice := by
  have rows : unitInterval.flaggedRows = [([0, 1], false), ([1, -1], false)] := rfl
  have rows' : unitIntervalTwice.flaggedRows = [([2, -1], false), ([2, -2], false), ([0, 1], false)] := rfl
  have twice : Row.scale 2 [1, -1] = [2, -2] := by decide +kernel
  have implied :
      (Description.ofFlagged .inequalities [([2, -2], false), ([0, 1], false)]).Implies 2 [2, -1] := by
    intro x width meets
    obtain ⟨a, rfl⟩ := List.length_eq_one_iff.1 (Nat.succ_injective width)
    have bound := (Description.meets_ofFlagged_iff.1 meets ([2, -2], false) List.mem_cons_self).1
    rw [← DoubleDescription.dot_cons_one]
    simp only [Row.dot_cons, Row.dot_nil_left] at bound ⊢
    linarith
  refine ⟨rfl, rfl, ?_⟩
  rw [← twice] at implied
  rw [rows, rows', ← twice]
  exact .tail (.tail (.tail .refl (.reordered (.swap _ _ _))) (.rescaled two_pos))
    (.extended rfl implied nofun)

theorem convert_unique_unitInterval : unitInterval.fault? = none ∧ unitIntervalTwice.fault? = none ∧
    convert 3 unitInterval ≠ .error (.enumerationLimit 3) ∧
    convert 3 unitIntervalTwice ≠ .error (.enumerationLimit 3) ∧
    ∃ out, convert 3 unitIntervalTwice = .ok out ∧ out.linear = ∅ ∧
      ∀ row, row ∈ [[1, 1], [1, 0]] ↔ row ∈ out.rows := by
  have sound : unitInterval.fault? = none := by decide +kernel
  have sound' : unitIntervalTwice.fault? = none := by decide +kernel
  have fits : convert 3 unitInterval ≠ .error (.enumerationLimit 3) := by decide +kernel
  have fits' : convert 3 unitIntervalTwice ≠ .error (.enumerationLimit 3) := by decide +kernel
  have converted : convert 3 unitInterval = .ok ⟨.generators, [[1, 1], [1, 0]], ∅⟩ := by decide +kernel
  obtain ⟨out, out', eq, eq', unique⟩ := convert_unique sound sound' fits fits'
  cases converted.symm.trans eq
  exact ⟨sound, sound', fits, fits', out', eq', unique (.inr unitInterval_restated) rfl⟩

end DoubleDescription

end Prevision
