import Prevision.Proofs.Duality.Coordinates
import Prevision.Proofs.Duality.Representation
import Prevision.Proofs.Inference.Limits
import Prevision.Proofs.Model.Expectations

/-!
# The credal set of desirable gambles

The functions that have no negative product with a desirable gamble or the
indicator of a state form a cone, whose extreme rays are found by the
enumerator. Normalized, they are the members of the credal set
(`DesirabilitySet.exists_toCredalSet`).

The description of that cone has one more coordinate, the height. An extreme
ray lies on the axis of the height or has height zero (`entry_eq_zero`), and
the former stands for no member.
-/

namespace Prevision

open Enumeration (Generators generators generators_spec generators_describe halfspaces)
open Description (fault?_of_no_line flaggedRows_of_no_line width_of_no_line)
open DoubleDescription (atHeightOne constraints mem_cone_of_no_line slice)
open Row (toVector vectors toVector_mem_vectors)

variable {σ : Type} [State σ]

/-- The members are the extreme functions compatible with the desirable gambles, and generate all of these. -/
structure CredalSet.IsPolar (K : CredalSet σ) (D : DesirabilitySet σ) : Prop where
  compatible : ∀ p ∈ K.members, D.Compatible p.probability
  generates : ∀ q, D.Compatible q → Generated K.probabilities ⊥ q
  extreme : ∀ p ∈ K.members, ∀ u v, D.Compatible u → D.Compatible v → u + v = p.probability →
    ∃ a : ℚ, u = a • p.probability

theorem CredalSet.IsPolar.represents {K : CredalSet σ} {D : DesirabilitySet σ} (polar : K.IsPolar D) :
    K.Represents D := by
  refine ⟨fun p hp => (polar.compatible p hp).supports, fun f => DesirabilitySet.accepts_iff.trans ⟨?_, ?_⟩⟩
  · exact fun products p hp => products _ (polar.compatible p hp)
  · intro products q compatible
    refine (polar.generates q compatible).nonneg_bot ?_
    rintro _ ⟨p, hp, rfl⟩
    exact products p hp

namespace Duality

variable {S : SortedSet σ} {row : Row}

theorem isZero_tail_iff (width : row.length = S.size + 1) :
    Row.isZero row.tail = true ↔ onStates S (toVector _ row) = 0 := by
  refine ⟨onStates_eq_zero, fun zero => Row.isZero_iff.2 fun a ha => ?_⟩
  obtain ⟨i, hi, rfl⟩ := List.getElem_of_mem ha
  have lt : i < S.size := by
    rw [List.length_tail, width] at hi
    omega
  rw [← Row.entry_eq_getElem hi, Row.entry_tail, ← onStates_toVector (S := S) row ⟨i, lt⟩, zero]
  rfl

/-! ## The description of the cone -/

variable {D : DesirabilitySet σ} {y : Fin (D.domain.size + 1) → ℚ}

theorem length_of_mem_polar (hr : row ∈ (polar D).rows) : row.length = D.domain.size + 1 := by
  rcases List.mem_append.1 hr with ray | axis
  · obtain ⟨r, -, rfl⟩ := List.mem_map.1 ray
    exact length_lifted 0 r.payoff D.domain
  · obtain ⟨i, -, rfl⟩ := List.mem_map.1 axis
    rw [List.length_cons, Row.length_unit]
    rfl

theorem rows_polar_ne_nil (assessed : D.cones.isEmpty = false) : (polar D).rows ≠ [] := by
  obtain ⟨r, hr⟩ := DesirabilitySet.exists_generator assessed
  exact List.ne_nil_of_mem (List.mem_append_left _ (List.mem_map_of_mem hr))

theorem width_polar (assessed : D.cones.isEmpty = false) : (polar D).width = D.domain.size + 1 :=
  width_of_no_line (rows_polar_ne_nil assessed) fun _ => length_of_mem_polar

theorem fault?_polar (assessed : D.cones.isEmpty = false) : (polar D).fault? = none :=
  fault?_of_no_line (Nat.succ_ne_zero _) (rows_polar_ne_nil assessed) fun _ => length_of_mem_polar

theorem constraints_polar (assessed : D.cones.isEmpty = false) : constraints (polar D) =
    ((polar D).rows ++ [Row.unit (D.domain.size + 1) 0]).map fun row => (row, false) := by
  rw [List.map_append, ← width_polar assessed, ← flaggedRows_of_no_line .inequalities]
  rfl

/-- A row meets the constraints that come from the rays, the states and the height. -/
theorem forall_constraints_iff (row : Row) :
    (∀ h ∈ (polar D).rows ++ [Row.unit (D.domain.size + 1) 0], 0 ≤ Row.dot h row) ↔
      0 ≤ Row.entry row 0 ∧ D.Compatible (onStates D.domain (toVector _ row)) := by
  have axis (i : ℕ) (hi : i < D.domain.size) :
      Row.dot (0 :: Row.unit D.domain.toList.length i) row = Row.entry row (i + 1) := by
    cases row with
    | nil => rw [Row.dot_nil_right, Row.entry_nil]
    | cons b row =>
      rw [Row.dot_cons, zero_mul, zero_add, Row.entry_cons_succ]
      exact Row.dot_unit hi row
  have ray (r : Ray σ) : Row.dot (lifted 0 r.payoff D.domain.toList) row =
      D.domain.product r.payoff (onStates D.domain (toVector _ row)) := by rw [dot_lifted, zero_mul, zero_add]
  simp only [polar, List.forall_mem_append, List.forall_mem_map, List.mem_range, List.mem_singleton,
    forall_eq, Row.dot_unit (Nat.succ_pos _), ray, SortedSet.mem_toList]
  constructor
  · rintro ⟨⟨products, signs⟩, height⟩
    refine ⟨height, supports_onStates _, fun x => ?_, products⟩
    by_cases hx : x ∈ D.domain
    · obtain ⟨i, rfl⟩ := SortedSet.exists_nth hx
      rw [onStates_toVector, ← axis i i.2]
      exact signs i i.2
    · exact (supports_onStates _ x hx).ge
  · rintro ⟨height, compatible⟩
    refine ⟨⟨compatible.products, fun i hi => ?_⟩, height⟩
    rw [axis i hi, ← onStates_toVector (S := D.domain) row ⟨i, hi⟩]
    exact compatible.nonneg _

/-- The constraints of the polar description. -/
def polarSpaces (D : DesirabilitySet σ) : Halfspaces (Fin (D.domain.size + 1) → ℚ) :=
  halfspaces (D.domain.size + 1) (constraints (polar D))

theorem mem_cone_polar (assessed : D.cones.isEmpty = false) :
    y ∈ (polarSpaces D).cone (constraints (polar D)).length ↔
      0 ≤ y 0 ∧ D.Compatible (onStates D.domain y) := by
  have rows := forall_constraints_iff (D := D) (List.ofFn y)
  rw [Row.toVector_ofFn, Row.entry_ofFn_zero] at rows
  rw [← rows, polarSpaces, constraints_polar assessed]
  exact mem_cone_of_no_line _ y

/-- No line lies in the cone. -/
theorem lineality_polar (assessed : D.cones.isEmpty = false) :
    (polarSpaces D).lineality (constraints (polar D)).length = ⊥ := by
  refine (Submodule.eq_bot_iff _).2 fun y hy => ?_
  have above := (mem_cone_polar assessed).1 (Halfspaces.mem_cone_of_mem_lineality hy)
  have below := (mem_cone_polar assessed).1 (Halfspaces.mem_cone_of_mem_lineality (Submodule.neg_mem _ hy))
  refine eq_of_onStates (le_antisymm (neg_nonneg.1 below.1) above.1) ?_
  rw [map_zero]
  refine funext fun x => le_antisymm (neg_nonneg.1 ?_) (above.2.nonneg x)
  have := below.2.nonneg x
  rwa [map_neg] at this

/-! ## The members -/

/-- A function on the possibility space, at height zero. -/
def atHeightZero (D : DesirabilitySet σ) (q : σ → ℚ) : Fin (D.domain.size + 1) → ℚ :=
  toVector (D.domain.size + 1) (lifted 0 q D.domain.toList)

theorem atHeightZero_mem (assessed : D.cones.isEmpty = false) {q : σ → ℚ} (h : D.Compatible q) :
    atHeightZero D q ∈ (polarSpaces D).cone (constraints (polar D)).length := by
  rw [mem_cone_polar assessed, atHeightZero, onStates_lifted h.supports]
  exact ⟨le_rfl, h⟩

theorem onStates_atHeightZero {q : σ → ℚ} (h : D.Compatible q) : onStates D.domain (atHeightZero D q) = q :=
  onStates_lifted h.supports 0

/-- The enumerator has found the generators of the cone. -/
structure Found (D : DesirabilitySet σ) (g : Generators) : Prop where
  assessed : D.cones.isEmpty = false
  spans : g.Spans (D.domain.size + 1) (constraints (polar D))
  describes : (polarSpaces D).Describes (constraints (polar D)).length (vectors _ g.rays)

/-- A ray at height zero is a positive multiple of a mass function. -/
structure Member (D : DesirabilitySet σ) (g : Generators) (p : Pmf σ) (r : Row) (c : ℚ) : Prop where
  mem : r ∈ g.rays
  height : Row.entry r 0 = 0
  pos : 0 < c
  multiple : onStates D.domain (toVector _ r) = c • p.probability

namespace Found

variable {g : Generators} {r l : Row} (found : Found D g)

include found

theorem ray_mem (hr : r ∈ g.rays) : 0 ≤ Row.entry r 0 ∧ D.Compatible (onStates D.domain (toVector _ r)) :=
  (mem_cone_polar found.assessed).1 (found.spans.rays (toVector_mem_vectors hr))

theorem line_eq_zero (hl : l ∈ g.lines) : toVector (D.domain.size + 1) l = 0 := by
  have mem : toVector (D.domain.size + 1) l ∈ Submodule.span ℚ (vectors _ g.lines) :=
    Submodule.subset_span (toVector_mem_vectors hl)
  rw [found.spans.lines] at mem
  exact (Submodule.mem_bot ℚ).1 (lineality_polar found.assessed ▸ mem)

/-- Summands of a ray in the cone are multiples of it. -/
theorem summand (hr : r ∈ g.rays) {x y : Fin (D.domain.size + 1) → ℚ}
    (hx : x ∈ (polarSpaces D).cone (constraints (polar D)).length)
    (hy : y ∈ (polarSpaces D).cone (constraints (polar D)).length) (sum : x + y = toVector _ r) :
    ∃ a : ℚ, x = a • toVector _ r := by
  obtain ⟨a, line⟩ := (found.describes.extreme _ (toVector_mem_vectors hr)).summand x hx y hy sum
  rw [lineality_polar found.assessed, Submodule.mem_bot] at line
  exact ⟨a, sub_eq_zero.1 line⟩

/-- The axis of the height is generated, so some ray is above height zero. -/
theorem exists_ray_above : ∃ r ∈ g.rays, Row.entry r 0 ≠ 0 := by
  by_contra none
  push Not at none
  have apex : toVector (D.domain.size + 1) (lifted 1 0 D.domain.toList) ∈
      (polarSpaces D).cone (constraints (polar D)).length := by
    rw [mem_cone_polar found.assessed, onStates_lifted D.domain.supports_zero]
    exact ⟨zero_le_one, D.compatible_zero⟩
  have low := (found.spans.generates _ apex).nonneg (f := -LinearMap.proj 0) ?_ ?_
  · exact absurd (show (0 : ℚ) ≤ -1 from low) (by decide)
  · rintro _ ⟨r, hr, rfl⟩
    exact (neg_eq_zero.2 (none r hr)).ge
  · intro l hl
    rw [show l = 0 from (Submodule.mem_bot ℚ).1 (lineality_polar found.assessed ▸ hl), map_zero]

/-- A ray beside the axis of the height has height zero: it is the sum of its part along the axis
and the rest, and both are multiples of it. -/
theorem entry_eq_zero (hr : r ∈ g.rays) (ne : onStates D.domain (toVector _ r) ≠ 0) : Row.entry r 0 = 0 := by
  have ray := found.ray_mem hr
  set axis := toVector (D.domain.size + 1) (lifted (Row.entry r 0) 0 D.domain.toList) with axis_eq
  have onAxis : onStates D.domain axis = 0 := onStates_lifted D.domain.supports_zero _
  have sum : axis + atHeightZero D (onStates D.domain (toVector _ r)) = toVector _ r := by
    refine eq_of_onStates ?_ ?_
    · exact add_zero _
    · rw [map_add, onAxis, onStates_atHeightZero ray.2, zero_add]
  obtain ⟨a, multiple⟩ :=
    found.summand hr ((mem_cone_polar found.assessed).2 ⟨ray.1, onAxis ▸ D.compatible_zero⟩)
    (atHeightZero_mem found.assessed ray.2) sum
  have zero : a = 0 := by
    rw [multiple, map_smul] at onAxis
    exact (smul_eq_zero.1 onAxis).resolve_right ne
  have height := congrFun multiple 0
  rw [zero, zero_smul] at height
  exact height

theorem slice_eq : slice g = .ofRows .generators (g.rays.map atHeightOne) g.lines :=
  DoubleDescription.slice_eq found.exists_ray_above

/-- Only rays of height zero stand for gambles. -/
theorem exists_ray {f : Gamble σ} (hf : f ∈ gambles D.domain.toList (slice g)) :
    ∃ r ∈ g.rays, f = .ofList (D.domain.toList.zip r.tail) ∧ f.payoff = onStates D.domain (toVector _ r) ∧
      f.payoff ≠ 0 ∧ Row.entry r 0 = 0 := by
  rw [found.slice_eq, mem_gambles] at hf
  obtain ⟨row, nonzero, shape⟩ := hf
  have not_line : row ∉ g.lines := fun hl => by
    have zero := (isZero_tail_iff (S := D.domain) (found.spans.lineWidth row hl)).2
      (by rw [found.line_eq_zero hl, map_zero])
    exact absurd (zero.symm.trans nonzero) Bool.true_eq_false.mp
  obtain ⟨ray | line, rfl⟩ | ⟨line, -⟩ := shape
  · obtain ⟨r, hr, rfl⟩ := List.mem_map.1 ray
    have width := found.spans.rayWidth r hr
    obtain ⟨c, hc, same⟩ := DoubleDescription.exists_toVector_atHeightOne (n := D.domain.size + 1)
      (found.ray_mem hr).1
    have ne : onStates D.domain (toVector _ r) ≠ 0 := fun zero => by
      rw [Bool.eq_false_iff, ne_eq,
        isZero_tail_iff ((DoubleDescription.length_atHeightOne r).trans width), same,
        map_smul, zero, smul_zero] at nonzero
      exact nonzero rfl
    have height := found.entry_eq_zero hr ne
    rw [show atHeightOne r = r from if_pos height]
    have payoff := payoff_ofList_tail width
    exact ⟨r, hr, rfl, payoff, payoff ▸ ne, height⟩
  · exact absurd line not_line
  · exact absurd line not_line

/-- A gamble that a ray stands for is a positive multiple of a member. -/
theorem exists_member {f : Gamble σ} (hf : f ∈ gambles D.domain.toList (slice g)) :
    ∃ (p : Pmf σ) (r : Row) (c : ℚ), Pmf.ofGamble f = .ok p ∧ Member D g p r c ∧
      f.payoff = c • p.probability := by
  obtain ⟨r, hr, shape, payoff, ne, height⟩ := found.exists_ray hf
  have compatible := (found.ray_mem hr).2
  rw [← payoff] at compatible
  have within : ∀ x ∈ f.domain, x ∈ D.domain := fun x hx => by
    rwa [shape, Gamble.domain_ofList_zip (by rw [List.length_tail, found.spans.rayWidth r hr]; rfl)] at hx
  have mass : f.mass = ∑ x ∈ D.domain.toFinset, f.payoff x := Table.total_eq_sum within
  have pos : 0 < f.mass := by
    obtain ⟨x, hx⟩ := Function.ne_iff.1 ne
    rw [mass]
    refine Finset.sum_pos' (fun x _ => compatible.nonneg x)
      ⟨x, ?_, lt_of_le_of_ne (compatible.nonneg x) (Ne.symm hx)⟩
    exact not_not.1 fun out => hx (compatible.supports x out)
  obtain ⟨p, made, probability⟩ := Pmf.exists_ofGamble (Gamble.nonneg_of_payoff compatible.nonneg) pos
  have multiple : f.payoff = f.mass • p.probability := funext fun x => by
    rw [Pi.smul_apply, probability, smul_eq_mul, mul_inv_cancel_left₀ pos.ne']
  exact ⟨p, r, f.mass, made, ⟨hr, height, pos, payoff ▸ multiple⟩, multiple⟩

theorem compatible {p : Pmf σ} {c : ℚ} (member : Member D g p r c) : D.Compatible p.probability := by
  have := (found.ray_mem member.mem).2.smul (inv_nonneg.2 member.pos.le)
  rwa [member.multiple, smul_smul, inv_mul_cancel₀ member.pos.ne', one_smul] at this

/-- Summands of a member are multiples of it, since at height zero they give summands of the ray. -/
theorem extreme {p : Pmf σ} {c : ℚ} (member : Member D g p r c) {u v : σ → ℚ} (hu : D.Compatible u)
    (hv : D.Compatible v) (sum : u + v = p.probability) : ∃ a : ℚ, u = a • p.probability := by
  have hu := hu.smul member.pos.le
  have hv := hv.smul member.pos.le
  have sums : atHeightZero D (c • u) + atHeightZero D (c • v) = toVector _ r := by
    refine eq_of_onStates ((add_zero 0).trans member.height.symm) ?_
    rw [map_add, onStates_atHeightZero hu, onStates_atHeightZero hv, member.multiple, ← sum, smul_add]
  obtain ⟨a, part⟩ := found.summand member.mem (atHeightZero_mem found.assessed hu)
    (atHeightZero_mem found.assessed hv) sums
  refine ⟨a, smul_right_injective _ member.pos.ne' ?_⟩
  have := congrArg (onStates D.domain) part
  rw [onStates_atHeightZero hu, map_smul, member.multiple] at this
  exact this.trans (smul_comm a c p.probability)

/-- What generates the gambles that the rays stand for generates every compatible function. -/
theorem generated {T : Set (σ → ℚ)}
    (gamble : ∀ f ∈ gambles D.domain.toList (slice g), Generated T ⊥ f.payoff) {q : σ → ℚ}
    (hq : D.Compatible q) :
    Generated T ⊥ q := by
  have generated := found.spans.generates _ (atHeightZero_mem found.assessed hq)
  rw [← found.spans.lines,
    ← DoubleDescription.generated_atHeightOne_iff fun r hr => (found.ray_mem hr).1] at generated
  rw [found.slice_eq] at gamble
  rw [← onStates_atHeightZero hq]
  refine generated_onStates .generators ?_ found.spans.lineWidth gamble generated
  intro _ mem
  obtain ⟨r, hr, rfl⟩ := List.mem_map.1 mem
  exact (DoubleDescription.length_atHeightOne r).trans (found.spans.rayWidth r hr)

/-- The credal set of the members that the rays stand for. -/
theorem exists_ofList : ∃ ps, (gambles D.domain.toList (slice g)).mapM Pmf.ofGamble = .ok ps ∧
    (CredalSet.ofList ps).IsPolar D := by
  obtain ⟨ps, done, mem⟩ := exists_mapM (f := Pmf.ofGamble) (l := gambles D.domain.toList (slice g))
    fun f hf => (found.exists_member hf).imp fun p ⟨_, _, made, _⟩ => made
  have mem (p : Pmf σ) : p ∈ (CredalSet.ofList ps).members ↔
      ∃ f ∈ gambles D.domain.toList (slice g), Pmf.ofGamble f = .ok p := SortedSet.mem_ofList.trans (mem p)
  have member {p : Pmf σ} (hp : p ∈ (CredalSet.ofList ps).members) : ∃ r c, Member D g p r c := by
    obtain ⟨f, hf, made⟩ := (mem p).1 hp
    obtain ⟨p', r, c, made', member, -⟩ := found.exists_member hf
    cases made.symm.trans made'
    exact ⟨r, c, member⟩
  refine ⟨ps, done, ⟨fun p hp => ?_, fun q hq => found.generated (fun f hf => ?_) hq,
    fun p hp u v hu hv sum => ?_⟩⟩
  · obtain ⟨r, c, member⟩ := member hp
    exact found.compatible member
  · obtain ⟨p, r, c, made, member, multiple⟩ := found.exists_member hf
    rw [multiple]
    exact Generated.ray (CredalSet.mem_probabilities ((mem p).2 ⟨f, hf, made⟩)) member.pos.le
  · obtain ⟨r, c, member⟩ := member hp
    exact found.extreme member hu hv sum

end Found

end Duality

section Conversion

open Duality

variable {D : DesirabilitySet σ} {limits : Limits}

/-- The members of the credal set are the extreme functions compatible with the desirable gambles,
unless there are too many rays. -/
theorem DesirabilitySet.exists_toCredalSet_or_limit (assessed : D.cones.isEmpty = false) :
    (∃ K : CredalSet σ, ((Reasoner.within limits).toCredalSet D).run = .ok K ∧ K.IsPolar D) ∨
    ((Reasoner.within limits).toCredalSet D).run = .error (.enumerationLimit limits.maxRays) := by
  have space : (Query.ofExcept (m := Id) D.possibilitySpace).run = .ok D.domain :=
    D.possibilitySpace_eq assessed
  rcases Reasoner.run_converted_or_limit limits (fault?_polar assessed) with
    ⟨g, generated, converted⟩ | failed
  · rw [width_polar assessed] at generated
    obtain ⟨ps, made, polar⟩ :=
      Found.exists_ofList ⟨assessed, generators_spec generated, generators_describe generated⟩
    refine .inl ⟨.ofList ps, (Query.run_bind_ok space).trans ((Query.run_bind_ok converted).trans ?_), polar⟩
    show (do return CredalSet.ofList (← List.mapM Pmf.ofGamble _) : Except Error (CredalSet σ)) = _
    rw [show gambles D.domain.toList (g.described (Duality.polar D).form) =
      gambles D.domain.toList (slice g) from rfl, made]
    rfl
  · exact .inr ((Query.run_bind_ok space).trans (Query.run_bind_error failed))

/-- Within the limits, the members of the credal set are the extreme functions compatible with the desirable
gambles. -/
theorem DesirabilitySet.exists_toCredalSet (assessed : D.cones.isEmpty = false)
    (fits : ((Reasoner.within limits).toCredalSet D).hitsLimit = false) :
    ∃ K : CredalSet σ, ((Reasoner.within limits).toCredalSet D).run = .ok K ∧ K.IsPolar D :=
  Query.resolve_limit fits (exists_toCredalSet_or_limit assessed)

end Conversion

end Prevision
