import Mathlib.LinearAlgebra.Dimension.Constructions
import Mathlib.LinearAlgebra.FiniteDimensional.Lemmas
import Mathlib.LinearAlgebra.Pi
import Mathlib.Tactic.FieldSimp
import Mathlib.Tactic.Positivity
import Prevision.Proofs.Polyhedron.Generated

/-!
# Cutting a cone by one more half space

The constraints of a cone come in sequence, as linear forms that are to be
nonnegative or zero. `Describes k R` says that `R` holds one ray for each
extreme ray of the cone that the first `k` constraints cut out, up to the
lines in it, and that these rays generate the cone.

* `Describes.alongLine`: a constraint that is not zero on some line moves the
  rays along that line into its plane, and makes the line a ray;
* `Describes.acrossRays`: a constraint that is zero on every line keeps the rays
  on its positive side and in its plane, and adds one ray for every adjacent
  pair across its plane.

The second rests on two facts about a vector `y` in the plane. Unless its face
is a single ray of the new cone, `y` is the sum of two vectors that meet more
constraints (`exists_bound`). If it is one, the face of `y` before the cut
holds two rays at most, which are therefore adjacent (`adjacent_of_narrow`).
-/

namespace Prevision

variable {V : Type*} [AddCommGroup V] [Module ℚ V]

/-- Constraints in sequence: forms that are to be nonnegative, or zero if they are equalities. -/
structure Halfspaces (V : Type*) [AddCommGroup V] [Module ℚ V] where
  form : ℕ → V →ₗ[ℚ] ℚ
  equality : ℕ → Prop

namespace Halfspaces

variable (H : Halfspaces V) {k : ℕ} {R : Set V} {x y z r s : V}

/-- The vectors that satisfy the first `k` constraints. -/
def cone (k : ℕ) : Set V := {y | ∀ i < k, 0 ≤ H.form i y ∧ (H.equality i → H.form i y = 0)}

/-- The lines in the cone: the vectors on which the first `k` forms vanish. -/
def lineality (k : ℕ) : Submodule ℚ V where
  carrier := {y | ∀ i < k, H.form i y = 0}
  zero_mem' := fun i _ => map_zero (H.form i)
  add_mem' := fun hx hy i hi => by rw [map_add, hx i hi, hy i hi, add_zero]
  smul_mem' := fun c y hy i hi => by rw [map_smul, hy i hi, smul_zero]

/-- The constraints among the first `k` that a vector meets with equality. -/
def tight (k : ℕ) (y : V) : Finset ℕ := {i ∈ Finset.range k | H.form i y = 0}

/-- A ray that is no line and whose summands in the cone are multiples of it, up to lines. -/
structure Extreme (k : ℕ) (r : V) : Prop where
  mem : r ∈ H.cone k
  not_line : r ∉ H.lineality k
  summand : ∀ x ∈ H.cone k, ∀ y ∈ H.cone k, x + y = r → ∃ a : ℚ, x - a • r ∈ H.lineality k

/-- The rays in `R` generate the cone, are extreme in it and no two of them are multiples of one
another, up to lines. -/
structure Describes (k : ℕ) (R : Set V) : Prop where
  generates : ∀ y ∈ H.cone k, Generated R (H.lineality k) y
  extreme : ∀ r ∈ R, H.Extreme k r
  apart : ∀ r ∈ R, ∀ s ∈ R, ∀ a : ℚ, r - a • s ∈ H.lineality k → r = s

variable {H}

theorem mem_cone : y ∈ H.cone k ↔ ∀ i < k, 0 ≤ H.form i y ∧ (H.equality i → H.form i y = 0) := Iff.rfl

theorem mem_lineality : y ∈ H.lineality k ↔ ∀ i < k, H.form i y = 0 := Iff.rfl

theorem mem_tight {i : ℕ} : i ∈ H.tight k y ↔ i < k ∧ H.form i y = 0 := by
  rw [tight, Finset.mem_filter, Finset.mem_range]

theorem mem_tight_succ {i : ℕ} :
    i ∈ H.tight (k + 1) y ↔ i ∈ H.tight k y ∨ i = k ∧ H.form k y = 0 := by
  rw [mem_tight, mem_tight, Nat.lt_succ_iff_lt_or_eq, or_and_right]
  exact or_congr_right (and_congr_right fun e => by rw [e])

theorem mem_lineality_succ :
    y ∈ H.lineality (k + 1) ↔ y ∈ H.lineality k ∧ H.form k y = 0 := by
  simp only [mem_lineality, Nat.lt_succ_iff_lt_or_eq, or_imp, forall_and, forall_eq]

theorem mem_cone_succ : y ∈ H.cone (k + 1) ↔
    y ∈ H.cone k ∧ 0 ≤ H.form k y ∧ (H.equality k → H.form k y = 0) := by
  simp only [mem_cone, Nat.lt_succ_iff_lt_or_eq, or_imp, forall_and, forall_eq]
  tauto

theorem add_mem_cone (hx : x ∈ H.cone k) (hy : y ∈ H.cone k) : x + y ∈ H.cone k := by
  intro i hi
  rw [map_add]
  refine ⟨add_nonneg (hx i hi).1 (hy i hi).1, fun e => ?_⟩
  rw [(hx i hi).2 e, (hy i hi).2 e, add_zero]

theorem smul_mem_cone (hy : y ∈ H.cone k) {c : ℚ} (hc : 0 ≤ c) : c • y ∈ H.cone k := by
  intro i hi
  rw [map_smul, smul_eq_mul]
  refine ⟨mul_nonneg hc (hy i hi).1, fun e => ?_⟩
  rw [(hy i hi).2 e, mul_zero]

theorem mem_cone_of_mem_lineality (hy : y ∈ H.lineality k) : y ∈ H.cone k :=
  fun i hi => ⟨(hy i hi).ge, fun _ => hy i hi⟩

theorem add_line_mem_cone (hx : x ∈ H.cone k) (hy : y ∈ H.lineality k) : x + y ∈ H.cone k :=
  add_mem_cone hx (mem_cone_of_mem_lineality hy)

theorem mem_cone_of_generated (rays : R ⊆ H.cone k) (h : Generated R (H.lineality k) y) :
    y ∈ H.cone k :=
  h.mem_of_closed (fun _ => mem_cone_of_mem_lineality) fun _ hu _ hr _ ha =>
    add_mem_cone hu (smul_mem_cone (rays hr) ha)

theorem Describes.subset_cone (h : H.Describes k R) : R ⊆ H.cone k := fun r hr => (h.extreme r hr).mem

theorem tight_subset_of_add (hx : x ∈ H.cone k) (hy : y ∈ H.cone k) :
    H.tight k (x + y) ⊆ H.tight k x := by
  intro i hi
  rw [mem_tight, map_add] at hi
  exact mem_tight.2 ⟨hi.1, ((add_eq_zero_iff_of_nonneg (hx i hi.1).1 (hy i hi.1).1).1 hi.2).1⟩

theorem tight_smul {c : ℚ} (hc : c ≠ 0) : H.tight k (c • y) = H.tight k y := by
  ext i
  rw [mem_tight, mem_tight, map_smul, smul_eq_mul, mul_eq_zero, or_iff_right hc]

/-- Vectors that differ by a line meet the same constraints with equality. -/
theorem tight_congr (h : x - y ∈ H.lineality k) : H.tight k x = H.tight k y := by
  ext i
  rw [mem_tight, mem_tight]
  refine and_congr_right fun hi => ?_
  have same : H.form i x - H.form i y = 0 := by rw [← map_sub]; exact h i hi
  rw [sub_eq_zero.1 same]

theorem exists_form_pos (hx : x ∈ H.cone k) (h : x ∉ H.lineality k) : ∃ i < k, 0 < H.form i x := by
  by_contra none
  push Not at none
  exact h fun i hi => le_antisymm (none i hi) (hx i hi).1

/-- A vector of the cone that is no line is a positive multiple, if it is a multiple at all. -/
theorem pos_of_multiple (hx : x ∈ H.cone k) (h : x ∉ H.lineality k) (hy : y ∈ H.cone k) {a : ℚ}
    (multiple : x - a • y ∈ H.lineality k) : 0 < a := by
  obtain ⟨i, hi, pos⟩ := exists_form_pos hx h
  have value := multiple i hi
  rw [map_sub, map_smul, smul_eq_mul, sub_eq_zero] at value
  rw [value] at pos
  exact pos_of_mul_pos_left pos (hy i hi).1

theorem mem_lineality_of_neg_mem (hx : x ∈ H.cone k) (hn : -x ∈ H.cone k) : x ∈ H.lineality k := by
  intro i hi
  have := (hn i hi).1
  rw [map_neg] at this
  exact le_antisymm (by linarith) (hx i hi).1

theorem describes_zero (H : Halfspaces V) : H.Describes 0 ∅ :=
  ⟨fun _ _ => .line fun _ hi => absurd hi (Nat.not_lt_zero _), fun _ => False.elim, fun _ => False.elim⟩

/-! ## A constraint that is not zero on some line -/

/-- A vector moved along `l` into the plane of constraint number `k`. -/
def slide (H : Halfspaces V) (k : ℕ) (l : V) : V →ₗ[ℚ] V :=
  LinearMap.id - (H.form k).smulRight ((H.form k l)⁻¹ • l)

section Line

variable {l : V}

theorem slide_apply (l v : V) : H.slide k l v = v - (H.form k v * (H.form k l)⁻¹) • l := by
  rw [slide, LinearMap.sub_apply, LinearMap.id_apply, LinearMap.smulRight_apply, smul_smul]

theorem form_slide (pos : 0 < H.form k l) (v : V) : H.form k (H.slide k l v) = 0 := by
  rw [slide_apply, map_sub, map_smul, smul_eq_mul, inv_mul_cancel_right₀ pos.ne', sub_self]

theorem slide_self (pos : 0 < H.form k l) : H.slide k l l = 0 := by
  rw [slide_apply, mul_inv_cancel₀ pos.ne', one_smul, sub_self]

theorem slide_of_form_eq_zero {v : V} (h : H.form k v = 0) : H.slide k l v = v := by
  rw [slide_apply, h, zero_mul, zero_smul, sub_zero]

theorem sub_slide_mem (hl : l ∈ H.lineality k) (v : V) : v - H.slide k l v ∈ H.lineality k := by
  rw [slide_apply, sub_sub_cancel]
  exact Submodule.smul_mem _ _ hl

theorem slide_mem_lineality (hl : l ∈ H.lineality k) (pos : 0 < H.form k l) {v : V}
    (hv : v ∈ H.lineality k) : H.slide k l v ∈ H.lineality (k + 1) := by
  refine mem_lineality_succ.2 ⟨?_, form_slide pos v⟩
  rw [slide_apply]
  exact Submodule.sub_mem _ hv (Submodule.smul_mem _ _ hl)

theorem slide_mem_cone (hl : l ∈ H.lineality k) (pos : 0 < H.form k l) {v : V} (hv : v ∈ H.cone k) :
    H.slide k l v ∈ H.cone (k + 1) := by
  refine mem_cone_succ.2 ⟨?_, (form_slide pos v).ge, fun _ => form_slide pos v⟩
  rw [slide_apply, sub_eq_add_neg, ← neg_smul]
  exact add_line_mem_cone hv (Submodule.smul_mem _ _ hl)

theorem slide_not_mem_lineality (hl : l ∈ H.lineality k) {v : V} (hv : v ∉ H.lineality k) :
    H.slide k l v ∉ H.lineality k := fun h => by
  have := Submodule.add_mem _ (sub_slide_mem hl v) h
  rw [sub_add_cancel] at this
  exact hv this

/-- An extreme ray stays extreme when it is moved along a line into a plane. -/
theorem Extreme.slide (h : H.Extreme k r) (hl : l ∈ H.lineality k) (pos : 0 < H.form k l) :
    H.Extreme (k + 1) (H.slide k l r) := by
  refine ⟨slide_mem_cone hl pos h.mem, fun mem =>
    slide_not_mem_lineality hl h.not_line (mem_lineality_succ.1 mem).1, fun x hx y hy sum => ?_⟩
  obtain ⟨hx, hx', -⟩ := mem_cone_succ.1 hx
  obtain ⟨hy, hy', -⟩ := mem_cone_succ.1 hy
  have zero : H.form k x = 0 := by
    have := form_slide pos r
    rw [← sum, map_add] at this
    exact ((add_eq_zero_iff_of_nonneg hx' hy').1 this).1
  have whole : x + (y + (r - H.slide k l r)) = r := by rw [← sum]; abel
  obtain ⟨a, ha⟩ := h.summand x hx _ (add_line_mem_cone hy (sub_slide_mem hl r)) whole
  have slid := slide_mem_lineality hl pos ha
  rw [map_sub, map_smul, slide_of_form_eq_zero zero] at slid
  exact ⟨a, slid⟩

/-- The line becomes an extreme ray. -/
theorem extreme_of_line (hl : l ∈ H.lineality k) (pos : 0 < H.form k l) (ineq : ¬H.equality k) :
    H.Extreme (k + 1) l := by
  refine ⟨mem_cone_succ.2 ⟨mem_cone_of_mem_lineality hl, pos.le, fun e => absurd e ineq⟩,
    fun mem => pos.ne' (mem_lineality_succ.1 mem).2, fun x hx y hy sum => ?_⟩
  have hx := (mem_cone_succ.1 hx).1
  have hy := (mem_cone_succ.1 hy).1
  have line : x ∈ H.lineality k := by
    refine mem_lineality_of_neg_mem hx ?_
    rw [neg_eq_of_add_eq_zero_right (show x + (y - l) = 0 by rw [← sum]; abel), sub_eq_add_neg]
    exact add_line_mem_cone hy (Submodule.neg_mem _ hl)
  refine ⟨H.form k x * (H.form k l)⁻¹, ?_⟩
  rw [← slide_apply]
  exact slide_mem_lineality hl pos line

/-- Positive multiples of extreme rays are extreme. -/
theorem Extreme.smul (h : H.Extreme k r) {c : ℚ} (hc : 0 < c) : H.Extreme k (c • r) := by
  refine ⟨smul_mem_cone h.mem hc.le, fun mem => h.not_line ?_, fun x hx y hy sum => ?_⟩
  · have := Submodule.smul_mem _ c⁻¹ mem
    rwa [smul_smul, inv_mul_cancel₀ hc.ne', one_smul] at this
  · have whole : c⁻¹ • x + c⁻¹ • y = r := by
      rw [← smul_add, sum, smul_smul, inv_mul_cancel₀ hc.ne', one_smul]
    have pos := inv_nonneg.2 hc.le
    obtain ⟨a, ha⟩ := h.summand _ (smul_mem_cone hx pos) _ (smul_mem_cone hy pos) whole
    refine ⟨a, ?_⟩
    have := Submodule.smul_mem _ c ha
    rwa [smul_sub, smul_smul, mul_inv_cancel₀ hc.ne', one_smul, smul_comm] at this

/-- Rays that are moved to multiples of one another are equal. -/
theorem Describes.eq_of_slide (h : H.Describes k R) (hl : l ∈ H.lineality k) (hr : r ∈ R) (hs : s ∈ R)
    {b c : ℚ} (hc : c ≠ 0) (multiple : c • H.slide k l r - b • H.slide k l s ∈ H.lineality k) : r = s := by
  have parts : c • r - b • s = (c • H.slide k l r - b • H.slide k l s) +
      (c • (r - H.slide k l r) - b • (s - H.slide k l s)) := by module
  have same : c • r - b • s ∈ H.lineality k := by
    rw [parts]
    exact Submodule.add_mem _ multiple (Submodule.sub_mem _
      (Submodule.smul_mem _ _ (sub_slide_mem hl r)) (Submodule.smul_mem _ _ (sub_slide_mem hl s)))
  have := Submodule.smul_mem _ c⁻¹ same
  rw [smul_sub, smul_smul, inv_mul_cancel₀ hc, one_smul, smul_smul] at this
  exact h.apart r hr s hs _ this

/-- The vectors in `S` are the rays in `R` moved along the line `l` into the plane, and the line itself
unless the constraint is an equality, all up to positive multiples. -/
structure AlongLine (H : Halfspaces V) (k : ℕ) (l : V) (R S : Set V) (move : V → V) (lead : V) : Prop where
  member : l ∈ H.lineality k
  positive : 0 < H.form k l
  moved : ∀ r ∈ R, ∃ c : ℚ, 0 < c ∧ move r = c • H.slide k l r
  led : ∃ c : ℚ, 0 < c ∧ lead = c • l
  rays : ∀ v, v ∈ S ↔ (∃ r ∈ R, v = move r) ∨ ¬H.equality k ∧ v = lead

section AlongLine

variable {S : Set V} {move : V → V} {lead : V} (a : AlongLine H k l R S move lead)

include a

theorem AlongLine.form_move (hr : r ∈ R) : H.form k (move r) = 0 := by
  obtain ⟨c, -, e⟩ := a.moved r hr
  rw [e, map_smul, form_slide a.positive, smul_zero]

theorem AlongLine.form_lead_ne : H.form k lead ≠ 0 := by
  obtain ⟨b, hb, e⟩ := a.led
  rw [e, map_smul, smul_eq_mul]
  exact (mul_pos hb a.positive).ne'

theorem AlongLine.generates (h : H.Describes k R) (hy : y ∈ H.cone (k + 1)) :
    Generated S (H.lineality (k + 1)) y := by
  have slid : Generated S (H.lineality (k + 1)) (H.slide k l y) := by
    refine (h.generates y (mem_cone_succ.1 hy).1).map _ (fun r hr => ?_) fun v hv =>
      slide_mem_lineality a.member a.positive hv
    obtain ⟨c, hc, e⟩ := a.moved r hr
    have : H.slide k l r = c⁻¹ • move r := by rw [e, smul_smul, inv_mul_cancel₀ hc.ne', one_smul]
    rw [this]
    exact .ray ((a.rays _).2 (.inl ⟨r, hr, rfl⟩)) (inv_nonneg.2 hc.le)
  obtain ⟨-, nonneg, tight⟩ := mem_cone_succ.1 hy
  by_cases eq : H.equality k
  · rwa [slide_of_form_eq_zero (tight eq)] at slid
  · obtain ⟨b, hb, e⟩ := a.led
    have parts : y = H.slide k l y + (H.form k y * (H.form k l)⁻¹ * b⁻¹) • lead := by
      rw [e, slide_apply, smul_smul, inv_mul_cancel_right₀ hb.ne', sub_add_cancel]
    have pos := a.positive
    rw [parts]
    exact slid.addRay ((a.rays _).2 (.inr ⟨eq, rfl⟩)) (by positivity)

theorem AlongLine.extreme_move (h : H.Describes k R) (hr : r ∈ R) : H.Extreme (k + 1) (move r) := by
  obtain ⟨c, hc, e⟩ := a.moved r hr
  rw [e]
  exact ((h.extreme r hr).slide a.member a.positive).smul hc

theorem AlongLine.extreme (h : H.Describes k R) {v : V} (hv : v ∈ S) : H.Extreme (k + 1) v := by
  rcases (a.rays v).1 hv with ⟨r, hr, rfl⟩ | ⟨ineq, rfl⟩
  · exact a.extreme_move h hr
  · obtain ⟨b, hb, e⟩ := a.led
    rw [e]
    exact (extreme_of_line a.member a.positive ineq).smul hb

/-- The moved rays are apart as they were before, and from the line by the constraint. -/
theorem AlongLine.apart (h : H.Describes k R) {v w : V} (hv : v ∈ S) (hw : w ∈ S) {c : ℚ}
    (multiple : v - c • w ∈ H.lineality (k + 1)) : v = w := by
  have value := (mem_lineality_succ.1 multiple).2
  rw [map_sub, map_smul, smul_eq_mul, sub_eq_zero] at value
  rcases (a.rays v).1 hv with ⟨r, hr, rfl⟩ | ⟨-, rfl⟩ <;>
    rcases (a.rays w).1 hw with ⟨s, hs, rfl⟩ | ⟨-, rfl⟩
  · obtain ⟨b, hb, e⟩ := a.moved r hr
    obtain ⟨b', -, e'⟩ := a.moved s hs
    have near := (mem_lineality_succ.1 multiple).1
    rw [e, e', smul_smul] at near
    rw [h.eq_of_slide a.member hr hs hb.ne' near]
  · rw [a.form_move hr, eq_comm, mul_eq_zero, or_iff_left a.form_lead_ne] at value
    rw [value, zero_smul, sub_zero] at multiple
    exact absurd multiple (a.extreme_move h hr).not_line
  · rw [a.form_move hs, mul_zero] at value
    exact absurd value a.form_lead_ne
  · rfl

/-- A constraint that is not zero on some line moves the rays along that line into its plane, and makes
it a ray unless it is an equality. -/
theorem Describes.alongLine (h : H.Describes k R) : H.Describes (k + 1) S :=
  ⟨fun _ hy => a.generates h hy, fun _ hv => a.extreme h hv,
    fun _ hv _ hw _ multiple => a.apart h hv hw multiple⟩

end AlongLine

end Line

/-! ## A constraint that is zero on every line -/

section Rays

variable {p n v : V}

theorem lineality_succ (flat : ∀ l ∈ H.lineality k, H.form k l = 0) :
    H.lineality (k + 1) = H.lineality k := by
  ext l
  rw [mem_lineality_succ]
  exact and_iff_left_of_imp (flat l)

/-- Only the rays in its face generate a vector of the cone. -/
theorem Describes.face (h : H.Describes k R) (hy : y ∈ H.cone k) :
    Generated {r ∈ R | H.tight k y ⊆ H.tight k r} (H.lineality k) y := by
  have tight := (h.generates y hy).face (f := H.form) (T := H.tight k y)
    (fun i hi r hr => (h.subset_cone hr i (mem_tight.1 hi).1).1) (fun i hi l hl => hl i (mem_tight.1 hi).1)
    (fun i hi => (mem_tight.1 hi).2)
  exact tight.mono fun r hr => ⟨hr.1, fun i hi => mem_tight.2 ⟨(mem_tight.1 hi).1, hr.2 i hi⟩⟩

/-- From a vector of the cone one can go against a direction in its face until one more constraint
holds with equality. -/
theorem exists_bound (hy : y ∈ H.cone k) (ne : y ∉ H.lineality k)
    (hv : ∀ i ∈ H.tight k y, H.form i v = 0) :
    ∃ t : ℚ, t • y - v ∈ H.cone k ∧ H.tight k y ⊂ H.tight k (t • y - v) := by
  obtain ⟨j, hj, pos⟩ := exists_form_pos hy ne
  obtain ⟨m, hm, max⟩ := ({i ∈ Finset.range k | 0 < H.form i y}).exists_max_image
    (fun i => H.form i v / H.form i y) ⟨j, Finset.mem_filter.2 ⟨Finset.mem_range.2 hj, pos⟩⟩
  obtain ⟨lt, pos⟩ := Finset.mem_filter.1 hm
  have lt := Finset.mem_range.1 lt
  have value (i : ℕ) : H.form i ((H.form m v / H.form m y) • y - v) =
      H.form m v / H.form m y * H.form i y - H.form i v := by rw [map_sub, map_smul, smul_eq_mul]
  refine ⟨H.form m v / H.form m y, fun i hi => ?_,
    Finset.ssubset_iff_subset_ne.2 ⟨fun i hi => ?_, fun e => ?_⟩⟩
  · rw [value]
    rcases (hy i hi).1.lt_or_eq with positive | zero
    · have := max i (Finset.mem_filter.2 ⟨Finset.mem_range.2 hi, positive⟩)
      rw [div_le_iff₀ positive] at this
      exact ⟨sub_nonneg.2 this, fun e => absurd ((hy i hi).2 e) positive.ne'⟩
    · have := hv i (mem_tight.2 ⟨hi, zero.symm⟩)
      rw [this, ← zero, mul_zero, sub_zero]
      exact ⟨le_rfl, fun _ => rfl⟩
  · have := mem_tight.1 hi
    rw [mem_tight, value, this.2, hv i hi, mul_zero, sub_zero]
    exact ⟨this.1, rfl⟩
  · have more : m ∈ H.tight k ((H.form m v / H.form m y) • y - v) := by
      rw [mem_tight, value, div_mul_cancel₀ _ pos.ne', sub_self]
      exact ⟨lt, rfl⟩
    rw [← e, mem_tight] at more
    exact pos.ne' more.2

/-- The face of a vector meets the plane of constraint number `k` in the multiples of the vector
only, up to lines. -/
def Narrow (H : Halfspaces V) (k : ℕ) (y : V) : Prop :=
  ∀ v, (∀ i ∈ H.tight k y, H.form i v = 0) → H.form k v = 0 → ∃ a : ℚ, v - a • y ∈ H.lineality k

theorem exists_parts (hy : y ∈ H.cone k) (zero : H.form k y = 0) (ne : y ∉ H.lineality k)
    (wide : ¬H.Narrow k y) : ∃ u w : V, ∃ c : ℚ, 0 < c ∧ c • y = u + w ∧
      (u ∈ H.cone k ∧ H.form k u = 0 ∧ H.tight k y ⊂ H.tight k u) ∧
      (w ∈ H.cone k ∧ H.form k w = 0 ∧ H.tight k y ⊂ H.tight k w) := by
  rw [Narrow] at wide
  push Not at wide
  obtain ⟨v, hv, flat, far⟩ := wide
  obtain ⟨s, hs, more⟩ := exists_bound hy ne hv
  obtain ⟨t, ht, more'⟩ := exists_bound (v := -v) hy ne fun i hi => by rw [map_neg, hv i hi, neg_zero]
  have sum : (s + t) • y = (s • y - v) + (t • y - -v) := by module
  have pos : 0 < s + t := by
    by_contra le
    have opposite : -(s • y - v) = (t • y - -v) + (-(s + t)) • y := by module
    have line := mem_lineality_of_neg_mem hs
      (by rw [opposite]; exact add_mem_cone ht (smul_mem_cone hy (by linarith)))
    refine far s ?_
    rw [← neg_sub]
    exact Submodule.neg_mem _ line
  refine ⟨_, _, s + t, pos, sum, ⟨hs, ?_, more⟩, ht, ?_, more'⟩
  · rw [map_sub, map_smul, zero, flat, smul_zero, sub_zero]
  · rw [map_sub, map_smul, map_neg, zero, flat, smul_zero, neg_zero, sub_zero]

theorem Narrow.multiple (h : H.Narrow k y) (hy : y ∈ H.cone k) (hv : v ∈ H.cone k)
    (ne : v ∉ H.lineality k) (face : H.tight k y ⊆ H.tight k v) (zero : H.form k v = 0) :
    ∃ a : ℚ, 0 < a ∧ v - a • y ∈ H.lineality k := by
  obtain ⟨a, ha⟩ := h v (fun i hi => (mem_tight.1 (face hi)).2) zero
  exact ⟨a, pos_of_multiple hv ne hy ha, ha⟩

/-- The combination of `p` and `n` in the plane of constraint number `k`. -/
def bridge (H : Halfspaces V) (k : ℕ) (p n : V) : V := H.form k p • n - H.form k n • p

theorem form_bridge (i : ℕ) :
    H.form i (H.bridge k p n) = H.form k p * H.form i n - H.form k n * H.form i p := by
  rw [bridge, map_sub, map_smul, map_smul, smul_eq_mul, smul_eq_mul]

theorem form_bridge_self : H.form k (H.bridge k p n) = 0 := by
  rw [form_bridge, mul_comm, sub_self]

theorem bridge_mem_cone (hp : p ∈ H.cone k) (hn : n ∈ H.cone k) (pos : 0 < H.form k p)
    (neg : H.form k n < 0) : H.bridge k p n ∈ H.cone k := by
  rw [bridge, sub_eq_add_neg, ← neg_smul]
  exact add_mem_cone (smul_mem_cone hn pos.le) (smul_mem_cone hp (neg_nonneg.2 neg.le))

theorem tight_bridge (hp : p ∈ H.cone k) (hn : n ∈ H.cone k) (pos : 0 < H.form k p)
    (neg : H.form k n < 0) : H.tight k (H.bridge k p n) = H.tight k p ∩ H.tight k n := by
  ext i
  rw [Finset.mem_inter, mem_tight, mem_tight, mem_tight, form_bridge, ← and_and_left]
  refine and_congr_right fun hi => ?_
  rw [sub_eq_add_neg, ← neg_mul, add_eq_zero_iff_of_nonneg (mul_nonneg pos.le (hn i hi).1)
    (mul_nonneg (neg_nonneg.2 neg.le) (hp i hi).1), mul_eq_zero, mul_eq_zero, neg_eq_zero,
    or_iff_right pos.ne', or_iff_right neg.ne, and_comm]

theorem bridge_not_mem (flat : ∀ l ∈ H.lineality k, H.form k l = 0) (hp : p ∈ H.cone k)
    (hn : n ∈ H.cone k) (pos : 0 < H.form k p) (neg : H.form k n < 0) :
    H.bridge k p n ∉ H.lineality k := by
  intro line
  refine pos.ne' (flat p fun i hi => ?_)
  have : i ∈ H.tight k (H.bridge k p n) := mem_tight.2 ⟨hi, line i hi⟩
  rw [tight_bridge hp hn pos neg, Finset.mem_inter, mem_tight] at this
  exact this.1.2

/-- A ray that another with a vector of the cone adds up to is that other ray. -/
theorem Describes.eq_of_add (h : H.Describes k R) (hp : p ∈ R) (hr : r ∈ R) (hz : z ∈ H.cone k)
    {a b c : ℚ} (ha : 0 < a) (hb : 0 < b) (hc : 0 ≤ c) (sum : a • r + c • z - b • p ∈ H.lineality k) :
    r = p := by
  have scaled := Submodule.smul_mem _ (-b⁻¹) sum
  have whole : (b⁻¹ * a) • r + ((b⁻¹ * c) • z + (-b⁻¹) • (a • r + c • z - b • p)) = p := by
    have : p = (b⁻¹ * b) • p := by rw [inv_mul_cancel₀ hb.ne', one_smul]
    nth_rewrite 2 [this]
    module
  have inverse := inv_nonneg.2 hb.le
  obtain ⟨d, hd⟩ := (h.extreme p hp).summand _ (smul_mem_cone (h.subset_cone hr) (mul_nonneg inverse ha.le))
    _ (add_line_mem_cone (smul_mem_cone hz (mul_nonneg inverse hc)) scaled) whole
  refine h.apart r hr p hp (a⁻¹ * b * d) ?_
  have := Submodule.smul_mem _ (a⁻¹ * b) hd
  rwa [smul_sub, smul_smul, smul_smul, show a⁻¹ * b * (b⁻¹ * a) = 1 by field_simp, one_smul] at this

/-- Two rays with multiples that differ by a multiple of a third vector of the cone are equal. -/
theorem Describes.eq_of_sub (h : H.Describes k R) (hp : p ∈ R) (hr : r ∈ R) (hz : z ∈ H.cone k)
    {a b : ℚ} (ha : 0 < a) (hb : 0 < b) (c : ℚ) (sum : a • r + c • z - b • p ∈ H.lineality k) :
    r = p := by
  rcases le_total 0 c with hc | hc
  · exact h.eq_of_add hp hr hz ha hb hc sum
  · refine (h.eq_of_add hr hp hz hb ha (neg_nonneg.2 hc) ?_).symm
    have := Submodule.neg_mem _ sum
    convert this using 1
    module

/-- In a narrow face with rays on both sides of the plane, there is only one ray on either side. -/
theorem Describes.eq_of_narrow (h : H.Describes k R) (flat : ∀ l ∈ H.lineality k, H.form k l = 0)
    (hy : y ∈ H.cone k) (narrow : H.Narrow k y) (hp : p ∈ R) (hn : n ∈ R) (hr : r ∈ R)
    (faceP : H.tight k y ⊆ H.tight k p) (faceN : H.tight k y ⊆ H.tight k n)
    (faceR : H.tight k y ⊆ H.tight k r) (pos : 0 < H.form k p) (neg : H.form k n < 0)
    (ne : H.form k r ≠ 0) : r = p ∨ r = n := by
  have hp' := h.subset_cone hp
  have hn' := h.subset_cone hn
  have hr' := h.subset_cone hr
  have shared {p n : V} (hp : p ∈ H.cone k) (hn : n ∈ H.cone k) (pos : 0 < H.form k p)
      (neg : H.form k n < 0) (faceP : H.tight k y ⊆ H.tight k p) (faceN : H.tight k y ⊆ H.tight k n) :
      ∃ a : ℚ, 0 < a ∧ H.bridge k p n - a • y ∈ H.lineality k :=
    narrow.multiple hy (bridge_mem_cone hp hn pos neg) (bridge_not_mem flat hp hn pos neg)
      (by rw [tight_bridge hp hn pos neg]; exact Finset.subset_inter faceP faceN) form_bridge_self
  obtain ⟨a, ha, near⟩ := shared hp' hn' pos neg faceP faceN
  rcases ne.lt_or_gt with below | above
  · obtain ⟨b, hb, near'⟩ := shared hp' hr' pos below faceP faceR
    refine .inr (h.eq_of_sub (a := a * H.form k p) (b := b * H.form k p) hn hr hp' (mul_pos ha pos)
      (mul_pos hb pos) (b * H.form k n - a * H.form k r) ?_)
    convert Submodule.sub_mem _ (Submodule.smul_mem _ a near') (Submodule.smul_mem _ b near) using 1
    simp only [bridge]
    module
  · obtain ⟨b, hb, near'⟩ := shared hr' hn' above neg faceR faceN
    refine .inl (h.eq_of_sub (a := a * -H.form k n) (b := b * -H.form k n) hp hr hn'
      (mul_pos ha (neg_pos.2 neg)) (mul_pos hb (neg_pos.2 neg)) (a * H.form k r - b * H.form k p) ?_)
    convert Submodule.sub_mem _ (Submodule.smul_mem _ a near') (Submodule.smul_mem _ b near) using 1
    simp only [bridge]
    module

/-- A narrow face meets enough constraints for its dimension to be at most two more than that of
the lines. -/
theorem Narrow.finrank_le [FiniteDimensional ℚ V] (h : H.Narrow k y) :
    Module.finrank ℚ V ≤ (H.tight k y).card + (Module.finrank ℚ (H.lineality k) + 2) := by
  let forms : V →ₗ[ℚ] (H.tight k y → ℚ) × ℚ :=
    (LinearMap.pi fun i : H.tight k y => H.form i).prod (H.form k)
  have kernel : LinearMap.ker forms ≤ H.lineality k ⊔ Submodule.span ℚ {y} := by
    intro v hv
    obtain ⟨zero, last⟩ := Prod.mk.inj (LinearMap.mem_ker.1 hv)
    obtain ⟨a, ha⟩ := h v (fun i hi => congrFun zero ⟨i, hi⟩) last
    rw [← sub_add_cancel v (a • y)]
    exact Submodule.add_mem_sup ha (Submodule.smul_mem _ a (Submodule.mem_span_singleton_self y))
  have range : Module.finrank ℚ (LinearMap.range forms) ≤ (H.tight k y).card + 1 := by
    refine (Submodule.finrank_le _).trans ?_
    rw [Module.finrank_prod, Module.finrank_fintype_fun_eq_card, Module.finrank_self, Fintype.card_coe]
  have small : Module.finrank ℚ (LinearMap.ker forms) ≤ Module.finrank ℚ (H.lineality k) + 1 := by
    refine (Submodule.finrank_mono kernel).trans ((Submodule.finrank_add_le_finrank_add_finrank _ _).trans ?_)
    exact Nat.add_le_add_left ((finrank_span_le_card _).trans (by simp)) _
  have := forms.finrank_range_add_finrank_ker
  omega

/-- Two rays that meet enough constraints together, and share them with no third. -/
def Adjacent (H : Halfspaces V) (k : ℕ) (R : Set V) (p n : V) : Prop :=
  Module.finrank ℚ V ≤ (H.tight k p ∩ H.tight k n).card + (Module.finrank ℚ (H.lineality k) + 2) ∧
    ∀ r ∈ R, H.tight k p ∩ H.tight k n ⊆ H.tight k r → r = p ∨ r = n

/-- The rays on either side of the plane in a narrow face are adjacent. -/
theorem Describes.adjacent_of_narrow [FiniteDimensional ℚ V] (h : H.Describes k R)
    (flat : ∀ l ∈ H.lineality k, H.form k l = 0) (hy : y ∈ H.cone k) (narrow : H.Narrow k y)
    (never : ∀ r ∈ R, H.tight k y ⊆ H.tight k r → H.form k r ≠ 0) (hp : p ∈ R) (hn : n ∈ R)
    (faceP : H.tight k y ⊆ H.tight k p) (faceN : H.tight k y ⊆ H.tight k n) (pos : 0 < H.form k p)
    (neg : H.form k n < 0) : H.Adjacent k R p n := by
  have face := Finset.subset_inter faceP faceN
  refine ⟨narrow.finrank_le.trans (Nat.add_le_add_right (Finset.card_le_card face) _), fun r hr shared => ?_⟩
  have faceR := face.trans shared
  exact h.eq_of_narrow flat hy narrow hp hn hr faceP faceN faceR pos neg (never r hr faceR)

/-- What is in a narrow face is generated by a ray in the plane, or by the bridge of two adjacent
rays. -/
theorem Describes.generated_of_narrow [FiniteDimensional ℚ V] (h : H.Describes k R)
    (flat : ∀ l ∈ H.lineality k, H.form k l = 0) {S : Set V}
    (level : ∀ r ∈ R, H.form k r = 0 → Generated S (H.lineality k) r)
    (pairs : ∀ p ∈ R, ∀ n ∈ R, 0 < H.form k p → H.form k n < 0 → H.Adjacent k R p n →
      Generated S (H.lineality k) (H.bridge k p n))
    (hy : y ∈ H.cone k) (zero : H.form k y = 0) (ne : y ∉ H.lineality k) (narrow : H.Narrow k y) :
    Generated S (H.lineality k) y := by
  by_cases never : ∀ r ∈ R, H.tight k y ⊆ H.tight k r → H.form k r ≠ 0
  · obtain ⟨p, ⟨hp, faceP⟩, pos⟩ := (h.face hy).exists_pos flat zero ne fun r hr => never r hr.1 hr.2
    obtain ⟨n, ⟨hn, faceN⟩, neg⟩ := (h.face hy).exists_pos (f := -H.form k)
      (fun l hl => by rw [LinearMap.neg_apply, flat l hl, neg_zero])
      (by rw [LinearMap.neg_apply, zero, neg_zero]) ne fun r hr => neg_ne_zero.2 (never r hr.1 hr.2)
    have neg := neg_pos.1 neg
    have hp' := h.subset_cone hp
    have hn' := h.subset_cone hn
    obtain ⟨a, ha, near⟩ := narrow.multiple hy (bridge_mem_cone hp' hn' pos neg)
      (bridge_not_mem flat hp' hn' pos neg)
      (by rw [tight_bridge hp' hn' pos neg]; exact Finset.subset_inter faceP faceN) form_bridge_self
    have adjacent := h.adjacent_of_narrow flat hy narrow never hp hn faceP faceN pos neg
    exact (pairs p hp n hn pos neg adjacent).of_multiple ha near
  · push Not at never
    obtain ⟨r, hr, face, zero⟩ := never
    obtain ⟨a, ha, near⟩ :=
      narrow.multiple hy (h.subset_cone hr) (h.extreme r hr).not_line face zero
    exact (level r hr zero).of_multiple ha near

/-- What is in the plane is generated by the rays in it and the bridges of adjacent rays. The
induction is on the number of constraints that do not hold with equality. -/
theorem Describes.generated_of_plane [FiniteDimensional ℚ V] (h : H.Describes k R)
    (flat : ∀ l ∈ H.lineality k, H.form k l = 0) {S : Set V}
    (level : ∀ r ∈ R, H.form k r = 0 → Generated S (H.lineality k) r)
    (pairs : ∀ p ∈ R, ∀ n ∈ R, 0 < H.form k p → H.form k n < 0 → H.Adjacent k R p n →
      Generated S (H.lineality k) (H.bridge k p n))
    (hy : y ∈ H.cone k) (zero : H.form k y = 0) : Generated S (H.lineality k) y := by
  induction measure : k - (H.tight k y).card using Nat.strong_induction_on generalizing y with
  | _ m ih =>
    by_cases line : y ∈ H.lineality k
    · exact .line line
    by_cases narrow : H.Narrow k y
    · exact h.generated_of_narrow flat level pairs hy zero line narrow
    obtain ⟨u, w, c, pos, sum, ⟨hu, zeroU, moreU⟩, hw, zeroW, moreW⟩ := exists_parts hy zero line narrow
    have smaller {v : V} (more : H.tight k y ⊂ H.tight k v) : k - (H.tight k v).card < m := by
      have lt := Finset.card_lt_card more
      have le : (H.tight k v).card ≤ k := (Finset.card_filter_le _ _).trans (Finset.card_range k).le
      omega
    have both := (ih _ (smaller moreU) hu zeroU rfl).add (ih _ (smaller moreW) hw zeroW rfl)
    refine both.of_multiple pos ?_
    rw [sum, sub_self]
    exact Submodule.zero_mem _

/-- A vector above the plane is one of the rays on that side plus one in the plane. -/
theorem Describes.exists_lowered (h : H.Describes k R) (flat : ∀ l ∈ H.lineality k, H.form k l = 0)
    (hy : y ∈ H.cone k) (above : 0 < H.form k y) :
    ∃ u z, Generated {r ∈ R | 0 ≤ H.form k r} (H.lineality k) u ∧ z ∈ H.cone k ∧ H.form k z = 0 ∧
      y = u + z := by
  obtain ⟨u, v, hu, hv, rfl⟩ := (h.generates y hy).split fun r => 0 ≤ H.form k r
  have below : H.form k v ≤ 0 := by
    have := hv.nonneg (f := -H.form k) (fun r hr => neg_nonneg.2 (not_le.1 hr.2).le)
      fun l hl => by rw [LinearMap.neg_apply, flat l hl, neg_zero]
    exact neg_nonneg.1 this
  rw [map_add] at above
  have steep : 0 < H.form k u := by linarith
  have inCone {P : V → Prop} {w : V} (hw : Generated {r ∈ R | P r} (H.lineality k) w) : w ∈ H.cone k :=
    mem_cone_of_generated h.subset_cone (hw.mono fun _ hr => hr.1)
  have ratio : 0 ≤ -H.form k v / H.form k u := div_nonneg (neg_nonneg.2 below) steep.le
  have share : 0 ≤ 1 - -H.form k v / H.form k u := by
    rw [sub_nonneg, div_le_one steep]
    linarith
  refine ⟨_, (-H.form k v / H.form k u) • u + v, hu.smul share,
    add_mem_cone (smul_mem_cone (inCone hu) ratio) (inCone hv), ?_, by module⟩
  rw [map_add, map_smul, smul_eq_mul, div_mul_cancel₀ _ steep.ne', neg_add_cancel]

theorem Extreme.keep (h : H.Extreme k r) (flat : ∀ l ∈ H.lineality k, H.form k l = 0)
    (side : H.form k r = 0 ∨ 0 < H.form k r ∧ ¬H.equality k) : H.Extreme (k + 1) r := by
  refine ⟨mem_cone_succ.2 ⟨h.mem, ?_, fun e => ?_⟩, ?_, fun x hx y hy sum => ?_⟩
  · exact side.elim (fun zero => zero.ge) fun above => above.1.le
  · exact side.resolve_right fun above => above.2 e
  · rw [lineality_succ flat]
    exact h.not_line
  · rw [lineality_succ flat]
    exact h.summand x (mem_cone_succ.1 hx).1 y (mem_cone_succ.1 hy).1 sum

/-- The bridge of two rays that no third shares its face with is extreme in the cut cone. -/
theorem Describes.extreme_bridge (h : H.Describes k R) (flat : ∀ l ∈ H.lineality k, H.form k l = 0)
    (hp : p ∈ R) (hn : n ∈ R) (pos : 0 < H.form k p) (neg : H.form k n < 0)
    (third : ∀ r ∈ R, H.tight k p ∩ H.tight k n ⊆ H.tight k r → r = p ∨ r = n) :
    H.Extreme (k + 1) (H.bridge k p n) := by
  have hp' := h.subset_cone hp
  have hn' := h.subset_cone hn
  refine ⟨mem_cone_succ.2
    ⟨bridge_mem_cone hp' hn' pos neg, form_bridge_self.ge, fun _ => form_bridge_self⟩, ?_,
    fun x hx y hy sum => ?_⟩
  · rw [lineality_succ flat]
    exact bridge_not_mem flat hp' hn' pos neg
  · obtain ⟨hx, hx', -⟩ := mem_cone_succ.1 hx
    obtain ⟨hy, hy', -⟩ := mem_cone_succ.1 hy
    have zero : H.form k x = 0 := by
      have := form_bridge_self (H := H) (k := k) (p := p) (n := n)
      rw [← sum, map_add] at this
      exact ((add_eq_zero_iff_of_nonneg hx' hy').1 this).1
    have face : H.tight k p ∩ H.tight k n ⊆ H.tight k x := by
      rw [← tight_bridge hp' hn' pos neg, ← sum]
      exact tight_subset_of_add hx hy
    obtain ⟨a, b, -, -, near⟩ := (h.face hx).pair fun r hr => third r hr.1 (face.trans hr.2)
    have balance := flat _ near
    rw [map_sub, map_add, map_smul, map_smul, zero, smul_eq_mul, smul_eq_mul] at balance
    refine ⟨b / H.form k p, ?_⟩
    rw [lineality_succ flat]
    have coefficient : b / H.form k p * H.form k n = -a := by
      rw [div_mul_eq_mul_div, div_eq_iff pos.ne']
      linarith
    have same : (b / H.form k p) • H.bridge k p n = a • p + b • n := by
      rw [bridge, smul_sub, smul_smul, smul_smul, div_mul_cancel₀ _ pos.ne', coefficient]
      module
    rwa [same]

section Across

variable {A : V → V → Prop} {cross : V → V → V} {S : Set V}

/-- The rays after the cut: those in the plane and above it that may stay, and the crossings of the
pairs that `A` holds of. -/
def RaysAcross (H : Halfspaces V) (k : ℕ) (R : Set V) (A : V → V → Prop) (cross : V → V → V)
    (v : V) : Prop :=
  (v ∈ R ∧ (H.form k v = 0 ∨ 0 < H.form k v ∧ ¬H.equality k)) ∨
    ∃ p ∈ R, ∃ n ∈ R, 0 < H.form k p ∧ H.form k n < 0 ∧ A p n ∧ v = cross p n

/-- Up to lines, what is created is no multiple of what is kept, nor of another crossing. -/
theorem Describes.apart_across (h : H.Describes k R)
    (third : ∀ p ∈ R, ∀ n ∈ R, A p n →
      ∀ r ∈ R, H.tight k p ∩ H.tight k n ⊆ H.tight k r → r = p ∨ r = n)
    (crossed : ∀ p ∈ R, ∀ n ∈ R, ∃ c : ℚ, 0 < c ∧ cross p n = c • H.bridge k p n) {v w : V}
    (hv : H.RaysAcross k R A cross v) (hw : H.RaysAcross k R A cross w)
    (level : H.form k v = 0 ↔ H.form k w = 0)
    (same : H.tight k v = H.tight k w) (multiple : ∃ a : ℚ, v - a • w ∈ H.lineality k) : v = w := by
  have shared {p n : V} (hp : p ∈ R) (hn : n ∈ R) (pos : 0 < H.form k p) (neg : H.form k n < 0) :
      H.tight k (cross p n) = H.tight k p ∩ H.tight k n ∧ H.form k (cross p n) = 0 := by
    obtain ⟨c, hc, e⟩ := crossed p hp n hn
    rw [e, tight_smul hc.ne', tight_bridge (h.subset_cone hp) (h.subset_cone hn) pos neg, map_smul,
      form_bridge_self, smul_zero]
    exact ⟨rfl, rfl⟩
  have apart {p n r : V} (hp : p ∈ R) (hn : n ∈ R) (pos : 0 < H.form k p) (neg : H.form k n < 0)
      (adjacent : A p n) (hr : r ∈ R) (zero : H.form k r = 0) :
      H.tight k (cross p n) ≠ H.tight k r := by
    intro e
    rw [(shared hp hn pos neg).1] at e
    rcases third p hp n hn adjacent r hr e.subset with rfl | rfl
    · exact pos.ne' zero
    · exact neg.ne zero
  rcases hv with ⟨hv, -⟩ | ⟨p, hp, n, hn, pos, neg, adjacent, rfl⟩ <;>
    rcases hw with ⟨hw, -⟩ | ⟨p', hp', n', hn', pos', neg', adjacent', rfl⟩
  · obtain ⟨a, ha⟩ := multiple
    exact h.apart v hv w hw a ha
  · exact absurd same.symm (apart hp' hn' pos' neg' adjacent' hv (level.2 (shared hp' hn' pos' neg').2))
  · exact absurd same (apart hp hn pos neg adjacent hw (level.1 (shared hp hn pos neg).2))
  · rw [(shared hp hn pos neg).1, (shared hp' hn' pos' neg').1] at same
    have left : p' = p :=
      (third p hp n hn adjacent p' hp' (same.trans_subset Finset.inter_subset_left)).resolve_right
      fun e => (e ▸ neg).not_gt pos'
    have right : n' = n :=
      (third p hp n hn adjacent n' hn' (same.trans_subset Finset.inter_subset_right)).resolve_left
      fun e => (e ▸ pos).not_gt neg'
    rw [left, right]

/-- A constraint that is zero on every line keeps the rays on its side, and adds the crossings of
pairs across its plane: of all adjacent pairs, and of none that a third ray shares its face with. -/
theorem Describes.acrossRays [FiniteDimensional ℚ V] (h : H.Describes k R)
    (flat : ∀ l ∈ H.lineality k, H.form k l = 0)
    (third : ∀ p ∈ R, ∀ n ∈ R, A p n →
      ∀ r ∈ R, H.tight k p ∩ H.tight k n ⊆ H.tight k r → r = p ∨ r = n)
    (enough : ∀ p ∈ R, ∀ n ∈ R, H.Adjacent k R p n → A p n)
    (crossed : ∀ p ∈ R, ∀ n ∈ R, ∃ c : ℚ, 0 < c ∧ cross p n = c • H.bridge k p n)
    (rays : ∀ v, v ∈ S ↔ H.RaysAcross k R A cross v) : H.Describes (k + 1) S := by
  have extreme : ∀ v ∈ S, H.Extreme (k + 1) v := by
    intro v hv
    rcases (rays v).1 hv with ⟨hr, side⟩ | ⟨p, hp, n, hn, pos, neg, adjacent, rfl⟩
    · exact (h.extreme v hr).keep flat side
    · obtain ⟨c, hc, e⟩ := crossed p hp n hn
      rw [e]
      exact (h.extreme_bridge flat hp hn pos neg (third p hp n hn adjacent)).smul hc
  refine ⟨fun y hy => ?_, extreme, fun v hv w hw a multiple => ?_⟩
  · rw [lineality_succ flat]
    have plane {z : V} (hz : z ∈ H.cone k) (zero : H.form k z = 0) : Generated S (H.lineality k) z := by
      refine h.generated_of_plane flat (fun r hr level => ?_) (fun p hp n hn pos neg adjacent => ?_) hz zero
      · rw [← one_smul ℚ r]
        exact .ray ((rays r).2 (.inl ⟨hr, .inl level⟩)) zero_le_one
      · obtain ⟨c, hc, e⟩ := crossed p hp n hn
        have : H.bridge k p n = c⁻¹ • cross p n := by rw [e, smul_smul, inv_mul_cancel₀ hc.ne', one_smul]
        rw [this]
        exact .ray ((rays _).2 (.inr ⟨p, hp, n, hn, pos, neg, enough p hp n hn adjacent, rfl⟩))
          (inv_nonneg.2 hc.le)
    obtain ⟨hy, side, eq⟩ := mem_cone_succ.1 hy
    rcases side.eq_or_lt with zero | above
    · exact plane hy zero.symm
    · have ineq : ¬H.equality k := fun e => above.ne' (eq e)
      obtain ⟨u, z, hu, hz, zero, rfl⟩ := h.exists_lowered flat hy above
      refine (hu.mono fun r hr => (rays r).2 (.inl ⟨hr.1, ?_⟩)).add (plane hz zero)
      exact hr.2.eq_or_lt.imp Eq.symm fun above => ⟨above, ineq⟩
  · have positive := pos_of_multiple (extreme v hv).mem (extreme v hv).not_line (extreme w hw).mem multiple
    rw [lineality_succ flat] at multiple
    have value := flat _ multiple
    rw [map_sub, map_smul, smul_eq_mul, sub_eq_zero] at value
    refine h.apart_across third crossed ((rays v).1 hv) ((rays w).1 hw) ?_ ?_ ⟨a, multiple⟩
    · rw [value, mul_eq_zero, or_iff_right positive.ne']
    · rw [tight_congr multiple, tight_smul positive.ne']

end Across

end Rays

end Halfspaces

end Prevision
