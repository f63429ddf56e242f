import Mathlib.Algebra.Order.Field.Basic
import Mathlib.Data.Set.Finite.Lattice
import Mathlib.LinearAlgebra.Dual.Lemmas
import Mathlib.GroupTheory.GroupAction.Ring
import Prevision.Proofs.Polyhedron.Generated

/-!
# Separating a vector from a generated cone

What finitely many rays and a space of lines generate, in a space of finite
dimension, is cut out by finitely many forms (`exists_cutOut`). The rays are
taken one at a time. Another ray keeps the forms that are nonnegative on it,
and every form that is negative on it is combined with every form that is
positive on it, so that the ray cancels (`eliminate`).

So a vector is generated exactly if all forms are nonnegative on it that are
nonnegative on the rays and zero on the lines (`Generated.iff_forms`).
-/

namespace Prevision

variable {V : Type*} [AddCommGroup V] [Module ℚ V] {R : Set V} {L : Submodule ℚ V} {y r : V}

/-- One more ray has some part in a combination. -/
theorem Generated.insert_iff :
    Generated (insert r R) L y ↔ ∃ t : ℚ, 0 ≤ t ∧ Generated R L (y - t • r) := by
  constructor
  · intro h
    induction h with
    | line hl => exact ⟨0, le_rfl, by simpa using Generated.line hl⟩
    | @addRay y s a _ hs ha ih =>
      obtain ⟨t, ht, rest⟩ := ih
      rcases Set.mem_insert_iff.1 hs with rfl | hs
      · refine ⟨t + a, add_nonneg ht ha, ?_⟩
        rwa [add_smul, add_sub_add_right_eq_sub]
      · refine ⟨t, ht, ?_⟩
        rw [add_sub_right_comm]
        exact rest.addRay hs ha
  · rintro ⟨t, ht, rest⟩
    rw [← sub_add_cancel y (t • r)]
    exact (rest.mono (Set.subset_insert r R)).addRay (Set.mem_insert r R) ht

/-- The vectors with a property are those on which all forms are nonnegative. -/
def CutOut (A : Set (Module.Dual ℚ V)) (C : V → Prop) : Prop := ∀ y, C y ↔ ∀ a ∈ A, 0 ≤ a y

/-- The forms that are nonnegative on a ray, and the combinations under which it cancels. -/
def eliminate (A : Set (Module.Dual ℚ V)) (r : V) : Set (Module.Dual ℚ V) :=
  {a ∈ A | 0 ≤ a r} ∪
    {c | ∃ a ∈ A, a r < 0 ∧ ∃ b ∈ A, 0 < b r ∧ ∀ y, c y = b r * a y - a r * b y}

variable {A : Set (Module.Dual ℚ V)}

theorem finite_eliminate (finite : A.Finite) (r : V) : (eliminate A r).Finite := by
  refine (finite.sep _).union ((finite.image2 (fun a b => b r • a - a r • b) finite).subset ?_)
  rintro c ⟨a, ha, -, b, hb, -, value⟩
  exact ⟨a, ha, b, hb, LinearMap.ext fun y => (value y).symm⟩

theorem nonneg_of_mem_eliminate {t : ℚ} (ht : 0 ≤ t) (h : ∀ a ∈ A, 0 ≤ a (y - t • r)) :
    ∀ a ∈ eliminate A r, 0 ≤ a y := by
  simp only [map_sub, map_smul, smul_eq_mul, sub_nonneg] at h
  rintro _ (⟨ha, pos⟩ | ⟨a, ha, neg, b, hb, pos, value⟩)
  · exact (mul_nonneg ht pos).trans (h _ ha)
  · have low := mul_le_mul_of_nonneg_left (h a ha) pos.le
    have high := mul_le_mul_of_nonneg_left (h b hb) (neg_nonneg.2 neg.le)
    rw [value]
    linarith

/-- The part of the ray is the least that makes the forms nonnegative on which the ray is negative. -/
theorem exists_part (finite : A.Finite) (h : ∀ a ∈ eliminate A r, 0 ≤ a y) :
    ∃ t : ℚ, 0 ≤ t ∧ ∀ a ∈ A, 0 ≤ a (y - t • r) := by
  obtain ⟨t, ht, greatest⟩ := Set.exists_max_image (insert 0 ((fun a => a y / a r) '' {a ∈ A | a r < 0}))
    id (((finite.sep _).image _).insert 0) (Set.insert_nonempty _ _)
  refine ⟨t, greatest 0 (Set.mem_insert _ _), fun a ha => ?_⟩
  rw [map_sub, map_smul, smul_eq_mul, sub_nonneg]
  rcases lt_trichotomy (a r) 0 with neg | zero | pos
  · have := greatest _ (Set.mem_insert_of_mem 0 (Set.mem_image_of_mem _ ⟨ha, neg⟩))
    exact (div_le_iff_of_neg neg).1 this
  · rw [zero, mul_zero]
    exact h a (.inl ⟨ha, zero.ge⟩)
  · rcases Set.mem_insert_iff.1 ht with rfl | ⟨c, ⟨hc, neg⟩, rfl⟩
    · rw [zero_mul]
      exact h a (.inl ⟨ha, pos.le⟩)
    · have pair : 0 ≤ a r * c y - c r * a y :=
        h (a r • c - c r • a) (.inr ⟨c, hc, neg, a, ha, pos, fun _ => rfl⟩)
      rw [div_mul_eq_mul_div, div_le_iff_of_neg neg]
      linarith

theorem CutOut.insert (h : CutOut A (Generated R L)) (finite : A.Finite) (r : V) :
    CutOut (eliminate A r) (Generated (insert r R) L) := by
  intro y
  rw [Generated.insert_iff]
  constructor
  · rintro ⟨t, ht, rest⟩
    exact nonneg_of_mem_eliminate ht ((h _).1 rest)
  · intro nonneg
    obtain ⟨t, ht, rest⟩ := exists_part finite nonneg
    exact ⟨t, ht, (h _).2 rest⟩

section Finite

variable [Module.Finite ℚ V]

/-- A space of lines is cut out by generators of its annihilator, with both signs. -/
theorem exists_cutOut_lines (L : Submodule ℚ V) :
    ∃ A : Set (Module.Dual ℚ V), A.Finite ∧ CutOut A (Generated ∅ L) := by
  obtain ⟨S, spans⟩ := IsNoetherian.noetherian L.dualAnnihilator
  refine ⟨S ∪ (-·) '' S, S.finite_toSet.union (S.finite_toSet.image _), fun y => ⟨?_, fun h => .line ?_⟩⟩
  · intro generated
    have line := generated.mem_of_no_ray fun r => Set.notMem_empty r
    have zero : ∀ a ∈ S, a y = 0 := fun a ha =>
      (Submodule.mem_dualAnnihilator a).1 (spans ▸ Submodule.subset_span ha) y line
    rintro _ (ha | ⟨a, ha, rfl⟩)
    · exact (zero _ ha).ge
    · rw [LinearMap.neg_apply, zero a ha, neg_zero]
  · have zero : ∀ a ∈ S, a y = 0 := fun a ha => by
      have below := h (-a) (.inr ⟨a, ha, rfl⟩)
      rw [LinearMap.neg_apply, neg_nonneg] at below
      exact le_antisymm below (h a (.inl ha))
    refine (Subspace.forall_mem_dualAnnihilator_apply_eq_zero_iff L y).1 fun a ha => ?_
    rw [← spans] at ha
    refine Submodule.span_le (p := LinearMap.ker (LinearMap.applyₗ y)).2 (fun b hb => ?_) ha
    exact zero b hb

/-- What finitely many rays generate is cut out by finitely many forms. The induction is on the rays. -/
theorem exists_cutOut (finite : R.Finite) (L : Submodule ℚ V) :
    ∃ A : Set (Module.Dual ℚ V), A.Finite ∧ CutOut A (Generated R L) := by
  induction R, finite using Set.Finite.induction_on with
  | empty => exact exists_cutOut_lines L
  | insert _ _ ih =>
    obtain ⟨A, finite, cut⟩ := ih
    exact ⟨_, finite_eliminate finite _, cut.insert finite _⟩

/-- A vector is generated exactly if no form separates it from the rays and lines. -/
theorem Generated.iff_forms (finite : R.Finite) : Generated R L y ↔
    ∀ a : Module.Dual ℚ V, (∀ r ∈ R, 0 ≤ a r) → (∀ l ∈ L, a l = 0) → 0 ≤ a y := by
  refine ⟨fun h a rays lines => h.nonneg rays lines, fun h => ?_⟩
  obtain ⟨A, -, cut⟩ := exists_cutOut finite L
  refine (cut y).2 fun a ha => h a (fun r hr => ?_) fun l hl => ?_
  · exact (cut r).1 (.of_mem hr) a ha
  · have above := (cut l).1 (.line hl) a ha
    have below := (cut (-l)).1 (.line (L.neg_mem hl)) a ha
    rw [map_neg, neg_nonneg] at below
    exact le_antisymm below above

end Finite

end Prevision
