import Mathlib.Algebra.Module.LinearMap.Defs
import Prevision.GambleMap
import Prevision.Proofs.Model.Payoffs

/-!
# Payoffs under linear maps

What a linear map makes of a gamble whose states all have an image
(`GambleMap.exists_apply`), and no other gamble is mapped
(`GambleMap.exists_image_of_apply`). The payoffs are those that one linear function
of functions gives (`GambleMap.linear`, `GambleMap.payoff_of_apply`).

Among the gambles on pairs are those that look at the first component only. Such a
gamble pays what the original one does in every pair over a given set of second
components, and nothing elsewhere (`cylinder`). Both the extension of a gamble and
its image under the cylindrical map are of that kind (`Gamble.payoff_extend`,
`GambleMap.exists_apply_cylindrical`).
-/

namespace Prevision

/-! ## Cylinders -/

section Cylinder

variable {α τ : Type} [State τ] {other : SortedSet τ} {g h : α → ℚ} {z : α × τ}

/-- A function of the first component, on the pairs over a set of second components. -/
def cylinder (other : SortedSet τ) : (α → ℚ) →ₗ[ℚ] (α × τ → ℚ) where
  toFun h z := if z.2 ∈ other then h z.1 else 0
  map_add' g h := funext fun z => by by_cases hz : z.2 ∈ other <;> simp [hz]
  map_smul' c h := funext fun z => by by_cases hz : z.2 ∈ other <;> simp [hz]

theorem cylinder_apply (other : SortedSet τ) (h : α → ℚ) (z : α × τ) :
    cylinder other h z = if z.2 ∈ other then h z.1 else 0 := rfl

theorem cylinder_of_mem (hz : z.2 ∈ other) (h : α → ℚ) : cylinder other h z = h z.1 := if_pos hz

/-- Over some second component, functions compare as their cylinders do. -/
theorem cylinder_le_iff (some_value : other.isEmpty = false) :
    cylinder other g ≤ cylinder other h ↔ g ≤ h := by
  obtain ⟨y, hy⟩ := SortedSet.isEmpty_eq_false_iff.1 some_value
  constructor
  · intro le x
    have at_x (h : α → ℚ) : cylinder other h (x, y) = h x := cylinder_of_mem hy h
    rw [← at_x g, ← at_x h]
    exact le (x, y)
  · intro le z
    rw [cylinder_apply, cylinder_apply]
    split
    · exact le z.1
    · exact le_rfl

end Cylinder

variable {σ τ : Type} [State σ] [State τ] {f : Gamble σ} {other : SortedSet τ} {z : σ × τ}

/-! ## Linear maps -/

namespace GambleMap

variable {M : GambleMap σ τ} {g : Gamble τ}

/-- The image of a state, the gamble on no state if there is none. -/
def imageAt (M : GambleMap σ τ) (x : σ) : Gamble τ := (M.image? x).getD .empty

theorem exists_foldlM_addImage {l : List (σ × ℚ)} (mapped : ∀ e ∈ l, ∃ g, M.image? e.1 = some g)
    (sum : Gamble τ) :
    ∃ g, l.foldlM (fun sum e => M.addImage sum e.1 e.2) sum = .ok g ∧
      ∀ y, g.payoff y = sum.payoff y + (l.map fun e => e.2 * (M.imageAt e.1).payoff y).sum := by
  induction l generalizing sum with
  | nil => exact ⟨sum, rfl, fun y => (add_zero _).symm⟩
  | cons e l ih =>
    obtain ⟨image, found⟩ := mapped e List.mem_cons_self
    obtain ⟨g, done, payoff⟩ :=
      ih (fun e' he' => mapped e' (List.mem_cons_of_mem e he')) (sum + image.scale e.2)
    refine ⟨g, ?_, fun y => ?_⟩
    · rw [List.foldlM_cons, addImage, found]
      exact done
    · rw [payoff, List.map_cons, List.sum_cons, Gamble.payoff_add, Gamble.payoff_scale, imageAt, found,
        Option.getD_some, add_assoc]

/-- A gamble whose states all have an image is taken to the sum of these, each times the payoff. -/
theorem exists_apply (mapped : ∀ x ∈ f.domain, ∃ g, M.image? x = some g) :
    ∃ g, M.apply f = .ok g ∧
      ∀ y, g.payoff y = ∑ x ∈ f.domain.toFinset, f.payoff x * (M.imageAt x).payoff y := by
  obtain ⟨g, done, payoff⟩ := exists_foldlM_addImage
    (fun e he => mapped e.1 (Table.mem_domain.2 ⟨e.2, he⟩)) .empty
  refine ⟨g, done, fun y => ?_⟩
  rw [payoff, show (Gamble.empty : Gamble τ).payoff y = 0 from rfl, zero_add, ← Row.total_eq_sum]
  exact Table.total_map_mul f.table fun x => (M.imageAt x).payoff y

/-- What the images of the states make of a function: their sum, each times the value. -/
def linear (M : GambleMap σ τ) : (σ → ℚ) →ₗ[ℚ] (τ → ℚ) where
  toFun h y := ∑ x ∈ M.images.keys.toFinset, h x * (M.imageAt x).payoff y
  map_add' g h := funext fun y => by
    rw [Pi.add_apply, ← Finset.sum_add_distrib]
    exact Finset.sum_congr rfl fun x _ => add_mul _ _ _
  map_smul' c h := funext fun y => by
    rw [Pi.smul_apply, smul_eq_mul, RingHom.id_apply, Finset.mul_sum]
    exact Finset.sum_congr rfl fun x _ => mul_assoc _ _ _

theorem exists_image_of_addImage {sum : Gamble τ} {x : σ} {v : ℚ} (done : M.addImage sum x v = .ok g) :
    ∃ image, M.image? x = some image := by
  rw [addImage] at done
  split at done
  · cases done
  · exact ⟨_, ‹_›⟩

theorem exists_image_of_foldlM {l : List (σ × ℚ)} {sum : Gamble τ}
    (done : l.foldlM (fun sum e => M.addImage sum e.1 e.2) sum = .ok g) :
    ∀ e ∈ l, ∃ image, M.image? e.1 = some image := by
  induction l generalizing sum with
  | nil => exact fun e he => absurd he List.not_mem_nil
  | cons e l ih =>
    rw [List.foldlM_cons] at done
    cases first : M.addImage sum e.1 e.2 with
    | error error =>
      rw [first] at done
      cases done
    | ok next =>
      rw [first] at done
      exact List.forall_mem_cons.2 ⟨exists_image_of_addImage first, ih done⟩

/-- A gamble is mapped only if all of its states have an image. -/
theorem exists_image_of_apply (applied : M.apply f = .ok g) :
    ∀ x ∈ f.domain, ∃ image, M.image? x = some image := by
  intro x hx
  obtain ⟨v, hv⟩ := Table.mem_domain.1 hx
  exact exists_image_of_foldlM applied (x, v) hv

/-- A gamble whose states all have an image is mapped to a gamble with the payoffs that the linear
function gives. -/
theorem exists_apply_linear (mapped : ∀ x ∈ f.domain, ∃ image, M.image? x = some image) :
    ∃ g, M.apply f = .ok g ∧ g.payoff = M.linear f.payoff := by
  obtain ⟨g, applied, payoff⟩ := exists_apply mapped
  refine ⟨g, applied, funext fun y => (payoff y).trans ?_⟩
  exact Table.sum_payoff_of_subset (fun x hx => SortedMap.mem_keys.2 (mapped x hx)) fun x =>
    (M.imageAt x).payoff y

theorem payoff_of_apply (applied : M.apply f = .ok g) : g.payoff = M.linear f.payoff := by
  obtain ⟨g', applied', payoff⟩ := exists_apply_linear (exists_image_of_apply applied)
  cases applied.symm.trans applied'
  exact payoff

end GambleMap

/-! ## Extensions of gambles -/

namespace Gamble

/-- The entries of an extension, in the order of their pairs. -/
theorem toList_extend (f : Gamble σ) (other : SortedSet τ) : (f.extend other).table.toList =
    f.table.toList.flatMap fun e => other.toList.map fun y => ((e.1, y), e.2) := by
  have pair (x x' : σ) (y y' : τ) : compare (x, y) (x', y') = (compare x x').then (compare y y') := rfl
  refine SortedMap.toList_ofList
    (List.pairwise_flatMap.2 ⟨fun e _ => List.pairwise_map.2 (other.sorted.imp ?_), ?_⟩)
  · intro y y' lt
    rw [pair, Ordered.compare_eq_iff.2 rfl]
    exact lt
  · refine f.table.sorted.imp fun {e e'} lt a ha b hb => ?_
    obtain ⟨y, -, rfl⟩ := List.mem_map.1 ha
    obtain ⟨y', -, rfl⟩ := List.mem_map.1 hb
    rw [pair, lt]
    rfl

theorem mem_toList_extend {v : ℚ} :
    (z, v) ∈ (f.extend other).table.toList ↔ (z.1, v) ∈ f.table.toList ∧ z.2 ∈ other := by
  obtain ⟨x, y⟩ := z
  simp only [toList_extend, List.mem_flatMap, List.mem_map, Prod.mk.injEq, SortedSet.mem_toList]
  constructor
  · rintro ⟨e, he, y', hy, ⟨rfl, rfl⟩, rfl⟩
    exact ⟨he, hy⟩
  · rintro ⟨he, hy⟩
    exact ⟨(x, v), he, y, hy, ⟨rfl, rfl⟩, rfl⟩

theorem mem_domain_extend : z ∈ (f.extend other).domain ↔ z.1 ∈ f.domain ∧ z.2 ∈ other := by
  simp only [domain, Table.mem_domain, mem_toList_extend, exists_and_right]

theorem payoff_extend (f : Gamble σ) (other : SortedSet τ) :
    (f.extend other).payoff = cylinder other f.payoff := by
  funext z
  rw [cylinder_apply]
  by_cases hz : z ∈ (f.extend other).domain
  · obtain ⟨v, hv⟩ := Table.mem_domain.1 hz
    obtain ⟨entry, hy⟩ := mem_toList_extend.1 hv
    rw [if_pos hy, payoff, payoff, Table.payoff_of_mem hv, Table.payoff_of_mem entry]
  · rw [show (f.extend other).payoff z = 0 from Table.payoff_eq_zero hz]
    split
    · rename_i hy
      exact (Table.payoff_eq_zero fun hx => hz (mem_domain_extend.2 ⟨hx, hy⟩)).symm
    · rfl

end Gamble

/-! ## The cylindrical map -/

/-- The pairs over one state. -/
theorem mem_fiber {x : σ} :
    z ∈ SortedSet.ofList (other.toList.map fun y => (x, y)) ↔ x = z.1 ∧ z.2 ∈ other := by
  rw [SortedSet.mem_ofList, List.mem_map]
  exact ⟨fun ⟨y, hy, pair⟩ => pair ▸ ⟨rfl, hy⟩, fun ⟨same, hy⟩ => ⟨z.2, hy, Prod.ext same rfl⟩⟩

namespace GambleMap

variable {states : SortedSet σ} {x : σ}

theorem image?_cylindrical (hx : x ∈ states) (other : SortedSet τ) : (cylindrical states other).image? x =
    some (.indicator (.ofList (other.toList.map fun y => (x, y)))) := by
  rw [image?, cylindrical, SortedMap.get?_tabulate, if_pos hx]

theorem imageAt_cylindrical (hx : x ∈ states) (other : SortedSet τ) : (cylindrical states other).imageAt x =
    .indicator (.ofList (other.toList.map fun y => (x, y))) := by
  rw [imageAt, image?_cylindrical hx, Option.getD_some]

/-- The cylindrical map takes a gamble to its cylinder. -/
theorem exists_apply_cylindrical (within : ∀ x ∈ f.domain, x ∈ states) (other : SortedSet τ) :
    ∃ g, (cylindrical states other).apply f = .ok g ∧ g.payoff = cylinder other f.payoff := by
  have at_state {x : σ} (hx : x ∈ f.domain) (z : σ × τ) : ((cylindrical states other).imageAt x).payoff z =
      if z ∈ SortedSet.ofList (other.toList.map fun y => (x, y)) then 1 else 0 := by
    rw [imageAt_cylindrical (within x hx)]
    exact Table.payoff_tabulate
  obtain ⟨g, done, payoff⟩ := exists_apply fun x hx => ⟨_, image?_cylindrical (within x hx) other⟩
  refine ⟨g, done, funext fun z => ?_⟩
  have others {x : σ} (hx : x ∈ f.domain) (ne : x ≠ z.1) :
      f.payoff x * ((cylindrical states other).imageAt x).payoff z = 0 := by
    rw [at_state hx, if_neg fun mem => ne (mem_fiber.1 mem).1, mul_zero]
  rw [payoff, cylinder_apply]
  by_cases hx : z.1 ∈ f.domain
  · rw [Finset.sum_eq_single_of_mem z.1 hx fun x hx => others hx, at_state hx, mul_ite, mul_one, mul_zero]
    exact if_congr (mem_fiber.trans (and_iff_right rfl)) rfl rfl
  · rw [show f.payoff z.1 = 0 from Table.payoff_eq_zero hx, ite_self]
    exact Finset.sum_eq_zero fun x hx' => others hx' fun same => hx (same ▸ hx')

end GambleMap

end Prevision
