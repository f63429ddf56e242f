import Prevision.Proofs.Inference.Desirability
import Prevision.Proofs.Inference.Images

/-!
# Mapped cones

The elements of the image of a cone under a linear map are what the map makes of
the elements of the cone (`GambleMap.mem_elements_applyCone`), although the images
of its rays are scaled to norm one and several of them may have one direction.

So a sum of elements of cones is mapped to one of elements of their images
(`IsSum.map_images`), and with enough pivots a witness among some cones gives one
among their images (`GambleMap.applyCone_elements_and_feasible`).
-/

namespace Prevision

variable {σ τ : Type} [State σ] [State τ] {C : Cone σ} {C' : Cone τ} {cones : List (Cone σ)}
    {cones' : List (Cone τ)}
  {T : (σ → ℚ) →ₗ[ℚ] (τ → ℚ)} {h : σ → ℚ}

/-! ## Elements -/

namespace Cone

/-- The payoffs of the elements of a cone: the sums of its rays with a positive weight on every
one of them. -/
def elements (C : Cone σ) : Set (σ → ℚ) :=
  {h | ∃ weight : Ray σ → ℚ, (∀ r ∈ C.rays, 0 < weight r) ∧ C.payoff weight = h}

theorem supports_of_mem_elements (mem : h ∈ C.elements) : C.domain.Supports h := by
  obtain ⟨weight, -, rfl⟩ := mem
  exact fun x out => payoff_eq_zero out weight

/-- Every element of a cone is a gamble on the domain of the cone. -/
theorem exists_gamble_of_mem_elements (mem : h ∈ C.elements) :
    ∃ f : Gamble σ, f.payoff = h ∧ ∀ x ∈ f.domain, x ∈ C.domain := by
  refine ⟨⟨.tabulate C.domain h⟩, funext fun x => ?_, fun x hx => ?_⟩
  · refine Table.payoff_tabulate.trans ?_
    split
    · rfl
    · rename_i out
      exact (supports_of_mem_elements mem x out).symm
  · obtain ⟨v, hv⟩ := SortedMap.mem_keys.1 hx
    rw [SortedMap.get?_tabulate] at hv
    by_contra out
    rw [if_neg out] at hv
    cases hv

/-- The elements of the image are the images of the elements. -/
theorem IsImage.elements_eq (image : C.IsImage T C') : C'.elements = T '' C.elements := by
  ext k
  constructor
  · rintro ⟨weight', positive', rfl⟩
    obtain ⟨weight, positive, same⟩ := image.exists_eq_payoff positive'
    exact ⟨_, ⟨weight, positive, rfl⟩, same⟩
  · rintro ⟨_, ⟨weight, positive, rfl⟩, rfl⟩
    obtain ⟨weight', positive', same⟩ := image.exists_payoff_eq positive
    exact ⟨weight', positive', same.symm⟩

end Cone

/-! ## Sums of elements -/

/-- A sum of elements of cones is mapped to a sum of elements of their images. -/
theorem IsSum.map_images (images : ∀ C ∈ cones, ∃ C' ∈ cones', C.IsImage T C') (sum : IsSum cones h) :
    IsSum cones' (T h) := by
  induction sum with
  | @element C weight mem rays positive =>
    obtain ⟨C', hC', image⟩ := images C mem
    obtain ⟨weight', positive', same⟩ := image.exists_payoff_eq positive
    rw [same]
    exact .element hC' (image.isEmpty_eq.trans rays) positive'
  | add _ _ ihf ihg =>
    rw [map_add]
    exact ihf.add ihg

/-! ## Linear maps -/

namespace GambleMap

variable {M : GambleMap σ τ} {target : Option (Gamble σ)} {target' : Option (Gamble τ)}

theorem exists_apply_of_applyRay {r : Ray σ} {s : Ray τ} (applied : M.applyRay r = .ok s) :
    ∃ g, M.apply r.gamble = .ok g ∧ Ray.ofGamble g = .ok s := by
  rw [applyRay] at applied
  cases image : M.apply r.gamble with
  | error e =>
    rw [image] at applied
    cases applied
  | ok g =>
    rw [image] at applied
    exact ⟨g, rfl, applied⟩

theorem takes_of_applyRay {r : Ray σ} {s : Ray τ} (applied : M.applyRay r = .ok s) : M.Takes M.linear r := by
  obtain ⟨g, image, direction⟩ := exists_apply_of_applyRay applied
  exact ⟨g, image, payoff_of_apply image, Ray.payoff_ne_zero_of_ofGamble direction⟩

theorem exists_applyRay_of_applyCone (applied : M.applyCone C = .ok C') :
    ∀ r ∈ C.rays, ∃ s, M.applyRay r = .ok s := by
  rw [applyCone] at applied
  cases rays : C.rays.toList.mapM M.applyRay with
  | error e =>
    rw [rays] at applied
    cases applied
  | ok rs => exact fun r hr => (exists_of_mapM rays r hr).imp fun _ => And.right

/-- The cone that a map makes of another is its image. -/
theorem isImage_of_applyCone (applied : M.applyCone C = .ok C') : C.IsImage M.linear C' := by
  obtain ⟨C'', applied', image⟩ := exists_applyCone fun r hr =>
    (exists_applyRay_of_applyCone applied r hr).elim fun _ => takes_of_applyRay
  cases applied.symm.trans applied'
  exact image

/-- On the domain of a cone that is mapped, every state has an image. -/
theorem exists_image_of_applyCone (applied : M.applyCone C = .ok C') :
    ∀ x ∈ C.domain, ∃ image, M.image? x = some image := by
  intro x hx
  obtain ⟨r, hr, hx⟩ := SortedSet.mem_flatMap.1 hx
  obtain ⟨s, applied⟩ := exists_applyRay_of_applyCone applied r hr
  obtain ⟨g, image, -⟩ := exists_apply_of_applyRay applied
  exact exists_image_of_apply image x hx

/-- The elements of the image of a cone are what the map makes of its elements. -/
theorem mem_elements_applyCone (applied : M.applyCone C = .ok C') {k : τ → ℚ} :
    k ∈ C'.elements ↔ ∃ f g, f.payoff ∈ C.elements ∧ M.apply f = .ok g ∧ g.payoff = k := by
  rw [(isImage_of_applyCone applied).elements_eq]
  constructor
  · rintro ⟨h, mem, rfl⟩
    obtain ⟨f, rfl, within⟩ := Cone.exists_gamble_of_mem_elements mem
    obtain ⟨g, image, payoff⟩ :=
      exists_apply_linear fun x hx => exists_image_of_applyCone applied x (within x hx)
    exact ⟨f, g, mem, image, payoff⟩
  · rintro ⟨f, g, mem, image, rfl⟩
    exact ⟨f.payoff, mem, (payoff_of_apply image).symm⟩

/-- The image of a multiple of the target is the multiple of its image. -/
theorem linear_targetPayoff (mapped : target.mapM M.apply = .ok target') (multiple : ℚ) :
    M.linear (targetPayoff target multiple) = targetPayoff target' multiple := by
  cases target with
  | none =>
    cases mapped
    exact map_zero M.linear
  | some f =>
    cases image : M.apply f with
    | error e =>
      rw [Option.mapM_some, image] at mapped
      cases mapped
    | ok g =>
      rw [Option.mapM_some, image] at mapped
      cases mapped
      have scaled : targetPayoff (some f) multiple = multiple • f.payoff :=
        funext (targetPayoff_some f multiple)
      have scaled' : targetPayoff (some g) multiple = multiple • g.payoff :=
        funext (targetPayoff_some g multiple)
      rw [scaled, scaled', map_smul, payoff_of_apply image]

/-- Exact selections of cones are mapped to exact selections of their images. -/
theorem exists_exact_of_mapM (mapped : cones.mapM M.applyCone = .ok cones')
    (target_mapped : target.mapM M.apply = .ok target')
    (exact : ∃ s : Selection cones, s.Exact target) : ∃ s : Selection cones', s.Exact target' := by
  rw [exists_exact_iff] at exact ⊢
  obtain ⟨multiple, pos, sum⟩ := exact
  refine ⟨multiple, pos, ?_⟩
  rw [← linear_targetPayoff target_mapped]
  refine sum.map_images fun C hC => ?_
  exact (exists_of_mapM mapped C hC).imp fun _ => And.imp_right isImage_of_applyCone

/-- A map takes the elements of a cone to elements of its image, and there are no others. With
enough pivots, a witness among some cones for a target, or for zero, gives one among their images
for the image of the target, or for zero. -/
theorem applyCone_elements_and_feasible (M : GambleMap σ τ) :
    (∀ C C', M.applyCone C = .ok C' →
      (∀ k, k ∈ C'.elements ↔ ∃ f g, f.payoff ∈ C.elements ∧ M.apply f = .ok g ∧ g.payoff = k) ∧
      ∀ f : Gamble σ, (∀ x ∈ f.domain, x ∈ C.domain) → f.payoff ∈ C.elements →
        ∃ g, M.apply f = .ok g ∧ g.payoff ∈ C'.elements) ∧
    ∀ cones cones' target target', cones.mapM M.applyCone = .ok cones' → target.mapM M.apply = .ok target' →
      ∃ limit answer answer', (∀ maxPivots ≥ limit,
        (ConeStrip.feasible (m := Id) (Simplex.solve maxPivots) cones target).run = .ok answer ∧
        (ConeStrip.feasible (m := Id) (Simplex.solve maxPivots) cones' target').run = .ok answer') ∧
        (answer.isSome = true → answer'.isSome = true) := by
  refine ⟨fun C C' applied => ⟨fun k => mem_elements_applyCone applied, fun f within mem => ?_⟩,
    fun cones cones' target target' mapped target_mapped => ?_⟩
  · obtain ⟨g, image, payoff⟩ :=
      exists_apply_linear fun x hx => exists_image_of_applyCone applied x (within x hx)
    exact ⟨g, image, (mem_elements_applyCone applied).2 ⟨f, g, mem, image, rfl⟩⟩
  · obtain ⟨limit, answer, answers, decides⟩ := ConeStrip.exists_limit_feasible cones target
    obtain ⟨limit', answer', answers', decides'⟩ := ConeStrip.exists_limit_feasible cones' target'
    refine ⟨max limit limit', answer, answer', fun maxPivots le => ?_, fun found => ?_⟩
    · exact ⟨answers maxPivots ((le_max_left _ _).trans le), answers' maxPivots ((le_max_right _ _).trans le)⟩
    · rw [decides'.isSome_iff]
      exact exists_exact_of_mapM mapped target_mapped (decides.isSome_iff.1 found)

/-- Takes the indicators of two states to multiples of one gamble. -/
def collapse : GambleMap Int Int :=
  .ofList [(0, .ofList [(7, 1)]), (1, .ofList [(7, 2), (8, 0)]), (2, .ofList [(7, 1), (8, 1)])]

/-- Three rays, of which `collapse` takes two to one direction. -/
def wedge : Cone Int :=
  .ofRays [.unit 0, .unit 1, ⟨.ofList [(0, 1), (2, -1)], by decide +kernel, by decide +kernel⟩]

theorem applyCone_elements_and_feasible_collapse :
    let target : Gamble Int := .ofList [(0, 3), (1, 1 / 2), (2, -1)]
    ∃ C' g, wedge.size = 3 ∧ C'.size = 2 ∧ collapse.applyCone wedge = .ok C' ∧
      [wedge].mapM collapse.applyCone = .ok [C'] ∧ (some target).mapM collapse.apply = .ok (some g) ∧
      (∀ k, k ∈ C'.elements ↔
        ∃ f g, f.payoff ∈ wedge.elements ∧ collapse.apply f = .ok g ∧ g.payoff = k) ∧
      ∃ limit answer answer', (∀ maxPivots ≥ limit,
        (ConeStrip.feasible (m := Id) (Simplex.solve maxPivots) [wedge] (some target)).run = .ok answer ∧
        (ConeStrip.feasible (m := Id) (Simplex.solve maxPivots) [C'] (some g)).run = .ok answer') ∧
        answer.isSome = true ∧ answer'.isSome = true := by
  intro target
  let image : Cone Int := .ofRays [.unit 7, ⟨.ofList [(8, -1)], by decide +kernel, by decide +kernel⟩]
  have applied : collapse.applyCone wedge = .ok image := by decide +kernel
  have mapped : [wedge].mapM collapse.applyCone = .ok [image] := by decide +kernel
  have target_mapped : (some target).mapM collapse.apply = .ok (some (.ofList [(7, 3), (8, -1)])) := by
    decide +kernel
  obtain ⟨elements, feasible⟩ := applyCone_elements_and_feasible collapse
  obtain ⟨limit, answer, answer', answers, keeps⟩ := feasible _ _ _ _ mapped target_mapped
  let asked : Query Id (Option (Witness Int)) := ConeStrip.feasible (Simplex.solve 20) [wedge] (some target)
  have found : asked.run.map Option.isSome = .ok true := by decide +kernel
  have witnessed : answer.isSome = true := by
    cases run : asked.run with
    | error e =>
      rw [run] at found
      cases found
    | ok w =>
      have few : asked.hitsLimit = false := by rw [Query.hitsLimit, run]
      have same := (answers _ (le_max_left limit 20)).1.symm.trans
        (ConeStrip.strip_eq_of_le few (le_max_right limit 20))
      rw [Except.ok.inj (same.trans run)]
      rw [run] at found
      exact Except.ok.inj found
  exact ⟨image, _, by decide +kernel, by decide +kernel, applied, mapped, target_mapped,
    (elements _ _ applied).1, limit, answer, answer', answers, witnessed, keeps witnessed⟩

end GambleMap

end Prevision
