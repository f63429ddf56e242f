import Prevision.Proofs.Model.Directions
import Prevision.Proofs.Model.Maps

/-!
# Linear maps are linear

The image of a gamble is given where one of the images of its states is
(`GambleMap.mem_domain_of_apply`), also where these cancel or have weight zero. Its
payoffs are linear in those of the gamble, so a gamble is the image exactly if it
is given there and pays that (`GambleMap.apply_eq_ok_iff`). Without an image for
every state there is none, and the failure names the least state without one
(`GambleMap.apply_eq_error_iff`).

So sums, multiples, directions and cylinders are mapped as they should be, zeros
included (`GambleMap.apply_linear`).
-/

namespace Prevision

variable {σ τ : Type} [State σ] [State τ]

/-- Some member comes before all others. -/
theorem SortedSet.exists_first {α : Type} [Ordered α] {s : SortedSet α} (some_member : s.isEmpty = false) :
    ∃ a ∈ s, ∀ b ∈ s, (compare a b).isLE = true := by
  obtain ⟨a, rest, shape⟩ := List.exists_cons_of_ne_nil (List.isEmpty_eq_false_iff.1 some_member)
  have sorted := s.sorted
  rw [shape, List.pairwise_cons] at sorted
  refine ⟨a, ?_, fun b hb => ?_⟩
  · rw [← mem_toList, shape]
    exact List.mem_cons_self
  · rw [← mem_toList, shape, List.mem_cons] at hb
    rcases hb with rfl | later
    · exact Std.ReflCmp.isLE_rfl
    · rw [sorted.1 b later]
      rfl

namespace GambleMap

variable {M : GambleMap σ τ} {f g : Gamble σ} {f' g' sum : Gamble τ} {x : σ} {y : τ} {e : Error}
    {l : List (σ × ℚ)}

/-! ## Where an image is given -/

theorem addImage_of_image {image : Gamble τ} (found : M.image? x = some image) (sum : Gamble τ) (v : ℚ) :
    M.addImage sum x v = .ok (sum + (M.imageAt x).scale v) := by
  rw [addImage, imageAt, found]
  rfl

theorem mem_domain_of_foldlM (done : l.foldlM (fun sum e => M.addImage sum e.1 e.2) sum = .ok f') :
    y ∈ f'.domain ↔ y ∈ sum.domain ∨ ∃ e ∈ l, y ∈ (M.imageAt e.1).domain := by
  induction l generalizing sum with
  | nil =>
    cases done
    simp
  | cons e l ih =>
    obtain ⟨image, found⟩ := exists_image_of_foldlM done e List.mem_cons_self
    rw [List.foldlM_cons, addImage_of_image found] at done
    rw [ih done, Gamble.domain_add, Gamble.domain_scale, SortedSet.mem_union,
      List.exists_mem_cons_iff, or_assoc]

/-- An image is given wherever that of a state is, whatever the payoff in the state. -/
theorem mem_domain_of_apply (applied : M.apply f = .ok f') :
    y ∈ f'.domain ↔ ∃ x ∈ f.domain, y ∈ (M.imageAt x).domain := by
  refine (mem_domain_of_foldlM applied).trans ((or_iff_right SortedSet.not_mem_empty).trans ?_)
  constructor
  · rintro ⟨e, he, hy⟩
    exact ⟨e.1, Table.mem_domain.2 ⟨e.2, he⟩, hy⟩
  · rintro ⟨x, hx, hy⟩
    obtain ⟨v, hv⟩ := Table.mem_domain.1 hx
    exact ⟨(x, v), hv, hy⟩

/-- A gamble is the image exactly if all states have one, and it is given where these are and pays
what the linear function gives. -/
theorem apply_eq_ok_iff : M.apply f = .ok f' ↔ (∀ x ∈ f.domain, ∃ image, M.image? x = some image) ∧
    (∀ y, y ∈ f'.domain ↔ ∃ x ∈ f.domain, y ∈ (M.imageAt x).domain) ∧
    f'.payoff = M.linear f.payoff := by
  constructor
  · intro applied
    exact ⟨exists_image_of_apply applied, fun y => mem_domain_of_apply applied, payoff_of_apply applied⟩
  · rintro ⟨mapped, domain, payoff⟩
    obtain ⟨g', applied, payoff'⟩ := exists_apply_linear mapped
    have domain' : g'.domain = f'.domain :=
      SortedSet.ext fun y => (mem_domain_of_apply applied).trans (domain y).symm
    rw [applied, Gamble.ext_payoff domain' (payoff'.trans payoff.symm)]

/-! ## Gambles without an image -/

/-- The first state without an image ends the sum. -/
theorem foldlM_addImage_eq_error {v : ℚ} (sorted : l.Pairwise fun a b => compare a.1 b.1 = .lt)
    (mem : (x, v) ∈ l)
    (missing : M.image? x = none) (first : ∀ e ∈ l, M.image? e.1 = none → (compare x e.1).isLE = true) :
    l.foldlM (fun sum e => M.addImage sum e.1 e.2) sum = .error (.keyMissing (State.label x)) := by
  induction l generalizing sum with
  | nil => cases mem
  | cons e l ih =>
    obtain ⟨before, sorted⟩ := List.pairwise_cons.1 sorted
    rw [List.foldlM_cons]
    rcases List.mem_cons.1 mem with rfl | mem
    · rw [addImage, missing]
      rfl
    · have found : M.image? e.1 ≠ none := fun none => by
        have le := first e List.mem_cons_self none
        rw [Std.OrientedCmp.gt_of_lt (before _ mem)] at le
        cases le
      obtain ⟨image, found⟩ := Option.ne_none_iff_exists'.1 found
      rw [addImage_of_image found]
      exact ih sorted mem fun e' he' => first e' (List.mem_cons_of_mem e he')

theorem apply_eq_error (hx : x ∈ f.domain) (missing : M.image? x = none)
    (first : ∀ y ∈ f.domain, M.image? y = none → (compare x y).isLE = true) :
    M.apply f = .error (.keyMissing (State.label x)) := by
  obtain ⟨v, hv⟩ := Table.mem_domain.1 hx
  exact foldlM_addImage_eq_error f.table.sorted hv missing fun e he =>
    first e.1 (Table.mem_domain.2 ⟨e.2, he⟩)

theorem exists_first_missing (unmapped : ¬∀ x ∈ f.domain, ∃ image, M.image? x = some image) :
    ∃ x ∈ f.domain, M.image? x = none ∧ ∀ y ∈ f.domain, M.image? y = none →
      (compare x y).isLE = true := by
  have mem {x : σ} :
      x ∈ f.domain.filter (fun x => (M.image? x).isNone) ↔ x ∈ f.domain ∧ M.image? x = none := by
    rw [SortedSet.mem_filter, Option.isNone_iff_eq_none]
  have some_missing : (f.domain.filter fun x => (M.image? x).isNone).isEmpty = false := by
    push Not at unmapped
    obtain ⟨x, hx, missing⟩ := unmapped
    exact SortedSet.isEmpty_eq_false_iff.2 ⟨x, mem.2 ⟨hx, Option.eq_none_iff_forall_ne_some.2 missing⟩⟩
  obtain ⟨x, hx, first⟩ := SortedSet.exists_first some_missing
  obtain ⟨hx, missing⟩ := mem.1 hx
  exact ⟨x, hx, missing, fun y hy missing' => first y (mem.2 ⟨hy, missing'⟩)⟩

/-- The only failure is a state without an image, and the least one is named. -/
theorem apply_eq_error_iff : M.apply f = .error e ↔ ∃ x ∈ f.domain, M.image? x = none ∧
    (∀ y ∈ f.domain, M.image? y = none → (compare x y).isLE = true) ∧ e = .keyMissing (State.label x) := by
  constructor
  · intro failed
    have unmapped : ¬∀ x ∈ f.domain, ∃ image, M.image? x = some image := fun mapped => by
      obtain ⟨f', applied, -⟩ := exists_apply mapped
      cases failed.symm.trans applied
    obtain ⟨x, hx, missing, first⟩ := exists_first_missing unmapped
    exact ⟨x, hx, missing, first, Except.error.inj (failed.symm.trans (apply_eq_error hx missing first))⟩
  · rintro ⟨x, hx, missing, first, rfl⟩
    exact apply_eq_error hx missing first

/-! ## Sums, multiples and directions -/

theorem apply_add (hf : M.apply f = .ok f') (hg : M.apply g = .ok g') : M.apply (f + g) = .ok (f' + g') := by
  obtain ⟨mapped, domain, payoff⟩ := apply_eq_ok_iff.1 hf
  obtain ⟨mapped', domain', payoff'⟩ := apply_eq_ok_iff.1 hg
  refine apply_eq_ok_iff.2 ⟨fun x hx => ?_, fun y => ?_, ?_⟩
  · rw [Gamble.domain_add, SortedSet.mem_union] at hx
    exact hx.elim (mapped x) (mapped' x)
  · simp only [Gamble.domain_add, SortedSet.mem_union, domain, domain', or_and_right, exists_or]
  · have sum {ρ : Type} [State ρ] (f g : Gamble ρ) : (f + g).payoff = f.payoff + g.payoff :=
      funext (Gamble.payoff_add f g)
    rw [sum, sum, payoff, payoff', map_add]

theorem apply_scale (hf : M.apply f = .ok f') (c : ℚ) : M.apply (f.scale c) = .ok (f'.scale c) := by
  obtain ⟨mapped, domain, payoff⟩ := apply_eq_ok_iff.1 hf
  have multiple {ρ : Type} [State ρ] (f : Gamble ρ) : (f.scale c).payoff = c • f.payoff :=
    funext (Gamble.payoff_scale c f)
  refine apply_eq_ok_iff.2 ⟨?_, ?_, ?_⟩
  · rwa [Gamble.domain_scale]
  · rwa [Gamble.domain_scale, Gamble.domain_scale]
  · rw [multiple, multiple, payoff, map_smul]

/-- The image of the ray of a gamble is the ray of the image, or neither has a direction. -/
theorem exists_applyRay_eq (ne : f.payoff ≠ 0) (mapped : ∀ x ∈ f.domain, ∃ image, M.image? x = some image) :
    ∃ r f', Ray.ofGamble f = .ok r ∧ M.apply f = .ok f' ∧ M.applyRay r = Ray.ofGamble f' := by
  obtain ⟨r, direction, parallel⟩ := Ray.exists_parallel ne
  have mapped' : ∀ x ∈ r.gamble.domain, ∃ image, M.image? x = some image := fun x hx => by
    have charged : f.payoff x ≠ 0 := Gamble.mem_support.1 ((Ray.mem_domain_of_ofGamble direction).1 hx)
    exact mapped x (by_contra fun out => charged (Table.payoff_eq_zero out))
  obtain ⟨f', applied, payoff⟩ := exists_apply_linear mapped
  obtain ⟨r', applied', payoff'⟩ := exists_apply_linear mapped'
  have images : Parallel r'.payoff f'.payoff := by
    rw [payoff, payoff']
    exact parallel.symm.map M.linear
  refine ⟨r, f', direction, applied, ?_⟩
  rw [applyRay, applied']
  exact Ray.ofGamble_congr images

/-- The image under the cylindrical map is the extension, zeros included. -/
theorem apply_cylindrical {states : SortedSet σ} (within : ∀ x ∈ f.domain, x ∈ states) (other : SortedSet τ) :
    (cylindrical states other).apply f = .ok (f.extend other) := by
  obtain ⟨h, applied, payoff⟩ := exists_apply_cylindrical within other
  have domain : h.domain = (f.extend other).domain := SortedSet.ext fun z => by
    rw [mem_domain_of_apply applied, Gamble.mem_domain_extend]
    have fiber {x : σ} (hx : x ∈ f.domain) :
        z ∈ ((cylindrical states other).imageAt x).domain ↔ x = z.1 ∧ z.2 ∈ other := by
      rw [imageAt_cylindrical (within x hx), Gamble.domain_indicator, mem_fiber]
    constructor
    · rintro ⟨x, hx, hz⟩
      obtain ⟨rfl, hy⟩ := (fiber hx).1 hz
      exact ⟨hx, hy⟩
    · rintro ⟨hx, hy⟩
      exact ⟨z.1, hx, (fiber hx).2 ⟨rfl, hy⟩⟩
  rw [applied, Gamble.ext_payoff domain (payoff.trans (f.payoff_extend other).symm)]

/-- A gamble has an image exactly if all of its states do, and the failure names the least state
without one. Images of sums and multiples are sums and multiples of images, that of a ray is the
ray of the image, and the image under the cylindrical map is the extension. -/
theorem apply_linear (M : GambleMap σ τ) (f g : Gamble σ) :
    ((∃ f', M.apply f = .ok f') ↔ ∀ x ∈ f.domain, ∃ image, M.image? x = some image) ∧
    (∀ e, M.apply f = .error e ↔ ∃ x ∈ f.domain, M.image? x = none ∧
      (∀ y ∈ f.domain, M.image? y = none → (compare x y).isLE = true) ∧ e = .keyMissing (State.label x)) ∧
    (∀ f' g', M.apply f = .ok f' → M.apply g = .ok g' → M.apply (f + g) = .ok (f' + g')) ∧
    (∀ f' c, M.apply f = .ok f' → M.apply (f.scale c) = .ok (f'.scale c)) ∧
    ((∃ x, f.payoff x ≠ 0) → (∀ x ∈ f.domain, ∃ image, M.image? x = some image) →
      ∃ r f', Ray.ofGamble f = .ok r ∧ M.apply f = .ok f' ∧ M.applyRay r = Ray.ofGamble f') ∧
    ∀ (states : SortedSet σ) (other : SortedSet τ), (∀ x ∈ f.domain, x ∈ states) →
      (cylindrical states other).apply f = .ok (f.extend other) := by
  refine ⟨⟨fun ⟨f', applied⟩ => exists_image_of_apply applied, fun mapped => ?_⟩,
    fun e => apply_eq_error_iff,
    fun f' g' => apply_add, fun f' c applied => apply_scale applied c, fun ⟨x, charged⟩ mapped => ?_,
    fun states other within => apply_cylindrical within other⟩
  · exact (exists_apply mapped).imp fun f' => And.left
  · exact exists_applyRay_eq (fun zero => charged (congrFun zero x)) mapped

/-- Two images that cancel in one gamble and are given on three states. -/
theorem apply_linear_cancelling :
    let M : GambleMap Int Int :=
      .ofList [(0, .ofList [(7, 1), (8, -1)]), (1, .ofList [(7, 2), (8, -2), (9, 0)])]
    let f : Gamble Int := .ofList [(0, 2), (1, -1)]
    let g : Gamble Int := .ofList [(0, 0), (1, 3)]
    let f' : Gamble Int := .ofList [(7, 0), (8, 0), (9, 0)]
    let g' : Gamble Int := .ofList [(7, 6), (8, -6), (9, 0)]
    M.apply f = .ok f' ∧ M.apply g = .ok g' ∧ M.apply (f + g) = .ok (f' + g') ∧
      M.apply (f.scale (-4)) = .ok (f'.scale (-4)) ∧
      (∃ r, Ray.ofGamble f = .ok r ∧ M.applyRay r = .error .degenerateRay) ∧
      (cylindrical (.ofList [0, 1, 2]) (.ofList [5, 6])).apply f =
        .ok (f.extend (.ofList [5, 6] : SortedSet Int)) := by
  intro M f g f' g'
  have hf : M.apply f = .ok f' := by decide +kernel
  have hg : M.apply g = .ok g' := by decide +kernel
  have mapped : ∀ x ∈ f.domain, ∃ image, M.image? x = some image := exists_image_of_apply hf
  have within : ∀ x ∈ f.domain, x ∈ SortedSet.ofList [(0 : Int), 1, 2] := by decide +kernel
  obtain ⟨-, -, add, scale, ray, -⟩ := apply_linear M f g
  obtain ⟨r, h, direction, applied, image⟩ := ray ⟨0, by decide +kernel⟩ mapped
  cases hf.symm.trans applied
  obtain ⟨-, -, -, -, -, cylinder⟩ := apply_linear (GambleMap.empty : GambleMap Int Int) f g
  exact ⟨hf, hg, add f' g' hf hg, scale f' (-4) hf, ⟨r, direction, image.trans (by decide +kernel)⟩,
    cylinder _ _ within⟩

end GambleMap

end Prevision
