import Mathlib.Tactic.LinearCombination
import Prevision.Proofs.Model.Expectations

/-!
# Spreads

The spread of a gamble is the gamble whose affine image it is, with the width between its
bounds as the factor and the least payoff added (`Gamble.spread?_eq_some_iff`). Bounds
follow affine images, so the bounds of a spread are zero and one and it is its own
spread. Two gambles on one domain that are not constant have one spread exactly if each
is a positive affine image of the other: the factor is the quotient of the widths
(`Gamble.spread_eq_iff`).
-/

namespace Prevision

variable {σ : Type} [State σ]

namespace Gamble

variable {f g s t : Gamble σ} {a b : ℚ}

/-! ## Affine images -/

namespace IsAffine

theorem least_of_nonpos (image : IsAffine a b f g) (nonpos : a ≤ 0) (event : f.domain.isEmpty = false) :
    g.least = a * f.greatest + b := by
  have mapped := (antitone nonpos b).map_isGreatest (isGreatest_greatest event)
  rw [← image.payoffs] at mapped
  exact (isLeast_least (image.domain ▸ event)).unique mapped

theorem greatest_of_nonpos (image : IsAffine a b f g) (nonpos : a ≤ 0) (event : f.domain.isEmpty = false) :
    g.greatest = a * f.least + b := by
  have mapped := (antitone nonpos b).map_isLeast (isLeast_least event)
  rw [← image.payoffs] at mapped
  exact (isGreatest_greatest (image.domain ▸ event)).unique mapped

/-- A gamble is settled by an affine image of it, unless that is constant. -/
theorem injective (ne : a ≠ 0) (left : IsAffine a b s f) (right : IsAffine a b t f) : s = t := by
  have domain : s.domain = t.domain := left.domain.symm.trans right.domain
  refine table_injective (Table.ext_payoff domain fun x hx => ?_)
  have same := (left.payoff x hx).symm.trans (right.payoff x (domain ▸ hx))
  exact mul_left_cancel₀ ne (add_right_cancel same)

end IsAffine

/-! ## Widths -/

theorem bounds_of_isEmpty (none : f.domain.isEmpty = true) : f.least = 0 ∧ f.greatest = 0 := by
  have values : f.values = [] := List.eq_nil_iff_forall_not_mem.2 fun v hv => by
    obtain ⟨x, hx, -⟩ := mem_values.1 hv
    exact SortedSet.eq_empty_iff.1 none x hx
  rw [least, greatest, values]
  exact ⟨rfl, rfl⟩

theorem least_le_greatest (f : Gamble σ) : f.least ≤ f.greatest := by
  cases event : f.domain.isEmpty with
  | true =>
    obtain ⟨least, greatest⟩ := bounds_of_isEmpty event
    exact (least.trans greatest.symm).le
  | false =>
    obtain ⟨x, hx⟩ := SortedSet.isEmpty_eq_false_iff.1 event
    exact (least_le hx).trans (le_greatest hx)

/-- The gambles without width are the empty one and the constant ones. -/
theorem least_eq_greatest_iff :
    f.least = f.greatest ↔ f.domain.isEmpty = true ∨ ∃ c, ∀ x ∈ f.domain, f.payoff x = c := by
  cases event : f.domain.isEmpty with
  | true =>
    obtain ⟨least, greatest⟩ := bounds_of_isEmpty event
    exact iff_of_true (least.trans greatest.symm) (.inl rfl)
  | false =>
    rw [or_iff_right Bool.false_ne_true]
    constructor
    · exact fun same => ⟨f.least, fun x hx => le_antisymm ((le_greatest hx).trans_eq same.symm) (least_le hx)⟩
    · rintro ⟨c, constant⟩
      obtain ⟨x, hx, least⟩ := exists_payoff_eq_least event
      obtain ⟨y, hy, greatest⟩ := exists_payoff_eq_greatest event
      rw [← least, ← greatest, constant x hx, constant y hy]

theorem isEmpty_domain_of_width (width : f.least < f.greatest) : f.domain.isEmpty = false :=
  Bool.eq_false_iff.2 fun none => width.ne (least_eq_greatest_iff.2 (.inl none))

/-! ## Spreads -/

/-- A gamble with a width is the affine image of its spread, by the width and the least payoff. -/
theorem exists_spread (width : f.least < f.greatest) :
    ∃ s, f.spread? = some s ∧ IsAffine (f.greatest - f.least) f.least s f := by
  have ne : f.greatest - f.least ≠ 0 := (sub_pos.2 width).ne'
  let share : ℚ → ℚ := fun v => (v - f.least) / (f.greatest - f.least)
  have domain : Gamble.domain ⟨.map share f.table⟩ = f.domain := Table.domain_map share f.table
  refine ⟨⟨.map share f.table⟩, if_neg ne, domain.symm, fun x hx => ?_⟩
  rw [domain] at hx
  rw [show Gamble.payoff ⟨.map share f.table⟩ x = share (f.payoff x) from Table.payoff_map_of_mem share hx,
    mul_div_cancel₀ _ ne, sub_add_cancel]

theorem spread?_eq_none_iff : f.spread? = none ↔ f.least = f.greatest := by
  refine ⟨fun none => by_contra fun ne => ?_, fun same => if_pos (sub_eq_zero.2 same.symm)⟩
  obtain ⟨s, spread, -⟩ := exists_spread (f.least_le_greatest.lt_of_ne ne)
  cases none.symm.trans spread

theorem spread?_eq_some_iff :
    f.spread? = some s ↔ f.least < f.greatest ∧ IsAffine (f.greatest - f.least) f.least s f := by
  constructor
  · intro spread
    have width : f.least < f.greatest := f.least_le_greatest.lt_of_ne fun same => by
      cases (spread?_eq_none_iff.2 same).symm.trans spread
    obtain ⟨s', spread', image⟩ := exists_spread width
    cases spread.symm.trans spread'
    exact ⟨width, image⟩
  · rintro ⟨width, image⟩
    obtain ⟨s', spread, image'⟩ := exists_spread width
    rw [spread, image'.injective (sub_pos.2 width).ne' image]

/-- The bounds of a spread are zero and one. -/
theorem bounds_of_spread (spread : f.spread? = some s) : s.least = 0 ∧ s.greatest = 1 := by
  obtain ⟨width, image⟩ := spread?_eq_some_iff.1 spread
  have pos : 0 < f.greatest - f.least := sub_pos.2 width
  have event : s.domain.isEmpty = false := image.domain ▸ isEmpty_domain_of_width width
  have least := image.least pos.le event
  have greatest := image.greatest pos.le event
  constructor
  · exact (mul_eq_zero.1 (left_eq_add.1 (by rwa [add_comm] at least))).resolve_left pos.ne'
  · exact mul_left_cancel₀ pos.ne' (by rw [mul_one, eq_sub_of_add_eq greatest.symm])

/-- A spread is its own spread. -/
theorem spread?_of_spread (spread : f.spread? = some s) : s.spread? = some s := by
  obtain ⟨least, greatest⟩ := bounds_of_spread spread
  rw [spread?_eq_some_iff, least, greatest, sub_zero]
  exact ⟨zero_lt_one, rfl, fun x _ => by rw [one_mul, add_zero]⟩

/-- The spread of the opposite gamble is one minus the spread. -/
theorem exists_spread_neg (spread : f.spread? = some s) :
    ∃ t, (-f).spread? = some t ∧ IsAffine (-1) 1 s t := by
  obtain ⟨width, image⟩ := spread?_eq_some_iff.1 spread
  have event := isEmpty_domain_of_width width
  have least : (-f).least = -f.greatest := by
    rw [(IsAffine.neg f).least_of_nonpos (neg_nonpos.2 zero_le_one) event, neg_one_mul, add_zero]
  have greatest : (-f).greatest = -f.least := by
    rw [(IsAffine.neg f).greatest_of_nonpos (neg_nonpos.2 zero_le_one) event, neg_one_mul, add_zero]
  obtain ⟨t, spread', image'⟩ := exists_spread (f := -f) (by rwa [least, greatest, neg_lt_neg_iff])
  rw [least, greatest] at image'
  have domain : t.domain = s.domain := image'.domain.symm.trans (f.domain_neg.trans image.domain)
  refine ⟨t, spread', domain, fun x hx => mul_left_cancel₀ (sub_pos.2 width).ne' ?_⟩
  have left := image.payoff x hx
  have right := image'.payoff x (domain ▸ hx)
  rw [payoff_neg] at right
  linear_combination -right - left

/-- Gambles on one domain that are not constant have one spread exactly if they are positive
affine images of each other. -/
theorem spread_eq_iff (domain : g.domain = f.domain) (spread_f : f.spread? = some s)
    (spread_g : g.spread? = some t) :
    s = t ↔ ∃ a b, 0 < a ∧ IsAffine a b f g := by
  obtain ⟨width_f, image_f⟩ := spread?_eq_some_iff.1 spread_f
  obtain ⟨width_g, image_g⟩ := spread?_eq_some_iff.1 spread_g
  have pos_f : 0 < f.greatest - f.least := sub_pos.2 width_f
  have pos_g : 0 < g.greatest - g.least := sub_pos.2 width_g
  constructor
  · rintro rfl
    let a := (g.greatest - g.least) / (f.greatest - f.least)
    have factor : a * (f.greatest - f.least) = g.greatest - g.least := div_mul_cancel₀ _ pos_f.ne'
    refine ⟨a, g.least - a * f.least, div_pos pos_g pos_f, domain, fun x hx => ?_⟩
    rw [image_f.domain] at hx
    rw [image_g.payoff x hx, image_f.payoff x hx]
    linear_combination -s.payoff x * factor
  · rintro ⟨a, b, pos, image⟩
    have event := isEmpty_domain_of_width width_f
    have least := image.least pos.le event
    have greatest := image.greatest pos.le event
    -- The bounds of `g` are those of `f` under the map, so `f` and the spread of `g` are related
    -- as `f` and its spread.
    have image_f' : IsAffine (f.greatest - f.least) f.least t f := by
      refine ⟨domain.symm.trans image_g.domain, fun x hx => mul_left_cancel₀ pos.ne' ?_⟩
      have at_x := image_g.payoff x hx
      rw [image.payoff x (domain ▸ image_g.domain ▸ hx), least, greatest] at at_x
      linear_combination at_x
    exact image_f.injective pos_f.ne' image_f'

/-- The spread is a canonical form for positive affine change. Only empty and constant gambles
have none. The bounds of a spread are zero and one, it is its own spread, and the opposite gamble
has one minus it. Other gambles on one domain have the same spread exactly if they are positive
affine images of each other. -/
theorem spread_canonical (f : Gamble σ) :
    (f.spread? = none ↔ f.domain.isEmpty = true ∨ ∃ c, ∀ x ∈ f.domain, f.payoff x = c) ∧
    (∀ s, f.spread? = some s → s.domain = f.domain ∧ s.least = 0 ∧ s.greatest = 1 ∧ IsLeast s.payoffs 0 ∧
      IsGreatest s.payoffs 1 ∧ s.spread? = some s ∧
      ∃ t, (-f).spread? = some t ∧ t.domain = f.domain ∧ ∀ x ∈ f.domain, t.payoff x = 1 - s.payoff x) ∧
    ∀ g : Gamble σ, g.domain = f.domain → f.spread? ≠ none → g.spread? ≠ none →
      (f.spread? = g.spread? ↔ ∃ a b, 0 < a ∧ ∀ x ∈ f.domain, g.payoff x = a * f.payoff x + b) := by
  refine ⟨spread?_eq_none_iff.trans least_eq_greatest_iff, fun s spread => ?_,
    fun g domain some_f some_g => ?_⟩
  · obtain ⟨width, image⟩ := spread?_eq_some_iff.1 spread
    obtain ⟨least, greatest⟩ := bounds_of_spread spread
    obtain ⟨t, spread', opposite⟩ := exists_spread_neg spread
    have event : s.domain.isEmpty = false := image.domain ▸ isEmpty_domain_of_width width
    refine ⟨image.domain.symm, least, greatest, least ▸ isLeast_least event,
      greatest ▸ isGreatest_greatest event,
      spread?_of_spread spread, t, spread', opposite.domain.trans image.domain.symm, fun x hx => ?_⟩
    rw [opposite.payoff x (image.domain ▸ hx), neg_one_mul, neg_add_eq_sub]
  · obtain ⟨s, spread_f⟩ := Option.ne_none_iff_exists'.1 some_f
    obtain ⟨t, spread_g⟩ := Option.ne_none_iff_exists'.1 some_g
    rw [spread_f, spread_g, Option.some.injEq, spread_eq_iff domain spread_f spread_g]
    exact exists₂_congr fun a b => and_congr_right fun _ =>
      ⟨fun image => image.payoff, fun payoff => ⟨domain, payoff⟩⟩

/-- Two gambles with one spread, and the spread of the opposite of the first. -/
theorem spread_canonical_opposite :
    let f : Gamble Int := .ofList [(0, 1), (1, -3), (2, 0)]
    let g : Gamble Int := .ofList [(0, 5), (1, -1), (2, 7 / 2)]
    let s : Gamble Int := .ofList [(0, 1), (1, 0), (2, 3 / 4)]
    g.domain = f.domain ∧ f.spread? = some s ∧ f.spread? = g.spread? ∧ s.spread? = some s ∧
      ∃ t, (-f).spread? = some t ∧ t.payoff 2 = 1 / 4 := by
  intro f g s
  have domain : g.domain = f.domain := by decide +kernel
  have spread : f.spread? = some s := by decide +kernel
  obtain ⟨-, spreads, images⟩ := spread_canonical f
  have affine : ∀ x ∈ f.domain, g.payoff x = 3 / 2 * f.payoff x + 7 / 2 := by decide +kernel
  have same :=
    (images g domain (by decide +kernel) (by decide +kernel)).2 ⟨3 / 2, 7 / 2, by decide +kernel, affine⟩
  obtain ⟨-, -, -, -, -, own, t, opposite, -, payoff⟩ := spreads s spread
  exact ⟨domain, spread, same, own, t, opposite, (payoff 2 (by decide +kernel)).trans (by decide +kernel)⟩

end Gamble

end Prevision
