import Mathlib.Order.Bounds.Basic
import Prevision.Proofs.Model.Probabilities

/-!
# Lower and upper expectations of credal sets

The lower and the upper expectation are the least and the greatest of the
expectations under the members, if there are members and all of them give the
domain of the gamble a probability (`CredalSet.lowerExpectation_isLeast`,
`CredalSet.upperExpectation_isGreatest`). Otherwise there is none, and the
failure says why (`CredalSet.expectations_of_isEmpty`,
`CredalSet.expectations_of_uncharged`, `CredalSet.bounds_cases`).

The least and the greatest payoff follow affine images (`Gamble.IsAffine.least`,
`Gamble.IsAffine.greatest`).
-/

namespace Prevision

/-! ## Traversals that may fail -/

/-- A traversal that never fails lists what the function gives. -/
theorem exists_mapM {α β : Type} {f : α → Except Error β} {l : List α} (h : ∀ a ∈ l, ∃ b, f a = .ok b) :
    ∃ bs, l.mapM f = .ok bs ∧ ∀ b, b ∈ bs ↔ ∃ a ∈ l, f a = .ok b := by
  induction l with
  | nil => exact ⟨[], rfl, fun b => by simp⟩
  | cons a l ih =>
    obtain ⟨b, hb⟩ := h a List.mem_cons_self
    obtain ⟨bs, done, mem⟩ := ih fun a' ha' => h a' (List.mem_cons_of_mem a ha')
    refine ⟨b :: bs, ?_, fun b' => ?_⟩
    · rw [List.mapM_cons, hb, done]
      rfl
    · rw [List.mem_cons, mem, List.exists_mem_cons_iff, hb, Except.ok.injEq, eq_comm]

/-- A traversal succeeds only if the function does everywhere. -/
theorem exists_of_mapM {α β : Type} {f : α → Except Error β} {l : List α} {bs : List β}
    (done : l.mapM f = .ok bs) :
    ∀ a ∈ l, ∃ b ∈ bs, f a = .ok b := by
  induction l generalizing bs with
  | nil => exact fun a ha => absurd ha List.not_mem_nil
  | cons a l ih =>
    rw [List.mapM_cons] at done
    cases first : f a with
    | error e =>
      rw [first] at done
      cases done
    | ok b =>
      cases rest : l.mapM f with
      | error e =>
        rw [first, rest] at done
        cases done
      | ok cs =>
        rw [first, rest] at done
        cases done
        refine List.forall_mem_cons.2 ⟨⟨b, List.mem_cons_self, first⟩, fun a' ha' => ?_⟩
        exact (ih rest a' ha').imp fun _ => And.imp_left (List.mem_cons_of_mem b)

/-- A traversal fails with the only failure that there is, if the function fails somewhere. -/
theorem mapM_eq_error {α β : Type} {f : α → Except Error β} {l : List α} {e : Error}
    (only : ∀ a ∈ l, (∃ b, f a = .ok b) ∨ f a = .error e) {a : α} (ha : a ∈ l) (fails : f a = .error e) :
    l.mapM f = .error e := by
  induction l with
  | nil => cases ha
  | cons b l ih =>
    rw [List.mapM_cons]
    rcases only b List.mem_cons_self with ⟨c, hc⟩ | failed
    · have rest : a ∈ l := (List.mem_cons.1 ha).resolve_left fun same => by
        rw [same, hc] at fails
        cases fails
      rw [hc, ih (fun d hd => only d (List.mem_cons_of_mem b hd)) rest]
      rfl
    · rw [failed]
      rfl

/-! ## The least and the greatest entry -/

namespace Row

variable {r : Row}

theorem least_isLeast (some_entry : r ≠ []) : IsLeast {a | a ∈ r} (least r) := by
  induction r with
  | nil => exact absurd rfl some_entry
  | cons a r ih =>
    cases r with
    | nil => exact ⟨List.mem_singleton_self a, fun b hb => (List.mem_singleton.1 hb).ge⟩
    | cons b r =>
      obtain ⟨mem, le⟩ := ih (List.cons_ne_nil b r)
      rw [least]
      split
      · rename_i lt
        exact ⟨List.mem_cons_of_mem a mem,
          fun c hc => (List.mem_cons.1 hc).elim (fun e => e ▸ lt.le) fun hc => le hc⟩
      · rename_i ge
        refine ⟨List.mem_cons_self, fun c hc => (List.mem_cons.1 hc).elim (fun e => e.ge) fun hc => ?_⟩
        exact (not_lt.1 ge).trans (le hc)

/-- The greatest entry is the opposite of the least of the opposite entries. -/
theorem greatest_eq (r : Row) : greatest r = -least (neg r) := by
  induction r with
  | nil => exact neg_zero.symm
  | cons a r ih =>
    cases r with
    | nil => exact (neg_neg a).symm
    | cons b r =>
      have opposite : least (neg (a :: b :: r)) =
          if least (neg (b :: r)) < -a then least (neg (b :: r)) else -a := rfl
      rw [opposite, greatest, ih, apply_ite Neg.neg, neg_neg]
      simp only [lt_neg]

theorem greatest_isGreatest (some_entry : r ≠ []) : IsGreatest {a | a ∈ r} (greatest r) := by
  obtain ⟨mem, le⟩ := least_isLeast (r := neg r) fun none => some_entry (List.map_eq_nil_iff.1 none)
  rw [greatest_eq]
  refine ⟨?_, fun a ha => le_neg.1 (le (List.mem_map_of_mem ha))⟩
  obtain ⟨a, ha, same⟩ := List.mem_map.1 mem
  rw [← same, neg_neg]
  exact ha

end Row

/-! ## The least and the greatest payoff -/

namespace Gamble

variable {σ : Type} [State σ] {f : Gamble σ}

theorem values_ne_nil (event : f.domain.isEmpty = false) : f.values ≠ [] := by
  obtain ⟨x, hx⟩ := SortedSet.isEmpty_eq_false_iff.1 event
  exact List.ne_nil_of_mem (mem_values.2 ⟨x, hx, rfl⟩)

/-- The amounts that are paid. -/
def payoffs (f : Gamble σ) : Set ℚ := f.payoff '' {x | x ∈ f.domain}

theorem payoffs_eq (f : Gamble σ) : f.payoffs = {a | a ∈ f.values} := Set.ext fun _ => mem_values.symm

theorem isLeast_least (event : f.domain.isEmpty = false) : IsLeast f.payoffs f.least :=
  f.payoffs_eq ▸ Row.least_isLeast (values_ne_nil event)

theorem isGreatest_greatest (event : f.domain.isEmpty = false) : IsGreatest f.payoffs f.greatest :=
  f.payoffs_eq ▸ Row.greatest_isGreatest (values_ne_nil event)

theorem exists_payoff_eq_least (event : f.domain.isEmpty = false) : ∃ x ∈ f.domain, f.payoff x = f.least :=
  (isLeast_least event).1

theorem least_le {x : σ} (hx : x ∈ f.domain) : f.least ≤ f.payoff x :=
  (isLeast_least (SortedSet.isEmpty_eq_false_iff.2 ⟨x, hx⟩)).2 ⟨x, hx, rfl⟩

theorem exists_payoff_eq_greatest (event : f.domain.isEmpty = false) :
    ∃ x ∈ f.domain, f.payoff x = f.greatest :=
  (isGreatest_greatest event).1

theorem le_greatest {x : σ} (hx : x ∈ f.domain) : f.payoff x ≤ f.greatest :=
  (isGreatest_greatest (SortedSet.isEmpty_eq_false_iff.2 ⟨x, hx⟩)).2 ⟨x, hx, rfl⟩

end Gamble

/-! ## Affine images -/

/-- A gamble that pays `a` times what `f` pays, and `b` in addition. -/
structure Gamble.IsAffine {σ : Type} [State σ] (a b : ℚ) (f g : Gamble σ) : Prop where
  domain : g.domain = f.domain
  payoff : ∀ x ∈ f.domain, g.payoff x = a * f.payoff x + b

namespace Gamble.IsAffine

variable {σ : Type} [State σ] {f g : Gamble σ} {a b : ℚ}

theorem neg (f : Gamble σ) : IsAffine (-1) 0 f (-f) :=
  ⟨f.domain_neg, fun x _ => by rw [payoff_neg, neg_one_mul, add_zero]⟩

theorem scale (a : ℚ) (f : Gamble σ) : IsAffine a 0 f (f.scale a) :=
  ⟨f.domain_scale a, fun x _ => by rw [payoff_scale, add_zero]⟩

theorem shift (b : ℚ) (f : Gamble σ) : IsAffine 1 b f (f.shift b) :=
  ⟨f.domain_shift b, fun x hx => by rw [payoff_shift, if_pos hx, one_mul]⟩

theorem constant (c : ℚ) (f : Gamble σ) : IsAffine 0 c f (constant f.domain c) :=
  ⟨Table.domain_tabulate _ _, fun x hx => by
    rw [zero_mul, zero_add]
    exact Table.payoff_tabulate.trans (if_pos hx)⟩

theorem payoffs (image : IsAffine a b f g) : g.payoffs = (a * · + b) '' f.payoffs := by
  rw [Gamble.payoffs, Gamble.payoffs, Set.image_image, image.domain]
  exact Set.image_congr image.payoff

theorem monotone (nonneg : 0 ≤ a) (b : ℚ) : Monotone (a * · + b) := fun _ _ le =>
  add_le_add_left (mul_le_mul_of_nonneg_left le nonneg) b

theorem antitone (nonpos : a ≤ 0) (b : ℚ) : Antitone (a * · + b) := fun _ _ le =>
  add_le_add_left (mul_le_mul_of_nonpos_left le nonpos) b

theorem least (image : IsAffine a b f g) (nonneg : 0 ≤ a) (event : f.domain.isEmpty = false) :
    g.least = a * f.least + b := by
  have mapped := (monotone nonneg b).map_isLeast (isLeast_least event)
  rw [← image.payoffs] at mapped
  exact (isLeast_least (image.domain ▸ event)).unique mapped

theorem greatest (image : IsAffine a b f g) (nonneg : 0 ≤ a) (event : f.domain.isEmpty = false) :
    g.greatest = a * f.greatest + b := by
  have mapped := (monotone nonneg b).map_isGreatest (isGreatest_greatest event)
  rw [← image.payoffs] at mapped
  exact (isGreatest_greatest (image.domain ▸ event)).unique mapped

end Gamble.IsAffine

/-! ## The expectations under the members -/

namespace CredalSet

variable {σ : Type} [State σ] {K : CredalSet σ} {f : Gamble σ} {p : Pmf σ} {e : Error} {v : ℚ}

/-- Credal sets with the same members are equal. -/
theorem eq_of_mem_iff {K' : CredalSet σ} (same : ∀ p, p ∈ K'.members ↔ p ∈ K.members) : K' = K := by
  cases K'
  cases K
  exact congrArg CredalSet.mk (SortedSet.ext same)

theorem expectations_of_isEmpty (none : K.members.isEmpty = true) (f : Gamble σ) :
    K.expectations f = .error .emptyCredalSet := by
  rw [expectations, if_pos none]

theorem expectations_eq_mapM (hp : p ∈ K.members) (f : Gamble σ) :
    K.expectations f = K.members.toList.mapM (Pmf.expectation · f) := by
  have some_member : K.members.isEmpty = false := SortedSet.isEmpty_eq_false_iff.2 ⟨p, hp⟩
  rw [expectations, some_member, if_neg Bool.false_ne_true]

theorem expectations_of_uncharged (hp : p ∈ K.members) (uncharged : p.chance f.domain = 0) :
    K.expectations f = .error .zeroMass := by
  rw [expectations_eq_mapM hp]
  refine mapM_eq_error (fun q _ => ?_) hp (Pmf.expectation_eq_error uncharged)
  rcases (q.chance_nonneg f.domain).eq_or_lt with zero | pos
  · exact .inr (Pmf.expectation_eq_error zero.symm)
  · exact .inl ⟨_, Pmf.expectation_eq pos⟩

/-- The expectations under the members. -/
def memberExpectations (K : CredalSet σ) (f : Gamble σ) : Set ℚ :=
  {v | ∃ p ∈ K.members, p.expectation f = .ok v}

theorem mem_memberExpectations_neg : v ∈ K.memberExpectations (-f) ↔ -v ∈ K.memberExpectations f :=
  exists_congr fun _ => and_congr_right fun _ => Pmf.expectation_neg_eq_ok_iff

/-- The greatest expectation is the opposite of the least one of the opposite gamble. -/
theorem isLeast_memberExpectations_neg :
    IsLeast (K.memberExpectations (-f)) (-v) ↔ IsGreatest (K.memberExpectations f) v := by
  refine and_congr ?_ ⟨fun below w hw => ?_, fun above w hw => ?_⟩
  · rw [mem_memberExpectations_neg, neg_neg]
  · exact neg_le_neg_iff.1 (below (mem_memberExpectations_neg.2 (by rwa [neg_neg])))
  · exact neg_le.1 (above (mem_memberExpectations_neg.1 hw))

theorem exists_expectations (some_member : K.members.isEmpty = false)
    (charged : ∀ p ∈ K.members, 0 < p.chance f.domain) :
    ∃ row, K.expectations f = .ok row ∧ row ≠ [] ∧ {v | v ∈ row} = K.memberExpectations f := by
  obtain ⟨p, hp⟩ := SortedSet.isEmpty_eq_false_iff.1 some_member
  obtain ⟨row, done, mem⟩ := exists_mapM fun q hq => ⟨_, Pmf.expectation_eq (charged q hq)⟩
  refine ⟨row, (expectations_eq_mapM hp f).trans done, ?_, Set.ext mem⟩
  exact List.ne_nil_of_mem ((mem _).2 ⟨p, hp, Pmf.expectation_eq (charged p hp)⟩)

theorem lowerExpectation_of_error (failed : K.expectations f = .error e) :
    K.lowerExpectation f = .error e := by
  rw [lowerExpectation, failed]
  rfl

theorem upperExpectation_of_error (failed : K.expectations f = .error e) :
    K.upperExpectation f = .error e := by
  rw [upperExpectation, failed]
  rfl

theorem lowerExpectation_isLeast (some_member : K.members.isEmpty = false)
    (charged : ∀ p ∈ K.members, 0 < p.chance f.domain) :
    ∃ v, K.lowerExpectation f = .ok v ∧ IsLeast (K.memberExpectations f) v := by
  obtain ⟨row, found, some_entry, values⟩ := exists_expectations some_member charged
  refine ⟨Row.least row, ?_, values ▸ Row.least_isLeast some_entry⟩
  rw [lowerExpectation, found]
  rfl

theorem upperExpectation_isGreatest (some_member : K.members.isEmpty = false)
    (charged : ∀ p ∈ K.members, 0 < p.chance f.domain) :
    ∃ v, K.upperExpectation f = .ok v ∧ IsGreatest (K.memberExpectations f) v := by
  obtain ⟨row, found, some_entry, values⟩ := exists_expectations some_member charged
  refine ⟨Row.greatest row, ?_, values ▸ Row.greatest_isGreatest some_entry⟩
  rw [upperExpectation, found]
  rfl

/-! ## Bounds and failures -/

theorem expectations_eq_zeroMass (uncharged : ¬∀ p ∈ K.members, 0 < p.chance f.domain) :
    K.lowerExpectation f = .error .zeroMass ∧ K.upperExpectation f = .error .zeroMass := by
  push Not at uncharged
  obtain ⟨p, hp, nonpos⟩ := uncharged
  have failed := expectations_of_uncharged hp (nonpos.antisymm (p.chance_nonneg _))
  exact ⟨lowerExpectation_of_error failed, upperExpectation_of_error failed⟩

section

variable (some_member : K.members.isEmpty = false)

include some_member

/-- There are both bounds, if all members give the event a probability, and otherwise neither. -/
theorem bounds_cases (f : Gamble σ) :
    ((∀ p ∈ K.members, 0 < p.chance f.domain) ∧ ∃ v u, K.lowerExpectation f = .ok v ∧
      K.upperExpectation f = .ok u ∧
        IsLeast (K.memberExpectations f) v ∧ IsGreatest (K.memberExpectations f) u) ∨
      ((¬∀ p ∈ K.members, 0 < p.chance f.domain) ∧ K.lowerExpectation f = .error .zeroMass ∧
        K.upperExpectation f = .error .zeroMass) := by
  by_cases charged : ∀ p ∈ K.members, 0 < p.chance f.domain
  · obtain ⟨v, lower, least⟩ := lowerExpectation_isLeast some_member charged
    obtain ⟨u, upper, greatest⟩ := upperExpectation_isGreatest some_member charged
    exact .inl ⟨charged, v, u, lower, upper, least, greatest⟩
  · exact .inr ⟨charged, expectations_eq_zeroMass charged⟩

theorem lowerExpectation_eq_ok_iff : K.lowerExpectation f = .ok v ↔
    (∀ p ∈ K.members, 0 < p.chance f.domain) ∧ IsLeast (K.memberExpectations f) v := by
  rcases bounds_cases some_member f with ⟨charged, w, -, lower, -, least, -⟩ | ⟨uncharged, failed, -⟩
  · rw [lower, Except.ok.injEq, and_iff_right charged]
    exact ⟨fun same => same ▸ least, least.unique⟩
  · rw [failed]
    exact iff_of_false nofun fun h => uncharged h.1

theorem upperExpectation_eq_ok_iff : K.upperExpectation f = .ok v ↔
    (∀ p ∈ K.members, 0 < p.chance f.domain) ∧ IsGreatest (K.memberExpectations f) v := by
  rcases bounds_cases some_member f with ⟨charged, -, w, -, upper, -, greatest⟩ | ⟨uncharged, -, failed⟩
  · rw [upper, Except.ok.injEq, and_iff_right charged]
    exact ⟨fun same => same ▸ greatest, greatest.unique⟩
  · rw [failed]
    exact iff_of_false nofun fun h => uncharged h.1

end

end CredalSet

end Prevision
