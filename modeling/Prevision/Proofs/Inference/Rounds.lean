import Prevision.Proofs.Inference.Slots

/-!
# What a round may add, and what it shows

Two passages between the points of a round's program and selections.

* `Raised`: to a point one may add a large multiple of a nonnegative row, and
  activate the slots all of whose weights are positive in that row. This keeps
  the constraints of the slots (`Raised.holds`) and adds to the weighted sum
  (`Raised.totalPayoff_eq`), so an optimum activates every such slot.
* `exists_direction` turns a selection within the active cones into such a row;
* `exists_selection` turns a point that uses no cone in part into a selection of
  its activated cones.
-/

namespace Prevision

namespace Slot

variable {σ : Type} [State σ] {slots : List (Slot σ)} {p q p' : Row} {c : Rat} {s : Slot σ}

/-! ## Adding to a point -/

/-- `p'` is `p` plus `c` times the row `q` on the weights, with every slot activated that `q` covers. -/
structure Raised (p q p' : Row) (c : Rat) (slots : List (Slot σ)) : Prop where
  factor : 0 ≤ c
  nonneg : ∀ s ∈ slots, ∀ v ∈ s.weights, 0 ≤ Row.entry q v
  large : ∀ s ∈ slots, ∀ v ∈ s.weights, 0 < Row.entry q v → 1 ≤ c * Row.entry q v
  weights : ∀ s ∈ slots, ∀ v ∈ s.weights, Row.entry p' v = Row.entry p v + c * Row.entry q v
  activated : ∀ s ∈ slots, s.Covered q → Row.entry p' s.activation = 1
  kept : ∀ s ∈ slots, ¬s.Covered q → Row.entry p' s.activation = Row.entry p s.activation

theorem Raised.holds (h : Raised p q p' c slots) (hs : s ∈ slots) (holds : s.Holds p) : s.Holds p' := by
  have gain (v : Nat) (hv : v ∈ s.weights) : Row.entry p v ≤ Row.entry p' v := by
    rw [h.weights s hs v hv]
    exact le_add_of_nonneg_right (mul_nonneg h.factor (h.nonneg s hs v hv))
  have weights : ∀ v ∈ s.weights, 0 ≤ Row.entry p' v := fun v hv =>
    (holds.weights v hv).trans (gain v hv)
  by_cases covered : s.Covered q
  · have active := h.activated s hs covered
    refine ⟨by rw [active]; exact zero_le_one, active.le, weights, fun v hv => ?_⟩
    rw [active, h.weights s hs v hv]
    exact le_add_of_nonneg_of_le (holds.weights v hv) (h.large s hs v hv (covered v hv))
  · have same := h.kept s hs covered
    refine ⟨by rw [same]; exact holds.nonneg, by rw [same]; exact holds.le_one, weights, fun v hv => ?_⟩
    rw [same]
    exact (holds.covered v hv).trans (gain v hv)

theorem Raised.payoff_eq (h : Raised p q p' c slots) (hs : s ∈ slots) (x : σ) :
    s.payoff p' x = s.payoff p x + c * s.payoff q x := by
  rw [payoff, payoff, payoff, ← List.sum_map_mul_left, ← List.sum_map_add]
  refine congrArg List.sum (List.map_congr_left fun e he => ?_)
  rw [h.weights s hs e.1 (List.of_mem_zip he).1]
  ring

theorem Raised.totalPayoff_eq (h : Raised p q p' c slots) (x : σ) :
    totalPayoff p' slots x = totalPayoff p slots x + c * totalPayoff q slots x := by
  rw [totalPayoff, totalPayoff, totalPayoff, ← List.sum_map_mul_left, ← List.sum_map_add]
  exact congrArg List.sum (List.map_congr_left fun s hs => h.payoff_eq hs x)

/-- A factor that takes every positive number of a list to at least one. -/
theorem exists_factor (l : List Rat) : ∃ c : Rat, 0 ≤ c ∧ ∀ a ∈ l, 0 < a → 1 ≤ c * a := by
  induction l with
  | nil => exact ⟨0, le_rfl, fun a ha => absurd ha List.not_mem_nil⟩
  | cons b l ih =>
    obtain ⟨c, hc, large⟩ := ih
    refine ⟨max c b⁻¹, hc.trans (le_max_left _ _), fun a ha pos => ?_⟩
    rcases List.mem_cons.1 ha with rfl | ha
    · rw [← inv_mul_cancel₀ pos.ne']
      exact mul_le_mul_of_nonneg_right (le_max_right _ _) pos.le
    · exact (large a ha pos).trans (mul_le_mul_of_nonneg_right (le_max_left _ _) pos.le)

theorem entry_mem_of_pos {v : Nat} (pos : 0 < Row.entry q v) : Row.entry q v ∈ q := by
  have lt : v < q.length := by
    by_contra ge
    rw [Row.entry_of_le (not_lt.1 ge)] at pos
    exact lt_irrefl 0 pos
  rw [Row.entry_eq_getElem lt]
  exact List.getElem_mem lt

/-- What may be added: the weights move along `q`, by a factor that takes every number of `more` to at
least one as well, and the variables beside weights and activations take what values one likes. -/
theorem exists_raised {A : List (Cone σ)} {a n : Nat} (low : rayCount A ≤ a) (high : a + A.length ≤ n)
    (p : Row) (nonneg : ∀ s ∈ ofCones A 0 a, ∀ v ∈ s.weights, 0 ≤ Row.entry q v) (more : List Rat)
    (others : Rat → Nat → Rat) :
    ∃ p' c, p'.length = n ∧ Raised p q p' c (ofCones A 0 a) ∧ (∀ b ∈ more, 0 < b → 1 ≤ c * b) ∧
      ∀ v < n, rayCount A ≤ v → v < a ∨ a + A.length ≤ v → Row.entry p' v = others c v := by
  classical
  obtain ⟨c, hc, large⟩ := exists_factor (q ++ more)
  let value (v : Nat) : Rat :=
    if v < rayCount A then Row.entry p v + c * Row.entry q v
    else if a ≤ v ∧ v < a + A.length then
      if ∃ s ∈ ofCones A 0 a, s.activation = v ∧ s.Covered q then 1 else Row.entry p v
    else others c v
  have entry {v : Nat} (hv : v < n) : Row.entry ((List.range n).map value) v = value v :=
    Row.entry_map_range hv value
  have atActivation {s : Slot σ} (hs : s ∈ ofCones A 0 a) :
      Row.entry ((List.range n).map value) s.activation = if s.Covered q then 1
        else Row.entry p s.activation := by
    obtain ⟨ge, lt⟩ := activation_mem hs
    rw [entry (by omega)]
    show (if _ then _ else if _ then _ else _) = _
    rw [if_neg (by omega), if_pos ⟨ge, lt⟩]
    refine if_congr ⟨fun ⟨t, ht, same, covered⟩ => ?_, fun covered => ⟨s, hs, rfl, covered⟩⟩ rfl rfl
    rwa [← eq_of_activation_eq ht hs same]
  refine ⟨(List.range n).map value, c, by rw [List.length_map, List.length_range],
    ⟨hc, nonneg, fun s hs v hv pos => ?_, fun s hs v hv => ?_, fun s hs covered => ?_,
      fun s hs uncovered => ?_⟩,
    fun b hb => large b (List.mem_append_right _ hb), fun v hv ge out => ?_⟩
  · exact large _ (List.mem_append_left _ (entry_mem_of_pos pos)) pos
  · have lt := (weight_mem hs hv).2
    rw [Nat.zero_add] at lt
    rw [entry (by omega)]
    exact if_pos lt
  · rw [atActivation hs, if_pos covered]
  · rw [atActivation hs, if_neg uncovered]
  · rw [entry hv]
    show (if _ then _ else if _ then _ else _) = _
    rw [if_neg (by omega), if_neg (by omega)]

theorem Raised.activation_le (h : Raised p q p' c slots) (hs : s ∈ slots) (holds : s.Holds p) :
    Row.entry p s.activation ≤ Row.entry p' s.activation := by
  by_cases covered : s.Covered q
  · rw [h.activated s hs covered]
    exact holds.le_one
  · exact (h.kept s hs covered).ge

/-! ## Selections and points -/

variable {cones : List (Cone σ)} {positions : List Nat} {w a : Nat} {e : Nat × Slot σ}

/-- Positions of cones with rays, in increasing order. -/
structure Seated (cones : List (Cone σ)) (positions : List Nat) : Prop where
  sorted : positions.Pairwise (· < ·)
  lt_length : ∀ i ∈ positions, i < cones.length
  nonempty : ∀ i ∈ positions, (coneAt cones i).isEmpty = false

theorem Seated.nodup (h : Seated cones positions) : positions.Nodup := h.sorted.imp Nat.ne_of_lt

theorem Seated.sublist (h : Seated cones positions) {rest : List Nat} (sub : rest.Sublist positions) :
    Seated cones rest :=
  ⟨h.sorted.sublist sub, fun i hi => h.lt_length i (sub.subset hi), fun i hi => h.nonempty i (sub.subset hi)⟩

theorem survivors_sublist (p : Row) (cones : List (Cone σ)) (positions : List Nat) (w a : Nat) :
    (survivors p (seats cones positions w a)).Sublist positions := by
  rw [survivors]
  conv => arg 2; rw [← map_fst_seats cones positions w a]
  exact List.filter_sublist.map _

theorem mem_survivors {seats : List (Nat × Slot σ)} {i : Nat} :
    i ∈ survivors p seats ↔ ∃ s, (i, s) ∈ seats ∧ s.isActive p = true := by
  simp [survivors, List.mem_map, List.mem_filter]

/-- The activated cones are those of the survivors. -/
theorem activeCones_eq_pick (p : Row) (cones : List (Cone σ)) (positions : List Nat) (w a : Nat) :
    activeCones p (ofCones (pick cones positions) w a) =
      pick cones (survivors p (seats cones positions w a)) := by
  rw [activeCones, ← map_snd_seats cones positions w a, List.filter_map, List.map_map, pick, survivors,
    List.map_map]
  exact List.map_congr_left fun e he => cone_eq (List.mem_filter.1 he).1

/-- A selection within the active cones, as a row that covers the slots of its entries. -/
theorem exists_direction (s : Selection cones) (inside : ∀ i ∈ s.entries, i ∈ positions)
    (nodup : positions.Nodup) (a : Nat) : ∃ q : Row, q.length = rayCount (pick cones positions) ∧
      ∀ after : Row, (∀ t ∈ ofCones (pick cones positions) 0 a, ∀ v ∈ t.weights,
        0 ≤ Row.entry (q ++ after) v) ∧
        (∀ e ∈ seats cones positions 0 a, e.1 ∈ s.entries → e.2.Covered (q ++ after)) ∧
        ∀ x, totalPayoff (q ++ after) (ofCones (pick cones positions) 0 a) x = s.payoff x := by
  refine ⟨weightRow cones s.weightAt positions, length_weightRow cones s.weightAt positions, fun after => ?_⟩
  have matched := matches_weightRow cones s.weightAt positions after a
  refine ⟨fun t ht v hv => ?_, fun e he selected v hv => ?_, fun x => ?_⟩
  · obtain ⟨i, he⟩ := exists_seat ht
    obtain ⟨r, hr, value⟩ := matched.exists_ray he hv
    rw [value]
    exact s.weightAt_nonneg i hr
  · obtain ⟨r, hr, value⟩ := matched.exists_ray he hv
    rw [value]
    exact Selection.weightAt_pos selected hr
  · rw [matched.totalPayoff_eq, ← List.sum_toFinset _ nodup]
    exact s.sum_weightAt (fun i hi => List.mem_toFinset.2 (inside i hi)) x

theorem payoff_eq_zero_of_unused {x : σ} (unused : ∀ v ∈ s.weights, Row.entry p v = 0) :
    s.payoff p x = 0 := by
  refine List.sum_eq_zero fun v hv => ?_
  obtain ⟨e, he, rfl⟩ := List.mem_map.1 hv
  rw [unused e.1 (List.of_mem_zip he).1, zero_mul]

theorem isStray_eq_false_iff : s.isStray p = false ↔
    (s.isActive p = false → ∀ v ∈ s.weights, Row.entry p v = 0) := by
  rw [isStray]
  cases s.isActive p with
  | true => exact iff_of_true rfl fun active => absurd active.symm Bool.false_ne_true
  | false =>
    rw [Bool.not_false, Bool.true_and, imp_iff_right rfl, isUsed, List.any_eq_false]
    exact forall₂_congr fun v _ => by rw [bne_iff_ne, not_not]

theorem sum_filter_of_zero {α : Type} {l : List α} {P : α → Bool} {f : α → Rat}
    (zero : ∀ b ∈ l, P b = false → f b = 0) : ((l.filter P).map f).sum = (l.map f).sum := by
  induction l with
  | nil => rfl
  | cons b l ih =>
    have rest := ih fun b hb => zero b (List.mem_cons_of_mem _ hb)
    cases passes : P b with
    | true =>
      rw [List.filter_cons_of_pos passes, List.map_cons, List.map_cons, List.sum_cons, List.sum_cons, rest]
    | false =>
      rw [List.filter_cons_of_neg (Bool.eq_false_iff.1 passes), rest, List.map_cons, List.sum_cons,
        zero b List.mem_cons_self passes, zero_add]

/-- A point that uses no cone in part, as a selection of the cones that it activates. -/
theorem exists_selection (seated : Seated cones positions)
    (holds : ∀ s ∈ ofCones (pick cones positions) w a, s.Holds p)
    (stray : (ofCones (pick cones positions) w a).any (isStray p) = false) :
    ∃ s : Selection cones, s.entries = (survivors p (seats cones positions w a)).toFinset ∧
      ∀ x, s.payoff x = totalPayoff p (ofCones (pick cones positions) w a) x := by
  obtain ⟨weight, matched⟩ := exists_matches cones seated.nodup p w a
  have kept : ∀ i ∈ (survivors p (seats cones positions w a)).toFinset, i ∈ positions := fun i hi =>
    (survivors_sublist p cones positions w a).subset (List.mem_toFinset.1 hi)
  refine ⟨⟨(survivors p (seats cones positions w a)).toFinset, weight,
    fun i hi => seated.lt_length i (kept i hi),
    fun i hi => seated.nonempty i (kept i hi), fun i hi r hr => ?_⟩, rfl, fun x => ?_⟩
  · obtain ⟨t, ht, active⟩ := mem_survivors.1 (List.mem_toFinset.1 hi)
    obtain ⟨v, hv, value⟩ := matched.exists_variable ht hr
    have one : Row.entry p t.activation = 1 := beq_iff_eq.1 active
    rw [← value]
    exact zero_lt_one.trans_le (one ▸ (holds t (slot_mem ht)).covered v hv)
  · have unused : ∀ e ∈ seats cones positions w a, e.2.isActive p = false → e.2.payoff p x = 0 := by
      intro e he inactive
      have := List.any_eq_false.1 stray e.2 (slot_mem he)
      exact payoff_eq_zero_of_unused (isStray_eq_false_iff.1 (Bool.eq_false_iff.2 this) inactive)
    show ∑ i ∈ (survivors p (seats cones positions w a)).toFinset, (coneAt cones i).payoff (weight i) x = _
    rw [List.sum_toFinset _ (seated.nodup.sublist (survivors_sublist p cones positions w a)),
      survivors, List.map_map, totalPayoff, ← map_snd_seats cones positions w a, List.map_map,
      ← sum_filter_of_zero (f := payoff p x ∘ Prod.snd) unused]
    exact congrArg List.sum (List.map_congr_left fun e he =>
      (matched.payoff_eq (List.mem_filter.1 he).1 x).symm)

end Slot

end Prevision
