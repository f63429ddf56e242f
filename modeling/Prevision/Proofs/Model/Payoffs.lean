import Mathlib.Algebra.Module.Pi
import Prevision.DesirabilitySet
import Prevision.Proofs.Linear.Entries
import Prevision.Proofs.Linear.Parallel
import Prevision.Proofs.Order.Listings

/-!
# Payoffs of tables, rays and sets of desirable gambles

Totals of tables as sums over states, and what the ways to build a ray or a set
of desirable gambles make of payoffs.

* `Table.total_map_mul`, `Table.total_eq_sum`: sums over the entries as sums over states;
* `Table.domain_map`, `Table.domain_tabulate`: the domains that the operations give;
* `Table.ext_payoff`, `Gamble.ext_payoff`: tables and gambles on one domain by their payoffs;
* `Gamble.toList_ofList_zip`: a row given on the states of a sorted set;
* `Ray.exists_ofGamble`, `Ray.exists_parallel`: a gamble that is not zero has a direction, a
  positive multiple of it;
* `Ray.exists_indicator`: the direction of an indicator is the indicator;
* `DesirabilitySet.exists_ofGambles`: the generators of a set of single gambles.
-/

namespace Prevision

variable {σ : Type} [State σ]

namespace Table

variable {f : Table σ} {x : σ} {v : ℚ}

theorem payoff_of_mem (h : (x, v) ∈ f.toList) : f.payoff x = v := by
  rw [payoff, SortedMap.get?_eq_some.2 h, Option.getD_some]

theorem mem_domain : x ∈ f.domain ↔ ∃ v, (x, v) ∈ f.toList := by
  rw [domain, SortedMap.mem_keys]
  exact exists_congr fun v => SortedMap.get?_eq_some

@[simp] theorem domain_map (op : ℚ → ℚ) (f : Table σ) : domain (SortedMap.map op f) = f.domain :=
  SortedSet.toList_injective List.map_map

@[simp] theorem domain_tabulate (S : SortedSet σ) (h : σ → ℚ) : domain (.tabulate S h) = S :=
  SortedSet.toList_injective (List.map_map.trans (List.map_id _))

theorem contains_iff : f.contains x = true ↔ x ∈ f.domain := by
  rw [SortedMap.contains, Option.isSome_iff_exists]
  exact SortedMap.mem_keys.symm

theorem get?_eq_ite (f : Table σ) (x : σ) : f.get? x = if x ∈ f.domain then some (f.payoff x) else none := by
  split
  · rename_i hx
    obtain ⟨v, hv⟩ := mem_domain.1 hx
    rw [payoff_of_mem hv]
    exact SortedMap.get?_eq_some.2 hv
  · rename_i out
    exact Option.eq_none_iff_forall_ne_some.2 fun v hv => out (SortedMap.mem_keys.2 ⟨v, hv⟩)

/-- Tables on one domain that have the same values there are equal. -/
theorem ext_payoff {g : Table σ} (domain : f.domain = g.domain)
    (payoff : ∀ x ∈ f.domain, f.payoff x = g.payoff x) :
    f = g := by
  refine SortedMap.ext fun x => ?_
  rw [get?_eq_ite, get?_eq_ite, ← domain]
  split
  · rename_i hx
    rw [payoff x hx]
  · rfl

/-- On the domain the values are mapped, whatever becomes of zero. -/
theorem payoff_map_of_mem (op : ℚ → ℚ) (hx : x ∈ f.domain) :
    payoff (SortedMap.map op f) x = op (f.payoff x) := by
  obtain ⟨v, hv⟩ := mem_domain.1 hx
  rw [payoff_of_mem hv]
  exact payoff_of_mem (List.mem_map.2 ⟨(x, v), hv, rfl⟩)

/-- A sum over the entries, each times the value of a function in its state. -/
theorem total_map_mul (f : Table σ) (h : σ → ℚ) :
    Row.total (f.toList.map fun e => e.2 * h e.1) = ∑ x ∈ f.domain.toFinset, f.payoff x * h x := by
  rw [Row.total_eq_sum, SortedSet.sum_toFinset, show f.domain.toList = f.toList.map Prod.fst from rfl,
    List.map_map]
  exact congrArg List.sum (List.map_congr_left fun e he => by
    rw [Function.comp_apply, payoff_of_mem (v := e.2) he])

theorem sum_payoff_of_subset {S : SortedSet σ} (within : ∀ x ∈ f.domain, x ∈ S) (h : σ → ℚ) :
    ∑ x ∈ f.domain.toFinset, f.payoff x * h x = ∑ x ∈ S.toFinset, f.payoff x * h x :=
  Finset.sum_subset (SortedSet.toFinset_subset.2 within) fun x _ out => by rw [payoff_eq_zero out, zero_mul]

theorem total_eq_sum {S : SortedSet σ} (within : ∀ x ∈ f.domain, x ∈ S) :
    f.total = ∑ x ∈ S.toFinset, f.payoff x := by
  have ones := (total_map_mul f fun _ => 1).trans (sum_payoff_of_subset within _)
  simp only [mul_one] at ones
  exact ones

end Table

namespace Gamble

variable {f : Gamble σ} {S : SortedSet σ} {row : Row}

theorem domain_neg (f : Gamble σ) : (-f).domain = f.domain := Table.domain_map _ _

theorem domain_scale (c : ℚ) (f : Gamble σ) : (f.scale c).domain = f.domain := Table.domain_map _ _

theorem domain_shift (c : ℚ) (f : Gamble σ) : (f.shift c).domain = f.domain := Table.domain_map _ _

theorem domain_add (f g : Gamble σ) : (f + g).domain = f.domain ∪ g.domain := Table.domain_tabulate _ _

theorem domain_add_of_eq {f g : Gamble σ} (same : g.domain = f.domain) : (f + g).domain = f.domain := by
  refine SortedSet.ext fun x => ?_
  rw [domain_add, same, SortedSet.mem_union, or_self]

theorem domain_restrict (f : Gamble σ) (S : SortedSet σ) : (f.restrict S).domain = S :=
  Table.domain_tabulate _ _

theorem domain_indicator (S : SortedSet σ) : (indicator S).domain = S := Table.domain_tabulate _ _

theorem payoff_restrict {x : σ} : (f.restrict S).payoff x = if x ∈ S then f.payoff x else 0 :=
  Table.payoff_restrict

theorem payoff_shift (c : ℚ) (f : Gamble σ) (x : σ) :
    (f.shift c).payoff x = if x ∈ f.domain then f.payoff x + c else 0 := by
  split
  · rename_i hx
    exact Table.payoff_map_of_mem (· + c) hx
  · rename_i out
    rw [← domain_shift c] at out
    exact Table.payoff_eq_zero out

theorem mem_support {x : σ} : x ∈ f.support ↔ f.payoff x ≠ 0 := by
  rw [support, Table.support, SortedMap.mem_keys, payoff, Table.payoff]
  simp only [SortedMap.get?_filter, Option.filter_eq_some_iff]
  cases f.table.get? x <;> simp

theorem mem_values {a : ℚ} : a ∈ f.values ↔ ∃ x ∈ f.domain, f.payoff x = a := by
  constructor
  · intro ha
    obtain ⟨e, he, rfl⟩ := List.mem_map.1 ha
    exact ⟨e.1, Table.mem_domain.2 ⟨e.2, he⟩, Table.payoff_of_mem he⟩
  · rintro ⟨x, hx, rfl⟩
    obtain ⟨v, hv⟩ := Table.mem_domain.1 hx
    rw [payoff, Table.payoff_of_mem hv]
    exact List.mem_map_of_mem hv

theorem nonneg_of_payoff (h : ∀ x, 0 ≤ f.payoff x) : ∀ v ∈ f.values, 0 ≤ v := fun v hv => by
  obtain ⟨x, -, rfl⟩ := mem_values.1 hv
  exact h x

theorem payoff_nonneg_of_values (nonneg : ∀ v ∈ f.values, 0 ≤ v) (x : σ) : 0 ≤ f.payoff x := by
  by_cases hx : x ∈ f.domain
  · exact nonneg _ (mem_values.2 ⟨x, hx, rfl⟩)
  · exact (Table.payoff_eq_zero hx).ge

theorem isZero_iff : f.isZero = true ↔ f.payoff = 0 := by
  rw [isZero, Row.isZero_iff]
  refine ⟨fun zero => funext fun x => ?_, fun zero v hv => ?_⟩
  · by_cases hx : x ∈ f.domain
    · exact zero _ (mem_values.2 ⟨x, hx, rfl⟩)
    · exact Table.payoff_eq_zero hx
  · obtain ⟨x, -, rfl⟩ := mem_values.1 hv
    exact congrFun zero x

theorem norm_eq_zero_iff : f.norm = 0 ↔ f.payoff = 0 := Row.norm_eq_zero_iff.trans isZero_iff

/-- Gambles on one domain that pay the same are equal. -/
theorem ext_payoff {g : Gamble σ} (domain : f.domain = g.domain) (payoff : f.payoff = g.payoff) : f = g :=
  table_injective (Table.ext_payoff domain fun x _ => congrFun payoff x)

/-- The entries of a row, given on as many states. -/
theorem toList_ofList_zip (width : row.length = S.size) :
    (ofList (S.toList.zip row)).table.toList = S.toList.zip row := by
  have keys := S.sorted
  have first : (S.toList.zip row).map Prod.fst = S.toList := List.map_fst_zip width.ge
  rw [← first] at keys
  exact SortedMap.toList_ofList (List.pairwise_map.1 keys)

theorem values_ofList_zip (width : row.length = S.size) : (ofList (S.toList.zip row)).values = row := by
  rw [values, SortedMap.values, toList_ofList_zip width]
  exact List.map_snd_zip width.le

theorem domain_ofList_zip (width : row.length = S.size) : (ofList (S.toList.zip row)).domain = S := by
  refine SortedSet.toList_injective ?_
  show (ofList (S.toList.zip row)).table.toList.map Prod.fst = S.toList
  rw [toList_ofList_zip width]
  exact List.map_fst_zip width.ge

theorem payoff_ofList_zip (width : row.length = S.size) {i : ℕ} (hi : i < S.toList.length) :
    (ofList (S.toList.zip row)).payoff S.toList[i] = Row.entry row i := by
  have hi' : i < row.length := width ▸ hi
  refine Table.payoff_of_mem ?_
  rw [toList_ofList_zip width, Row.entry_eq_getElem hi', ← List.getElem_zip (h := by simpa using ⟨hi, hi'⟩)]
  exact List.getElem_mem _

theorem payoff_indicator {x : σ} : (indicator S).payoff x = if x ∈ S then 1 else 0 := Table.payoff_tabulate

theorem payoff_indicator_nonneg (S : SortedSet σ) : 0 ≤ (indicator S).payoff := fun x => by
  rw [payoff_indicator]
  split
  · exact zero_le_one
  · exact le_rfl

theorem norm_indicator (event : S.isEmpty = false) : (indicator S).norm = 1 := by
  obtain ⟨x, hx⟩ := SortedSet.isEmpty_eq_false_iff.1 event
  have values : (indicator S).values = S.toList.map fun _ => 1 := List.map_map
  rw [norm, values]
  refine Row.norm_eq_one (List.ne_nil_of_mem (List.mem_map_of_mem hx)) fun v hv => ?_
  obtain ⟨-, -, rfl⟩ := List.mem_map.1 hv
  rfl

end Gamble

namespace Ray

variable {r : Ray σ} {f : Gamble σ} {x : σ}

theorem payoff_eq_zero (h : x ∉ r.domain) : r.payoff x = 0 := Table.payoff_eq_zero h

theorem mem_domain : x ∈ r.domain ↔ r.payoff x ≠ 0 := by
  refine ⟨fun h => ?_, fun ne => not_not.1 fun out => ne (payoff_eq_zero out)⟩
  obtain ⟨v, hv⟩ := Table.mem_domain.1 h
  rw [show r.payoff x = v from Table.payoff_of_mem hv]
  exact r.ne_zero v (List.mem_map_of_mem hv)

/-- A gamble that is not zero has a direction, of the same payoffs over its norm. -/
theorem exists_ofGamble (h : f.norm ≠ 0) :
    ∃ r, ofGamble f = .ok r ∧ ∀ x, r.payoff x = f.norm⁻¹ * f.payoff x := by
  rw [ofGamble, dif_neg h]
  refine ⟨_, rfl, fun x => ?_⟩
  exact (Table.payoff_trimmed (f := (f.scale f.norm⁻¹).table)).trans (Gamble.payoff_scale _ f x)

theorem payoff_ne_zero_of_ofGamble (direction : ofGamble f = .ok r) : f.payoff ≠ 0 := by
  intro zero
  rw [ofGamble, dif_pos (Gamble.norm_eq_zero_iff.2 zero)] at direction
  cases direction

/-- The direction of a gamble is parallel to it. -/
theorem exists_parallel (ne : f.payoff ≠ 0) : ∃ r, ofGamble f = .ok r ∧ Parallel f.payoff r.payoff := by
  have norm : f.norm ≠ 0 := fun zero => ne (Gamble.norm_eq_zero_iff.1 zero)
  obtain ⟨r, direction, payoff⟩ := exists_ofGamble norm
  refine ⟨r, direction, f.norm, f.norm_nonneg.lt_of_ne' norm, ?_⟩
  rw [show r.payoff = f.norm⁻¹ • f.payoff from funext payoff, smul_inv_smul₀ norm]

/-- The direction of an indicator is the indicator. -/
theorem exists_indicator {S : SortedSet σ} (event : S.isEmpty = false) :
    ∃ r, indicator S = .ok r ∧ r.payoff = (Gamble.indicator S).payoff := by
  have norm := Gamble.norm_indicator event
  obtain ⟨r, direction, payoff⟩ := exists_ofGamble (norm ▸ one_ne_zero)
  refine ⟨r, direction, funext fun x => ?_⟩
  rw [payoff, norm, inv_one, one_mul]

/-- A ray has a payoff somewhere, since its norm is one. -/
theorem exists_mem_domain (r : Ray σ) : ∃ x, x ∈ r.domain := by
  have ne : r.gamble.table.toList ≠ [] := fun none => by
    have norm := r.norm_eq_one
    rw [Gamble.norm, Gamble.values, SortedMap.values, none] at norm
    exact absurd norm (show (0 : ℚ) ≠ 1 by decide)
  obtain ⟨e, rest, shape⟩ := List.exists_cons_of_ne_nil ne
  exact ⟨e.1, Table.mem_domain.2 ⟨e.2, shape ▸ List.mem_cons_self⟩⟩

theorem payoff_ne_zero (r : Ray σ) : r.payoff ≠ 0 := fun zero => by
  obtain ⟨x, hx⟩ := r.exists_mem_domain
  exact mem_domain.1 hx (congrFun zero x)

end Ray

namespace DesirabilitySet

variable {D : DesirabilitySet σ} {r : Ray σ} {x : σ}

theorem mem_generators : r ∈ D.generators ↔ ∃ C ∈ D.cones, r ∈ C.rays := SortedSet.mem_flatMap

theorem mem_domain : x ∈ D.domain ↔ ∃ r ∈ D.generators, x ∈ r.domain := by
  simp only [domain, Cone.domain, generators, SortedSet.mem_flatMap, SortedSet.mem_toList]
  constructor
  · rintro ⟨C, hC, r, hr, hx⟩
    exact ⟨r, ⟨C, hC, hr⟩, hx⟩
  · rintro ⟨r, ⟨C, hC, hr⟩, hx⟩
    exact ⟨C, hC, r, hr, hx⟩

theorem payoff_eq_zero (hr : r ∈ D.generators) (h : x ∉ D.domain) : r.payoff x = 0 :=
  Ray.payoff_eq_zero fun inside => h (mem_domain.2 ⟨r, hr, inside⟩)

theorem mem_cones_insert {A C : Cone σ} :
    C ∈ (D.insert A).cones ↔ C ∈ D.cones ∨ C = A ∧ A.isEmpty = false := by
  rw [insert]
  split
  · rename_i empty
    simp [empty]
  · rename_i rays
    rw [SortedSet.mem_insert, or_comm, and_iff_left (Bool.eq_false_iff.2 rays)]

theorem mem_cones_insertAll {Cs : List (Cone σ)} {C : Cone σ} :
    C ∈ (D.insertAll Cs).cones ↔ C ∈ D.cones ∨ C ∈ Cs ∧ C.isEmpty = false := by
  rw [insertAll]
  induction Cs generalizing D with
  | nil => simp
  | cons A Cs ih =>
    rw [List.foldl_cons, ih, mem_cones_insert, List.mem_cons, or_assoc, or_and_right]
    refine or_congr_right (or_congr_left (and_congr_right fun same => ?_))
    rw [same]

theorem mem_cones_ofCones {Cs : List (Cone σ)} {C : Cone σ} :
    C ∈ (ofCones Cs).cones ↔ C ∈ Cs ∧ C.isEmpty = false :=
  mem_cones_insertAll.trans (or_iff_right SortedSet.not_mem_empty)

/-- The cones of complete ignorance are those of the indicators of single states. -/
theorem mem_cones_vacuous {event : SortedSet σ} {C : Cone σ} :
    C ∈ (vacuous event).cones ↔ ∃ x ∈ event, C = .singleton (.unit x) := by
  rw [vacuous, mem_cones_ofCones, List.mem_map]
  constructor
  · rintro ⟨⟨x, hx, rfl⟩, -⟩
    exact ⟨x, hx, rfl⟩
  · rintro ⟨x, hx, rfl⟩
    exact ⟨⟨x, hx, rfl⟩, rfl⟩

/-- A set with cones has rays, since no cone is without. -/
theorem isEmpty_iff_no_generator : D.cones.isEmpty = true ↔ ∀ r, r ∉ D.generators := by
  rw [SortedSet.eq_empty_iff]
  constructor
  · intro none r hr
    obtain ⟨C, hC, -⟩ := mem_generators.1 hr
    exact none C hC
  · intro none C hC
    obtain ⟨r, hr⟩ := SortedSet.isEmpty_eq_false_iff.1 (D.nonempty C hC)
    exact none r (mem_generators.2 ⟨C, hC, hr⟩)

theorem exists_generator (assessed : D.cones.isEmpty = false) : ∃ r, r ∈ D.generators := by
  rwa [← Bool.not_eq_true, isEmpty_iff_no_generator, not_forall_not] at assessed

theorem exists_mem_domain (assessed : D.cones.isEmpty = false) : ∃ x, x ∈ D.domain := by
  obtain ⟨r, hr⟩ := exists_generator assessed
  obtain ⟨x, hx⟩ := r.exists_mem_domain
  exact ⟨x, mem_domain.2 ⟨r, hr, hx⟩⟩

theorem possibilitySpace_eq (assessed : D.cones.isEmpty = false) : D.possibilitySpace = .ok D.domain := by
  rw [possibilitySpace, assessed, if_neg Bool.false_ne_true]

theorem mem_generators_insert {s : Ray σ} :
    r ∈ (D.insert (.singleton s)).generators ↔ r = s ∨ r ∈ D.generators := by
  have rays : ¬(Cone.singleton s).isEmpty = true := Bool.false_ne_true
  simp only [mem_generators, insert, dif_neg rays, SortedSet.mem_insert, or_and_right, exists_or,
    exists_eq_left]
  exact or_congr_left SortedSet.mem_singleton

theorem mem_generators_foldlM {fs : List (Gamble σ)} (h : ∀ f ∈ fs, f.norm ≠ 0) :
    ∃ D', fs.foldlM insertGamble D = .ok D' ∧
      ∀ r, r ∈ D'.generators ↔ r ∈ D.generators ∨ ∃ f ∈ fs, Ray.ofGamble f = .ok r := by
  induction fs generalizing D with
  | nil => exact ⟨D, rfl, fun r => by simp⟩
  | cons f fs ih =>
    obtain ⟨s, hs, -⟩ := Ray.exists_ofGamble (h f List.mem_cons_self)
    obtain ⟨D', done, rays⟩ := ih (D := D.insert (.singleton s)) fun g hg => h g (List.mem_cons_of_mem _ hg)
    refine ⟨D', ?_, fun r => ?_⟩
    · rw [List.foldlM_cons, insertGamble, hs]
      exact done
    · rw [rays, mem_generators_insert, List.exists_mem_cons_iff, hs, Except.ok.injEq,
        eq_comm (a := r), or_assoc, or_left_comm]

/-- The generators of the set of some gambles are their directions. -/
theorem exists_ofGambles {fs : List (Gamble σ)} (h : ∀ f ∈ fs, f.norm ≠ 0) :
    ∃ D : DesirabilitySet σ, ofGambles fs = .ok D ∧
      ∀ r, r ∈ D.generators ↔ ∃ f ∈ fs, Ray.ofGamble f = .ok r := by
  obtain ⟨D, done, rays⟩ := mem_generators_foldlM (D := empty) h
  refine ⟨D, done, fun r => (rays r).trans (or_iff_right fun hr => ?_)⟩
  obtain ⟨C, hC, -⟩ := mem_generators.1 hr
  exact SortedSet.not_mem_empty hC

end DesirabilitySet

end Prevision
