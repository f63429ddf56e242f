import Mathlib.Algebra.BigOperators.Fin
import Mathlib.Algebra.Order.Field.Rat
import Prevision.Order.SortedMap

/-!
# Listings

A sorted set as a finite set, to sum over its members, and a sorted map read
back from its entries.

* `SortedSet.sum_toFinset`, `SortedSet.sum_eq_sum_nth`: a sum over the members is that over the listing;
* `SortedSet.mem_inter`, `SortedSet.sum_inter`: the members of two sets;
* `SortedMap.toList_ofList`: entries that are in order already are listed as they are.
-/

namespace Prevision

namespace SortedSet

variable {α : Type} [Ordered α] {s t : SortedSet α} {a : α}

/-- The members of a sorted set as a finite set. -/
def toFinset (s : SortedSet α) : Finset α := ⟨s.toList, s.nodup⟩

@[simp] theorem mem_toFinset : a ∈ s.toFinset ↔ a ∈ s := Iff.rfl

theorem sum_toFinset (s : SortedSet α) (f : α → ℚ) : ∑ x ∈ s.toFinset, f x = (s.toList.map f).sum := rfl

theorem toFinset_subset : s.toFinset ⊆ t.toFinset ↔ ∀ a ∈ s, a ∈ t := Iff.rfl

theorem eq_empty_iff : s.isEmpty = true ↔ ∀ a, a ∉ s := by
  rw [isEmpty, List.isEmpty_iff, List.eq_nil_iff_forall_not_mem]
  exact Iff.rfl

theorem isEmpty_eq_false_iff : s.isEmpty = false ↔ ∃ a, a ∈ s := by
  rw [← Bool.not_eq_true, eq_empty_iff, not_forall_not]

/-- The members of both. -/
instance : Inter (SortedSet α) := ⟨fun s t => s.filter t.contains⟩

@[simp] theorem mem_inter : a ∈ s ∩ t ↔ a ∈ s ∧ a ∈ t :=
  mem_filter.trans (and_congr_right fun _ => contains_iff)

theorem sum_inter (s t : SortedSet α) (f : α → ℚ) :
    ∑ x ∈ (s ∩ t).toFinset, f x = ∑ x ∈ t.toFinset, if x ∈ s then f x else 0 := by
  rw [← Finset.sum_filter]
  refine Finset.sum_congr (Finset.ext fun x => ?_) fun _ _ => rfl
  rw [mem_toFinset, mem_inter, Finset.mem_filter, mem_toFinset, and_comm]

/-- The member at a position. -/
def nth (s : SortedSet α) (i : Fin s.size) : α := s.toList.get i

theorem nth_mem (s : SortedSet α) (i : Fin s.size) : s.nth i ∈ s := List.get_mem s.toList i

theorem exists_nth (ha : a ∈ s) : ∃ i, s.nth i = a := List.get_of_mem ha

theorem nth_injective (s : SortedSet α) : Function.Injective s.nth := List.nodup_iff_injective_get.1 s.nodup

theorem sum_eq_sum_nth (s : SortedSet α) (f : α → ℚ) : ∑ x ∈ s.toFinset, f x = ∑ i, f (s.nth i) :=
  (Fin.sum_univ_fun_getElem s.toList f).symm

end SortedSet

namespace SortedMap

variable {κ α : Type} [Ordered κ]

theorem place_of_lt {k : κ} {v : α} {l : List (κ × α)} (last : ∀ e ∈ l, compare e.1 k = .lt) :
    place k v l = l ++ [(k, v)] := by
  induction l with
  | nil => rfl
  | cons e l ih =>
    have after : compare k e.1 = .gt := Std.OrientedCmp.gt_of_lt (last e List.mem_cons_self)
    rw [place, after]
    exact congrArg (e :: ·) (ih fun e' he => last e' (List.mem_cons_of_mem _ he))

theorem toList_foldl_insert {l : List (κ × α)} {f : SortedMap κ α}
    (sorted : (f.toList ++ l).Pairwise fun a b => compare a.1 b.1 = .lt) :
    (l.foldl (fun f e => f.insert e.1 e.2) f).toList = f.toList ++ l := by
  induction l generalizing f with
  | nil => exact (List.append_nil _).symm
  | cons e l ih =>
    have last : ∀ a ∈ f.toList, compare a.1 e.1 = .lt := fun a ha =>
      (List.pairwise_append.1 sorted).2.2 a ha e List.mem_cons_self
    have placed : (f.insert e.1 e.2).toList = f.toList ++ [e] := place_of_lt last
    rw [List.foldl_cons, ih (by rwa [placed, List.append_assoc]), placed, List.append_assoc]
    rfl

/-- Entries in order of their keys are the entries of their map. -/
theorem toList_ofList {l : List (κ × α)} (sorted : l.Pairwise fun a b => compare a.1 b.1 = .lt) :
    (ofList l).toList = l := toList_foldl_insert sorted

end SortedMap

end Prevision
