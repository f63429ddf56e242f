import Prevision.Order.Ordered

/-!
# Sorted finite sets

A finite set over an ordered type, held as its strictly increasing list. The
list is the only form a set has, so two sets with the same members are equal
(`SortedSet.ext`), and every listing of a set has one order.

* `mem_insert`, `mem_erase`, `mem_union`, `mem_ofList` and `mem_flatMap` say
  what each operation does to the members.
* `contains_iff` says that the test agrees with membership.
-/

namespace Prevision

/-- A finite set, as the strictly increasing list of its members. -/
structure SortedSet (α : Type) [Ordered α] where
  toList : List α
  sorted : toList.Pairwise fun a b => compare a b = .lt

namespace SortedSet

variable {α β : Type} [Ordered α]

theorem toList_injective {s t : SortedSet α} (h : s.toList = t.toList) : s = t := by
  cases s; cases t; cases h; rfl

instance [DecidableEq α] : DecidableEq (SortedSet α) := fun s t =>
  if h : s.toList = t.toList then isTrue (toList_injective h) else isFalse fun e => h (e ▸ rfl)

/-- Sets compare by their listings. -/
instance : Ordered (SortedSet α) := .lift toList toList_injective

instance : Membership α (SortedSet α) := ⟨fun s a => a ∈ s.toList⟩

/-- The set without members. -/
def empty : SortedSet α := ⟨[], .nil⟩

instance : EmptyCollection (SortedSet α) := ⟨empty⟩

instance : Inhabited (SortedSet α) := ⟨empty⟩

/-- The set with one member. -/
def singleton (a : α) : SortedSet α := ⟨[a], List.pairwise_singleton _ _⟩

/-- The number of members. -/
def size (s : SortedSet α) : Nat := s.toList.length

/-- Whether there is no member. -/
def isEmpty (s : SortedSet α) : Bool := s.toList.isEmpty

/-- Whether `a` is a member. -/
def contains (s : SortedSet α) (a : α) : Bool := s.toList.any fun b => compare a b == .eq

/-- The members that pass a test. -/
def filter (p : α → Bool) (s : SortedSet α) : SortedSet α :=
  ⟨s.toList.filter p, s.sorted.filter p⟩

/-- The set without `a`. -/
def erase (s : SortedSet α) (a : α) : SortedSet α := s.filter fun b => compare a b != .eq

/-- Places `a` in an increasing list that may hold it already. -/
def place (a : α) : List α → List α
  | [] => [a]
  | b :: rest =>
    match compare a b with
    | .lt => a :: b :: rest
    | .eq => b :: rest
    | .gt => b :: place a rest

theorem mem_place {a x : α} {l : List α} : x ∈ place a l ↔ x = a ∨ x ∈ l := by
  induction l with
  | nil => simp [place]
  | cons b rest ih =>
    simp only [place]
    split
    · simp
    · rename_i h
      simp [Ordered.compare_eq_iff.1 h]
    · simp [ih, or_left_comm]

theorem place_sorted (a : α) {l : List α} (h : l.Pairwise fun a b => compare a b = .lt) :
    (place a l).Pairwise fun a b => compare a b = .lt := by
  induction l with
  | nil => simp [place]
  | cons b rest ih =>
    have hb := List.pairwise_cons.1 h
    simp only [place]
    split
    · rename_i hab
      refine List.pairwise_cons.2 ⟨fun c hc => ?_, h⟩
      rcases List.mem_cons.1 hc with rfl | hc
      · exact hab
      · exact Ordered.lt_trans hab (hb.1 c hc)
    · exact h
    · rename_i hab
      refine List.pairwise_cons.2 ⟨fun c hc => ?_, ih hb.2⟩
      rcases mem_place.1 hc with rfl | hc
      · exact Ordered.lt_of_gt hab
      · exact hb.1 c hc

/-- The set with `a` as a member. -/
def insert (s : SortedSet α) (a : α) : SortedSet α := ⟨place a s.toList, place_sorted a s.sorted⟩

/-- The set of the members of a list, in any order and with any repeats. -/
def ofList (l : List α) : SortedSet α := l.foldl insert ∅

/-- The members of either set. -/
def union (s t : SortedSet α) : SortedSet α := t.toList.foldl insert s

instance : Union (SortedSet α) := ⟨union⟩

/-- The union of the sets that `f` gives for the members of a list. -/
def flatMap (l : List β) (f : β → SortedSet α) : SortedSet α := l.foldl (fun s b => s ∪ f b) ∅

@[simp] theorem mem_toList {a : α} {s : SortedSet α} : a ∈ s.toList ↔ a ∈ s := .rfl

@[simp] theorem not_mem_empty {a : α} : ¬a ∈ (∅ : SortedSet α) := List.not_mem_nil

@[simp] theorem mem_singleton {a b : α} : a ∈ singleton b ↔ a = b := List.mem_singleton

@[simp] theorem mem_insert {a x : α} {s : SortedSet α} : x ∈ s.insert a ↔ x = a ∨ x ∈ s :=
  mem_place

@[simp] theorem mem_filter {p : α → Bool} {a : α} {s : SortedSet α} :
    a ∈ s.filter p ↔ a ∈ s ∧ p a = true := List.mem_filter

@[simp] theorem contains_iff {a : α} {s : SortedSet α} : s.contains a = true ↔ a ∈ s := by
  simp only [contains, List.any_eq_true, beq_iff_eq, Ordered.compare_eq_iff]
  exact ⟨fun ⟨b, hb, e⟩ => e ▸ hb, fun h => ⟨a, h, rfl⟩⟩

instance (a : α) (s : SortedSet α) : Decidable (a ∈ s) := decidable_of_iff _ contains_iff

@[simp] theorem mem_erase {a x : α} {s : SortedSet α} : x ∈ s.erase a ↔ x ∈ s ∧ x ≠ a := by
  simp [erase, @eq_comm _ x]

theorem mem_foldl_insert {x : α} {l : List α} {s : SortedSet α} :
    x ∈ l.foldl insert s ↔ x ∈ s ∨ x ∈ l := by
  induction l generalizing s with
  | nil => simp
  | cons b rest ih =>
    rw [List.foldl_cons, ih, mem_insert, List.mem_cons, or_left_comm, ← or_assoc]

@[simp] theorem mem_ofList {x : α} {l : List α} : x ∈ ofList l ↔ x ∈ l := by
  simp [ofList, mem_foldl_insert]

@[simp] theorem mem_union {x : α} {s t : SortedSet α} : x ∈ s ∪ t ↔ x ∈ s ∨ x ∈ t :=
  mem_foldl_insert

theorem mem_foldl_union {x : α} {l : List β} {f : β → SortedSet α} {s : SortedSet α} :
    x ∈ l.foldl (fun s b => s ∪ f b) s ↔ x ∈ s ∨ ∃ b ∈ l, x ∈ f b := by
  induction l generalizing s with
  | nil => simp
  | cons b rest ih => simp [ih, or_assoc]

@[simp] theorem mem_flatMap {x : α} {l : List β} {f : β → SortedSet α} :
    x ∈ flatMap l f ↔ ∃ b ∈ l, x ∈ f b := by
  simp [flatMap, mem_foldl_union]

theorem nodup (s : SortedSet α) : s.toList.Nodup := s.sorted.imp Ordered.ne_of_lt

/-- Sets with the same members are equal. -/
theorem ext {s t : SortedSet α} (h : ∀ a, a ∈ s ↔ a ∈ t) : s = t :=
  toList_injective <| List.Perm.eq_of_pairwise
    (fun _ _ _ _ hab hba => absurd rfl (Ordered.ne_of_lt (Ordered.lt_trans hab hba)))
    s.sorted t.sorted ((List.perm_ext_iff_of_nodup s.nodup t.nodup).2 h)

end SortedSet

end Prevision
