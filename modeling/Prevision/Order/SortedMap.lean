import Prevision.Order.SortedSet

/-!
# Sorted finite maps

A map from finitely many keys to values, held as its list of entries in
strictly increasing key order. Two maps that give every key the same value
are equal (`SortedMap.ext`).

* `get?_insert`, `get?_erase`, `get?_map` and `get?_tabulate` say what each
  operation does to the values.
* `mem_keys` says that the keys are the places where there is a value.
-/

namespace Prevision

/-- A finite map, as its entries in strictly increasing key order. -/
structure SortedMap (κ α : Type) [Ordered κ] where
  toList : List (κ × α)
  sorted : toList.Pairwise fun a b => compare a.1 b.1 = .lt

namespace SortedMap

variable {κ α β : Type} [Ordered κ]

theorem toList_injective {f g : SortedMap κ α} (h : f.toList = g.toList) : f = g := by
  cases f; cases g; cases h; rfl

instance [DecidableEq κ] [DecidableEq α] : DecidableEq (SortedMap κ α) := fun f g =>
  if h : f.toList = g.toList then isTrue (toList_injective h) else isFalse fun e => h (e ▸ rfl)

/-- Maps compare by their entries, the key before the value. -/
instance [Ordered α] : Ordered (SortedMap κ α) := .lift toList toList_injective

/-- The map without entries. -/
def empty : SortedMap κ α := ⟨[], .nil⟩

instance : EmptyCollection (SortedMap κ α) := ⟨empty⟩

instance : Inhabited (SortedMap κ α) := ⟨empty⟩

/-- The number of entries. -/
def size (f : SortedMap κ α) : Nat := f.toList.length

/-- Whether there is no entry. -/
def isEmpty (f : SortedMap κ α) : Bool := f.toList.isEmpty

/-- The keys that have a value. -/
def keys (f : SortedMap κ α) : SortedSet κ := ⟨f.toList.map Prod.fst, List.pairwise_map.2 f.sorted⟩

/-- The values, in key order. -/
def values (f : SortedMap κ α) : List α := f.toList.map Prod.snd

/-- The value at `k`. -/
def get? (f : SortedMap κ α) (k : κ) : Option α :=
  (f.toList.find? fun e => compare k e.1 == .eq).map Prod.snd

/-- Whether `k` has a value. -/
def contains (f : SortedMap κ α) (k : κ) : Bool := (f.get? k).isSome

/-- Applies `op` to every value. -/
def map (op : α → β) (f : SortedMap κ α) : SortedMap κ β :=
  ⟨f.toList.map fun e => (e.1, op e.2), List.pairwise_map.2 f.sorted⟩

/-- The entries whose value passes a test. -/
def filter (p : α → Bool) (f : SortedMap κ α) : SortedMap κ α :=
  ⟨f.toList.filter fun e => p e.2, f.sorted.filter _⟩

/-- The map without the entry of `k`. -/
def erase (f : SortedMap κ α) (k : κ) : SortedMap κ α :=
  ⟨f.toList.filter fun e => compare k e.1 != .eq, f.sorted.filter _⟩

/-- The map with the given keys whose values `f` computes. -/
def tabulate (keys : SortedSet κ) (f : κ → α) : SortedMap κ α :=
  ⟨keys.toList.map fun k => (k, f k), List.pairwise_map.2 keys.sorted⟩

/-- Places an entry in an increasing list, over the entry of the same key. -/
def place (k : κ) (v : α) : List (κ × α) → List (κ × α)
  | [] => [(k, v)]
  | e :: rest =>
    match compare k e.1 with
    | .lt => (k, v) :: e :: rest
    | .eq => (k, v) :: rest
    | .gt => e :: place k v rest

theorem key_of_mem_place {k : κ} {v : α} {e : κ × α} {l : List (κ × α)} (h : e ∈ place k v l) :
    e.1 = k ∨ e ∈ l := by
  induction l with
  | nil => simp_all [place]
  | cons b rest ih =>
    simp only [place] at h
    split at h
    · rcases List.mem_cons.1 h with rfl | h <;> simp_all
    · rcases List.mem_cons.1 h with rfl | h <;> simp_all
    · rcases List.mem_cons.1 h with rfl | h
      · simp
      · rcases ih h with h | h <;> simp [h]

theorem place_sorted (k : κ) (v : α) {l : List (κ × α)}
    (h : l.Pairwise fun a b => compare a.1 b.1 = .lt) :
    (place k v l).Pairwise fun a b => compare a.1 b.1 = .lt := by
  induction l with
  | nil => simp [place]
  | cons b rest ih =>
    have hb := List.pairwise_cons.1 h
    simp only [place]
    split
    · rename_i hab
      refine List.pairwise_cons.2 ⟨fun c hc => ?_, h⟩
      rcases List.mem_cons.1 hc with rfl | hc
      · exact hab
      · exact Ordered.lt_trans hab (hb.1 c hc)
    · rename_i hab
      exact List.pairwise_cons.2 ⟨fun c hc => Ordered.compare_eq_iff.1 hab ▸ hb.1 c hc, hb.2⟩
    · rename_i hab
      refine List.pairwise_cons.2 ⟨fun c hc => ?_, ih hb.2⟩
      rcases key_of_mem_place hc with hc | hc
      · exact hc ▸ Ordered.lt_of_gt hab
      · exact hb.1 c hc

/-- The map with value `v` at `k`. -/
def insert (f : SortedMap κ α) (k : κ) (v : α) : SortedMap κ α :=
  ⟨place k v f.toList, place_sorted k v f.sorted⟩

/-- The map of a list of entries; of several entries for a key the last holds. -/
def ofList (l : List (κ × α)) : SortedMap κ α := l.foldl (fun f e => f.insert e.1 e.2) ∅

@[simp] theorem get?_empty {k : κ} : (∅ : SortedMap κ α).get? k = none := rfl

theorem get?_eq_some {f : SortedMap κ α} {k : κ} {v : α} : f.get? k = some v ↔ (k, v) ∈ f.toList := by
  obtain ⟨l, hl⟩ := f
  simp only [get?, Option.map_eq_some_iff]
  constructor
  · rintro ⟨e, he, rfl⟩
    have := Ordered.compare_eq_iff.1 (beq_iff_eq.1 (List.find?_some he :))
    exact this ▸ List.mem_of_find?_eq_some he
  · intro h
    refine ⟨(k, v), ?_, rfl⟩
    induction l with
    | nil => simp at h
    | cons b rest ih =>
      have hb := List.pairwise_cons.1 hl
      rcases List.mem_cons.1 h with rfl | h
      · simp
      · have : (compare k b.1 == .eq) = false := by
          simpa using fun e => Ordered.ne_of_lt (hb.1 _ h) e.symm
        simp [this, ih hb.2 h]

@[simp] theorem mem_keys {f : SortedMap κ α} {k : κ} : k ∈ f.keys ↔ ∃ v, f.get? k = some v := by
  simp only [get?_eq_some]
  show k ∈ f.toList.map Prod.fst ↔ _
  simp

/-- Maps that give every key the same value are equal. -/
theorem ext {f g : SortedMap κ α} (h : ∀ k, f.get? k = g.get? k) : f = g := by
  have nodup (f : SortedMap κ α) : f.toList.Nodup :=
    f.sorted.imp fun {a b} hab (e : a = b) => Ordered.ne_of_lt hab (e ▸ rfl)
  refine toList_injective <| List.Perm.eq_of_pairwise
    (fun _ _ _ _ hab hba => absurd rfl (Ordered.ne_of_lt (Ordered.lt_trans hab hba)))
    f.sorted g.sorted ((List.perm_ext_iff_of_nodup (nodup f) (nodup g)).2 fun e => ?_)
  rw [← get?_eq_some, ← get?_eq_some, h]

@[simp] theorem get?_map {op : α → β} {f : SortedMap κ α} {k : κ} :
    (f.map op).get? k = (f.get? k).map op := by
  simp only [get?, map, List.find?_map, Option.map_map]
  rfl

@[simp] theorem get?_tabulate {keys : SortedSet κ} {f : κ → α} {k : κ} :
    (tabulate keys f).get? k = if k ∈ keys then some (f k) else none := by
  rw [Option.ext_iff]
  intro v
  rw [get?_eq_some]
  simp only [tabulate, List.mem_map, SortedSet.mem_toList, Prod.mk.injEq]
  split <;> grind

@[simp] theorem get?_erase [DecidableEq κ] {f : SortedMap κ α} {k x : κ} :
    (f.erase k).get? x = if x = k then none else f.get? x := by
  rw [Option.ext_iff]
  intro v
  rw [get?_eq_some]
  simp only [erase, List.mem_filter, bne_iff_ne, ne_eq, Ordered.compare_eq_iff, ← get?_eq_some]
  split <;> grind

@[simp] theorem get?_filter {p : α → Bool} {f : SortedMap κ α} {k : κ} :
    (f.filter p).get? k = (f.get? k).filter p := by
  rw [Option.ext_iff]
  intro v
  rw [get?_eq_some, Option.filter_eq_some_iff]
  simp only [filter, List.mem_filter, ← get?_eq_some]

theorem mem_place {k : κ} {v : α} {e : κ × α} {l : List (κ × α)}
    (h : l.Pairwise fun a b => compare a.1 b.1 = .lt) :
    e ∈ place k v l ↔ e = (k, v) ∨ (e ∈ l ∧ e.1 ≠ k) := by
  induction l with
  | nil => simp [place]
  | cons b rest ih =>
    have hb := List.pairwise_cons.1 h
    simp only [place]
    split
    · rename_i hab
      have : ∀ e ∈ b :: rest, e.1 ≠ k := by
        intro e he
        rcases List.mem_cons.1 he with rfl | he
        · exact (Ordered.ne_of_lt hab).symm
        · exact (Ordered.ne_of_lt (Ordered.lt_trans hab (hb.1 _ he))).symm
      grind
    · rename_i hab
      have hk := Ordered.compare_eq_iff.1 hab
      have : ∀ e ∈ rest, e.1 ≠ k := fun e he => hk ▸ (Ordered.ne_of_lt (hb.1 _ he)).symm
      grind
    · rename_i hab
      have : b.1 ≠ k := Ordered.ne_of_lt (Ordered.lt_of_gt hab)
      grind

@[simp] theorem get?_insert [DecidableEq κ] {f : SortedMap κ α} {k x : κ} {v : α} :
    (f.insert k v).get? x = if x = k then some v else f.get? x := by
  rw [Option.ext_iff]
  intro w
  rw [get?_eq_some]
  simp only [insert, mem_place f.sorted, Prod.mk.injEq, ← get?_eq_some]
  split <;> grind

end SortedMap

end Prevision
