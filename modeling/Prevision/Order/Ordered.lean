/-!
# Lawful total orders

Every set and map of the library lists its members in the order of their
type. `Ordered` is that order together with what the listings rest on: it is
transitive, and only equal values compare as equal.

Numbers and texts have their usual orders, texts by code point. Pairs and
lists compare lexicographically, and a list that begins another is the
smaller of the two.
-/

namespace Prevision

/-- A total order that tells unequal values apart. -/
class Ordered (α : Type) extends Ord α, Std.TransOrd α, Std.LawfulEqOrd α

namespace Ordered

variable {α β : Type}

instance : Ordered Nat where
  toOrd := instOrdNat
  toTransCmp := inferInstance
  toLawfulEqCmp := inferInstance

instance : Ordered Int where
  toOrd := instOrdInt
  toTransCmp := inferInstance
  toLawfulEqCmp := inferInstance

instance : Ordered String where
  toOrd := String.instOrd
  toTransCmp := inferInstance
  toLawfulEqCmp := inferInstance

instance [Ordered α] [Ordered β] : Ordered (α × β) where
  toOrd := lexOrd
  toTransCmp := inferInstance
  toLawfulEqCmp := inferInstance

instance [Ordered α] : Ordered (List α) where
  toOrd := List.instOrd
  toTransCmp := inferInstance
  toLawfulEqCmp := inferInstance

/-- The order that a type takes from another through a map that keeps values apart. -/
@[reducible] def lift [Ordered β] (f : α → β) (injective : ∀ {a b}, f a = f b → a = b) :
    Ordered α where
  compare a b := compare (f a) (f b)
  eq_swap {a b} := show compare (f a) (f b) = (compare (f b) (f a)).swap from
    Std.OrientedCmp.eq_swap
  isLE_trans {a b c} := show (compare (f a) (f b)).isLE → (compare (f b) (f c)).isLE →
    (compare (f a) (f c)).isLE from Std.TransCmp.isLE_trans
  compare_self {a} := show compare (f a) (f a) = .eq from Std.ReflCmp.compare_self
  eq_of_compare h := injective (Std.LawfulEqCmp.eq_of_compare h)

theorem rat_eq_swap (a b : Rat) : compareOfLessAndEq a b = (compareOfLessAndEq b a).swap := by
  unfold compareOfLessAndEq
  by_cases lt : a < b
  · rw [if_pos lt, if_neg (by grind), if_neg (by grind)]
    rfl
  · by_cases eq : a = b
    · rw [if_neg lt, if_pos eq, if_neg (by grind), if_pos eq.symm]
      rfl
    · rw [if_neg lt, if_neg eq, if_pos (by grind)]
      rfl

/-- Rationals in numeric order. -/
instance : Ordered Rat where
  compare a b := compareOfLessAndEq a b
  eq_swap {a b} := rat_eq_swap a b
  isLE_trans {a b c} h h' := by
    simp only [compareOfLessAndEq] at *
    grind [Ordering.isLE]
  compare_self {a} := by
    rw [compareOfLessAndEq, if_neg Rat.lt_irrefl, if_pos rfl]
  eq_of_compare {a b} h := by
    simp only [compareOfLessAndEq] at h
    grind

theorem compare_eq_iff [Ordered α] {a b : α} : compare a b = .eq ↔ a = b :=
  ⟨Std.LawfulEqCmp.eq_of_compare, fun h => h ▸ Std.ReflCmp.compare_self⟩

theorem lt_trans [Ordered α] {a b c : α} (hab : compare a b = .lt) (hbc : compare b c = .lt) :
    compare a c = .lt := Std.TransCmp.lt_trans hab hbc

theorem lt_of_gt [Ordered α] {a b : α} (h : compare a b = .gt) : compare b a = .lt :=
  Std.OrientedCmp.lt_of_gt h

theorem ne_of_lt [Ordered α] {a b : α} (h : compare a b = .lt) : a ≠ b := by
  rintro rfl
  simp at h

end Ordered

end Prevision
