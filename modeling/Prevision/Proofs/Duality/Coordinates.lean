import Prevision.Inference.Duality
import Prevision.Proofs.Duality.Products
import Prevision.Proofs.Model.Payoffs
import Prevision.Proofs.Polyhedron.Conversion

/-!
# Rows as functions on the states

Past its first entry, a row over some states is a function on these
(`onStates`). Products with a lifted function are sums over the states
(`dot_lifted`), and the gambles that the rows of a description stand for
generate whatever the rows generate (`generated_onStates`).
-/

namespace Prevision

open Row (toVector vectors toVector_mem_vectors)

variable {σ : Type} [State σ] {S : SortedSet σ} {row : Row} {h : σ → ℚ} {c : ℚ}

/-- Functions that are zero outside a set are equal if they are equal on its members. -/
theorem SortedSet.Supports.eq_of_nth {q : σ → ℚ} (hh : S.Supports h) (hq : S.Supports q)
    (same : ∀ i, h (S.nth i) = q (S.nth i)) : h = q := by
  funext x
  by_cases hx : x ∈ S
  · obtain ⟨i, rfl⟩ := exists_nth hx
    exact same i
  · rw [hh x hx, hq x hx]

namespace Duality

open SortedSet

/-- What a vector says of the states, past its first coordinate. -/
noncomputable def onStates (S : SortedSet σ) : (Fin (S.size + 1) → ℚ) →ₗ[ℚ] (σ → ℚ) :=
  Function.ExtendByZero.linearMap ℚ S.nth ∘ₗ LinearMap.funLeft ℚ ℚ Fin.succ

theorem onStates_nth (y : Fin (S.size + 1) → ℚ) (i : Fin S.size) : onStates S y (S.nth i) = y i.succ :=
  S.nth_injective.extend_apply (y ∘ Fin.succ) (0 : σ → ℚ) i

theorem supports_onStates (y : Fin (S.size + 1) → ℚ) : S.Supports (onStates S y) := fun x out =>
  Function.extend_apply' (y ∘ Fin.succ) (0 : σ → ℚ) x fun ⟨i, e⟩ => out (e ▸ S.nth_mem i)

theorem eq_of_onStates {y z : Fin (S.size + 1) → ℚ} (first : y 0 = z 0) (rest : onStates S y = onStates S z) :
    y = z := by
  funext i
  cases i using Fin.cases with
  | zero => exact first
  | succ i => rw [← onStates_nth y i, rest, onStates_nth]

theorem onStates_toVector (row : Row) (i : Fin S.size) :
    onStates S (toVector _ row) (S.nth i) = Row.entry row (i + 1) := onStates_nth _ i

/-- The function is zero where a row without entries past the first is. -/
theorem onStates_eq_zero (zero : Row.isZero row.tail = true) : onStates S (toVector _ row) = 0 := by
  refine (supports_onStates _).eq_of_nth (fun _ _ => rfl) fun i => ?_
  rw [onStates_toVector, Pi.zero_apply]
  cases row with
  | nil => exact Row.entry_nil _
  | cons b row =>
    rw [Row.entry_cons_succ]
    rcases Nat.lt_or_ge i row.length with lt | ge
    · rw [Row.entry_eq_getElem lt]
      exact Row.isZero_iff.1 zero _ (List.getElem_mem lt)
    · exact Row.entry_of_le ge

/-! ## Lifted functions -/

@[simp] theorem length_lifted (c : ℚ) (h : σ → ℚ) (S : SortedSet σ) :
    (lifted c h S.toList).length = S.size + 1 := by
  rw [lifted, List.length_cons, List.length_map, SortedSet.size]

theorem entry_lifted_succ (c : ℚ) (h : σ → ℚ) (i : Fin S.size) :
    Row.entry (lifted c h S.toList) (i + 1) = h (S.nth i) := by
  rw [lifted, Row.entry_cons_succ, Row.entry_eq_getElem (by rw [List.length_map]; exact i.2),
    List.getElem_map]
  rfl

theorem onStates_lifted (hh : S.Supports h) (c : ℚ) : onStates S (toVector _ (lifted c h S.toList)) = h :=
  (supports_onStates _).eq_of_nth hh fun i => by rw [onStates_toVector, entry_lifted_succ]

/-- The product with a lifted function is the product of the first entries and that over the states. -/
theorem dot_lifted (c : ℚ) (h : σ → ℚ) (row : Row) :
    Row.dot (lifted c h S.toList) row = c * Row.entry row 0 + S.product h (onStates S (toVector _ row)) := by
  rw [Row.dot_eq_sum (n := S.size + 1) (length_lifted c h S).le, Finset.sum_range_succ', add_comm,
    product_apply, sum_eq_sum_nth]
  congr 1
  rw [← Fin.sum_univ_eq_sum_range fun i => Row.entry (lifted c h S.toList) (i + 1) * Row.entry row (i + 1)]
  exact Finset.sum_congr rfl fun i _ => by rw [entry_lifted_succ, onStates_toVector]

/-! ## The gambles of a description -/

/-- The gamble that a row over some states stands for. -/
theorem payoff_ofList_tail (width : row.length = S.size + 1) :
    (Gamble.ofList (S.toList.zip row.tail)).payoff = onStates S (toVector _ row) := by
  have width' : row.tail.length = S.size := by rw [List.length_tail, width, Nat.add_sub_cancel]
  have supported : S.Supports (Gamble.ofList (S.toList.zip row.tail)).payoff := fun x out =>
    Table.payoff_eq_zero fun inside => out (by rwa [← Gamble.domain_ofList_zip width'])
  refine supported.eq_of_nth (supports_onStates _) fun i => ?_
  rw [onStates_toVector, ← Row.entry_tail]
  exact Gamble.payoff_ofList_zip width' i.2

theorem mem_signedTails {tail : Row} {linear : Bool} : tail ∈ signedTails row linear ↔
    Row.isZero row.tail = false ∧ (tail = row.tail ∨ linear = true ∧ tail = Row.neg row.tail) := by
  unfold signedTails
  cases Row.isZero row.tail <;> cases linear <;> simp

variable {form : Form} {rows lines : List Row} {f : Gamble σ}

/-- The gambles of rows and lines: the tails that are not zero, those of lines with both signs. -/
theorem mem_gambles {states : List σ} : f ∈ gambles states (.ofRows form rows lines) ↔
    ∃ row, Row.isZero row.tail = false ∧
      ((row ∈ rows ∨ row ∈ lines) ∧ f = .ofList (states.zip row.tail) ∨
        row ∈ lines ∧ f = .ofList (states.zip (Row.neg row.tail))) := by
  simp only [gambles, List.mem_flatMap, List.mem_map, Prod.exists, Description.mem_flaggedRows_ofRows,
    mem_signedTails]
  constructor
  · rintro ⟨row, b, ⟨mem, rfl⟩ | ⟨mem, rfl⟩, tail, ⟨nonzero, rfl | ⟨flag, rfl⟩⟩, rfl⟩
    · exact ⟨row, nonzero, .inl ⟨.inl mem, rfl⟩⟩
    · cases flag
    · exact ⟨row, nonzero, .inl ⟨.inr mem, rfl⟩⟩
    · exact ⟨row, nonzero, .inr ⟨mem, rfl⟩⟩
  · rintro ⟨row, nonzero, ⟨mem | mem, rfl⟩ | ⟨mem, rfl⟩⟩
    · exact ⟨row, false, .inl ⟨mem, rfl⟩, _, ⟨nonzero, .inl rfl⟩, rfl⟩
    · exact ⟨row, true, .inr ⟨mem, rfl⟩, _, ⟨nonzero, .inl rfl⟩, rfl⟩
    · exact ⟨row, true, .inr ⟨mem, rfl⟩, _, ⟨nonzero, .inr ⟨rfl, rfl⟩⟩, rfl⟩

/-- What the rows and lines of a description generate, its gambles generate on the states. -/
theorem generated_onStates (form : Form) {T : Set (σ → ℚ)} {y : Fin (S.size + 1) → ℚ}
    (rayWidth : ∀ r ∈ rows, r.length = S.size + 1) (lineWidth : ∀ l ∈ lines, l.length = S.size + 1)
    (all : ∀ f ∈ gambles S.toList (.ofRows form rows lines), Generated T ⊥ f.payoff)
    (generated : Generated (vectors _ rows) (Submodule.span ℚ (vectors _ lines)) y) :
    Generated T ⊥ (onStates S y) := by
  refine generated.map_span (onStates S) ?_ ?_
  · rintro _ ⟨r, hr, rfl⟩
    cases zero : Row.isZero r.tail with
    | true =>
      rw [onStates_eq_zero zero]
      exact .zero
    | false =>
      rw [← payoff_ofList_tail (rayWidth r hr)]
      exact all _ (mem_gambles.2 ⟨r, zero, .inl ⟨.inl hr, rfl⟩⟩)
  · rintro _ ⟨l, hl, rfl⟩
    cases zero : Row.isZero l.tail with
    | true =>
      rw [onStates_eq_zero zero, neg_zero]
      exact ⟨.zero, .zero⟩
    | false =>
      rw [← map_neg, ← Row.toVector_neg, ← payoff_ofList_tail (lineWidth l hl),
        ← payoff_ofList_tail ((Row.length_neg l).trans (lineWidth l hl)), ← Row.neg_tail]
      exact ⟨all _ (mem_gambles.2 ⟨l, zero, .inl ⟨.inr hl, rfl⟩⟩),
        all _ (mem_gambles.2 ⟨l, zero, .inr ⟨hl, rfl⟩⟩)⟩

end Duality

end Prevision
