import Prevision.Proofs.Duality.Polar

/-!
# The desirable gambles of a credal set

The gambles without a negative product with a member form a cone, whose
generators are found by the enumerator; a line in it gives a gamble and its
opposite (`CredalSet.exists_toDesirabilitySetOn`). As the indicators of the
states lie in the cone, the possibility space is all of the given states
(`IsClosure.domain_eq`).
-/

namespace Prevision

open Enumeration (Generators generators_spec halfspaces)
open Description (fault?_of_no_line flaggedRows_of_no_line width_of_no_line)
open DoubleDescription (constraints mem_cone_of_no_line)
open Row (toVector vectors toVector_mem_vectors)
open Duality

variable {σ : Type} [State σ] {S : SortedSet σ} {K : CredalSet σ} {h : σ → ℚ}

/-! ## What the desirable gambles are to be -/

namespace DesirabilitySet

/-- The rays generate the gambles on some states that have no negative product with a member. -/
structure IsClosure (D : DesirabilitySet σ) (K : CredalSet σ) (S : SortedSet σ) : Prop where
  supports : ∀ r ∈ D.generators, S.Supports r.payoff
  generates : ∀ f, S.Supports f →
    (Generated D.payoffs ⊥ f ↔ ∀ p ∈ K.members, 0 ≤ S.product f p.probability)

namespace IsClosure

variable {D : DesirabilitySet σ}

theorem domain_eq (closure : D.IsClosure K S) : D.domain = S := by
  refine SortedSet.ext fun x => ⟨fun hx => ?_, fun hx => ?_⟩
  · obtain ⟨r, hr, inside⟩ := mem_domain.1 hx
    exact not_not.1 fun out => Ray.mem_domain.1 inside (closure.supports r hr x out)
  · have unit := (closure.generates _ (Ray.supports_unit hx)).2 fun p _ => by
      rw [Ray.product_unit hx]
      exact p.probability_nonneg x
    by_contra out
    have zero := supports_of_generated unit x out
    rw [Ray.payoff_unit_self] at zero
    exact one_ne_zero zero

/-- If the members are on the given states, they represent the desirable gambles. -/
theorem represents (closure : D.IsClosure K S) (supports : ∀ p ∈ K.members, S.Supports p.probability) :
    K.Represents D := by
  refine ⟨fun p hp => closure.domain_eq ▸ supports p hp, fun f => ?_⟩
  rw [Accepts, closure.domain_eq]
  constructor
  · rintro ⟨u, generated, le⟩ p hp
    have inside := supports_of_generated generated
    rw [closure.domain_eq] at inside
    exact ((closure.generates u inside).1 generated p hp).trans
      (SortedSet.product_mono p.probability_nonneg le)
  · intro products
    refine ⟨S.onlyOn f, (closure.generates _ (S.supports_onlyOn f)).2 fun p hp => ?_, fun x hx => ?_⟩
    · rw [SortedSet.product_onlyOn]
      exact products p hp
    · rw [SortedSet.onlyOn_of_mem hx]

theorem assessed (closure : D.IsClosure K S) (some_state : S.isEmpty = false) : D.cones.isEmpty = false := by
  obtain ⟨x, hx⟩ := SortedSet.isEmpty_eq_false_iff.1 some_state
  rw [← closure.domain_eq] at hx
  obtain ⟨r, hr, -⟩ := mem_domain.1 hx
  rw [← Bool.not_eq_true, isEmpty_iff_no_generator]
  exact fun none => none r hr

end IsClosure

end DesirabilitySet

/-! ## The description of the cone -/

namespace Duality

variable {row : Row} {y : Fin (S.size + 1) → ℚ}

theorem length_of_mem_span (hr : row ∈ (span K S.toList).rows) : row.length = S.size + 1 := by
  rcases List.mem_append.1 hr with member | apex
  · obtain ⟨p, -, rfl⟩ := List.mem_map.1 member
    exact length_lifted 0 p.probability S
  · rw [List.mem_singleton.1 apex, List.length_cons, Row.length_zero]
    rfl

theorem rows_span_ne_nil (K : CredalSet σ) (states : List σ) : (span K states).rows ≠ [] :=
  List.append_ne_nil_of_right_ne_nil _ (List.cons_ne_nil _ _)

theorem width_span (K : CredalSet σ) (S : SortedSet σ) : (span K S.toList).width = S.size + 1 :=
  width_of_no_line (rows_span_ne_nil K _) fun _ => length_of_mem_span

theorem fault?_span (K : CredalSet σ) (S : SortedSet σ) : (span K S.toList).fault? = none :=
  fault?_of_no_line (Nat.succ_ne_zero _) (rows_span_ne_nil K _) fun _ => length_of_mem_span

theorem constraints_span (K : CredalSet σ) (S : SortedSet σ) :
    constraints (span K S.toList) = (span K S.toList).rows.map fun row => (row, false) :=
  flaggedRows_of_no_line .generators _

/-- The constraints of the description spanned by the members. -/
def spanSpaces (K : CredalSet σ) (S : SortedSet σ) : Halfspaces (Fin (S.size + 1) → ℚ) :=
  halfspaces (S.size + 1) (constraints (span K S.toList))

theorem mem_cone_span : y ∈ (spanSpaces K S).cone (constraints (span K S.toList)).length ↔
    0 ≤ y 0 ∧ ∀ p ∈ K.members, 0 ≤ S.product p.probability (onStates S y) := by
  have member (p : Pmf σ) : Row.dot (lifted 0 p.probability S.toList) (List.ofFn y) =
      S.product p.probability (onStates S y) := by rw [dot_lifted, zero_mul, zero_add, Row.toVector_ofFn]
  have apex : Row.dot (1 :: Row.zero S.toList.length) (List.ofFn y) = y 0 := by
    rw [← Row.entry_ofFn_zero y]
    cases List.ofFn y with
    | nil => rw [Row.dot_nil_right, Row.entry_nil]
    | cons b row => rw [Row.dot_cons, Row.dot_zero, one_mul, add_zero, Row.entry_cons_zero]
  rw [spanSpaces, constraints_span, mem_cone_of_no_line]
  simp only [span, List.forall_mem_append, List.forall_mem_map, List.mem_singleton, forall_eq, member, apex,
    SortedSet.mem_toList]
  exact and_comm

/-- The gambles on the given states without a negative product with a member. -/
structure Favours (K : CredalSet σ) (S : SortedSet σ) (h : σ → ℚ) : Prop where
  supports : S.Supports h
  products : ∀ p ∈ K.members, 0 ≤ S.product h p.probability

theorem Favours.smul {c : ℚ} (favours : Favours K S h) (hc : 0 ≤ c) : Favours K S (c • h) := by
  refine ⟨fun x out => ?_, fun p hp => ?_⟩
  · rw [Pi.smul_apply, favours.supports x out, smul_zero]
  · rw [SortedSet.product_comm, map_smul, SortedSet.product_comm]
    exact mul_nonneg hc (favours.products p hp)

/-- A row in the cone stands for a gamble of that kind, which is not zero. -/
theorem favours_of_mem_cone (width : row.length = S.size + 1) (nonzero : Row.isZero row.tail = false)
    (mem : toVector _ row ∈ (spanSpaces K S).cone (constraints (span K S.toList)).length) :
    (Gamble.ofList (S.toList.zip row.tail)).norm ≠ 0 ∧
      Favours K S (Gamble.ofList (S.toList.zip row.tail)).payoff := by
  rw [payoff_ofList_tail width]
  refine ⟨fun zero => ?_, supports_onStates _, fun p hp => ?_⟩
  · rw [Gamble.norm, Gamble.values_ofList_zip (by rw [List.length_tail, width]; rfl), Row.norm_eq_zero_iff,
      nonzero] at zero
    cases zero
  · rw [SortedSet.product_comm]
    exact (mem_cone_span.1 mem).2 p hp

variable {g : Generators} (spans : g.Spans (S.size + 1) (constraints (span K S.toList)))

include spans

/-- The gambles that rays and lines stand for are of that kind, and not zero. -/
theorem gamble_mem {f : Gamble σ} (hf : f ∈ gambles S.toList (.ofRows .inequalities g.rays g.lines)) :
    f.norm ≠ 0 ∧ Favours K S f.payoff := by
  have line {l : Row} (hl : l ∈ g.lines) :
      toVector _ l ∈ (spanSpaces K S).lineality (constraints (span K S.toList)).length := by
    rw [spanSpaces, ← spans.lines]
    exact Submodule.subset_span (toVector_mem_vectors hl)
  obtain ⟨row, nonzero, ⟨ray | hl, rfl⟩ | ⟨hl, rfl⟩⟩ := mem_gambles.1 hf
  · exact favours_of_mem_cone (spans.rayWidth row ray) nonzero (spans.rays (toVector_mem_vectors ray))
  · exact favours_of_mem_cone (spans.lineWidth row hl) nonzero
      (Halfspaces.mem_cone_of_mem_lineality (line hl))
  · rw [Row.neg_tail]
    refine favours_of_mem_cone ((Row.length_neg row).trans (spans.lineWidth row hl)) ?_ ?_
    · rw [Bool.eq_false_iff, ne_eq, Row.isZero_iff] at nonzero ⊢
      rw [← Row.neg_tail]
      exact fun zero => nonzero fun a ha => neg_eq_zero.1 (zero _ (List.mem_map_of_mem ha))
    · rw [Row.toVector_neg]
      exact Halfspaces.mem_cone_of_mem_lineality (Submodule.neg_mem _ (line hl))

/-- What generates the gambles that rays and lines stand for generates every gamble of that kind. -/
theorem generated_of_favours {T : Set (σ → ℚ)}
    (gamble : ∀ f ∈ gambles S.toList (.ofRows .inequalities g.rays g.lines), Generated T ⊥ f.payoff)
    (favours : Favours K S h) : Generated T ⊥ h := by
  have mem :
      toVector _ (lifted 0 h S.toList) ∈ (spanSpaces K S).cone (constraints (span K S.toList)).length := by
    rw [mem_cone_span, onStates_lifted favours.supports]
    exact ⟨le_rfl, fun p hp => SortedSet.product_comm S h p.probability ▸ favours.products p hp⟩
  have generated := spans.generates _ mem
  rw [← spans.lines] at generated
  rw [← onStates_lifted favours.supports 0]
  exact generated_onStates .inequalities spans.rayWidth spans.lineWidth gamble generated

/-- The directions of the gambles that rays and lines stand for. -/
theorem exists_ofGambles : ∃ D : DesirabilitySet σ,
    DesirabilitySet.ofGambles (gambles S.toList (.ofRows .inequalities g.rays g.lines)) = .ok D ∧
    D.IsClosure K S := by
  obtain ⟨D, made, rays⟩ := DesirabilitySet.exists_ofGambles fun f hf => (gamble_mem spans hf).1
  have direction {r : Ray σ} (hr : r ∈ D.generators) : Favours K S r.payoff := by
    obtain ⟨f, hf, dir⟩ := (rays r).1 hr
    obtain ⟨norm, favours⟩ := gamble_mem spans hf
    obtain ⟨r', dir', payoff⟩ := Ray.exists_ofGamble norm
    cases dir.symm.trans dir'
    rw [show r.payoff = f.norm⁻¹ • f.payoff from funext payoff]
    exact favours.smul (inv_nonneg.2 f.norm_nonneg)
  refine ⟨D, made, fun r hr => (direction hr).supports,
      fun h supports => ⟨fun generated p hp => ?_, fun products =>
    generated_of_favours spans (fun f hf => ?_) ⟨supports, products⟩⟩⟩
  · rw [SortedSet.product_comm]
    refine generated.nonneg_bot ?_
    rintro _ ⟨r, hr, rfl⟩
    rw [SortedSet.product_comm]
    exact (direction hr).products p hp
  · obtain ⟨norm, -⟩ := gamble_mem spans hf
    obtain ⟨r, dir, payoff⟩ := Ray.exists_ofGamble norm
    have multiple : f.payoff = f.norm • r.payoff := funext fun x => by
      rw [Pi.smul_apply, payoff, smul_eq_mul, mul_inv_cancel_left₀ norm]
    rw [multiple]
    exact Generated.ray (R := D.payoffs) ⟨r, (rays r).2 ⟨f, hf, dir⟩, rfl⟩ f.norm_nonneg

end Duality

section Conversion

variable {limits : Limits} {space : SortedSet σ}

theorem CredalSet.toDesirabilitySetOn_eq_bind {r : Reasoner Id}
    (some_state : (space ∪ K.domain).isEmpty = false) :
    r.toDesirabilitySetOn K space =
      (r.enumerator.converted (span K (space ∪ K.domain).toList) .inequalities >>= fun d =>
        Query.ofExcept (DesirabilitySet.ofGambles (gambles (space ∪ K.domain).toList d))) := by
  rw [Reasoner.toDesirabilitySetOn, CredalSet.toDesirabilitySetOn, some_state]
  rfl

/-- The desirable gambles generate the gambles that no member gives a negative expectation, unless
there are too many rays. -/
theorem CredalSet.exists_toDesirabilitySetOn_or_limit (some_state : (space ∪ K.domain).isEmpty = false) :
    (∃ D : DesirabilitySet σ, ((Reasoner.within limits).toDesirabilitySetOn K space).run = .ok D ∧
      D.IsClosure K (space ∪ K.domain)) ∨
    ((Reasoner.within limits).toDesirabilitySetOn K space).run =
      .error (.enumerationLimit limits.maxRays) := by
  rw [toDesirabilitySetOn_eq_bind some_state]
  rcases Reasoner.run_converted_or_limit limits (fault?_span K (space ∪ K.domain)) with
    ⟨g, generated, converted⟩ | failed
  · rw [width_span] at generated
    obtain ⟨D, made, closure⟩ := exists_ofGambles (generators_spec generated)
    exact .inl ⟨D, (Query.run_bind_ok converted).trans made, closure⟩
  · exact .inr (Query.run_bind_error failed)

/-- Within the limits, the desirable gambles generate the gambles that no member gives a negative
expectation. -/
theorem CredalSet.exists_toDesirabilitySetOn (some_state : (space ∪ K.domain).isEmpty = false)
    (fits : ((Reasoner.within limits).toDesirabilitySetOn K space).hitsLimit = false) :
    ∃ D : DesirabilitySet σ, ((Reasoner.within limits).toDesirabilitySetOn K space).run = .ok D ∧
      D.IsClosure K (space ∪ K.domain) :=
  Query.resolve_limit fits (exists_toDesirabilitySetOn_or_limit some_state)

end Conversion

end Prevision
