import Mathlib.Data.Option.NAry
import Prevision.Proofs.Model.Maps

/-!
# The arithmetic of gambles and of tables

Gambles combine on the union of their domains, and each pays zero where only the other
is given. Tables combine where both have a value. Either way an operation is that of
the rationals in every state, and equal domains and equal values make equal gambles and
tables. So the laws of the rationals hold as they stand, with zeros, missing states and
any overlap of the domains:

* `Table.zipEither_comm`, `Table.zipEither_assoc`, `Table.zipEither_distrib`,
  `Table.map_zipEither`: on the union, for an operation that keeps zero;
* `Table.zipCommon_comm`, `Table.zipCommon_assoc`, `Table.zipCommon_distrib`,
  `Table.map_zipCommon`: on the intersection, for any operation;
* `Table.zipEither_eq_zipCommon`: on one domain there is no difference;
* `PreservesArithmetic.of_reads`: a map that reads its payoffs off those of a gamble
  keeps sums, differences, products and multiples.
-/

namespace Prevision

variable {σ τ : Type} [State σ] [State τ]

/-! ## Tables -/

namespace Table

variable {op op' : ℚ → ℚ → ℚ} {f g : Table σ}

theorem domain_zipEither (op : ℚ → ℚ → ℚ) (f g : Table σ) :
    (zipEither op f g).domain = f.domain ∪ g.domain :=
  domain_tabulate _ _

/-- Where both have a value, the values are combined, and elsewhere there is none. -/
theorem get?_zipCommon (op : ℚ → ℚ → ℚ) (f g : Table σ) (x : σ) :
    (zipCommon op f g).get? x = Option.map₂ op (f.get? x) (g.get? x) := by
  rw [zipCommon, SortedMap.get?_tabulate, get?_eq_ite f, get?_eq_ite g]
  by_cases hf : x ∈ f.domain <;> by_cases hg : x ∈ g.domain <;> simp [contains_iff, hf, hg]

theorem domain_zipCommon (op : ℚ → ℚ → ℚ) (f g : Table σ) :
    (zipCommon op f g).domain = f.domain ∩ g.domain := by
  refine (domain_tabulate _ _).trans (SortedSet.ext fun x => ?_)
  rw [SortedSet.mem_filter, contains_iff, SortedSet.mem_inter]

theorem payoff_zipCommon (op : ℚ → ℚ → ℚ) {x : σ} (hx : x ∈ f.domain ∩ g.domain) :
    (zipCommon op f g).payoff x = op (f.payoff x) (g.payoff x) := by
  obtain ⟨hf, hg⟩ := SortedSet.mem_inter.1 hx
  rw [payoff, get?_zipCommon, get?_eq_ite, get?_eq_ite, if_pos hf, if_pos hg]
  rfl

/-- On one domain it makes no difference which states count. -/
theorem zipEither_eq_zipCommon (same : f.domain = g.domain) : zipEither op f g = zipCommon op f g := by
  have domain : (zipEither op f g).domain = (zipCommon op f g).domain := SortedSet.ext fun x => by
    rw [domain_zipEither, domain_zipCommon, same, SortedSet.mem_union, SortedSet.mem_inter, or_self, and_self]
  refine ext_payoff domain fun x hx => ?_
  rw [payoff_zipCommon op (by rwa [domain, domain_zipCommon] at hx)]
  exact payoff_tabulate.trans (if_pos (by rwa [domain_zipEither] at hx))

section Either

variable (zero : op 0 0 = 0)

include zero

theorem zipEither_comm (comm : ∀ a b, op a b = op b a) (f g : Table σ) :
    zipEither op f g = zipEither op g f := by
  refine ext_payoff (SortedSet.ext fun x => ?_) fun x _ => ?_
  · simp only [domain_zipEither, SortedSet.mem_union, or_comm]
  · rw [payoff_zipEither zero, payoff_zipEither zero, comm]

theorem zipEither_assoc (assoc : ∀ a b c, op (op a b) c = op a (op b c)) (f g h : Table σ) :
    zipEither op (zipEither op f g) h = zipEither op f (zipEither op g h) := by
  refine ext_payoff (SortedSet.ext fun x => ?_) fun x _ => ?_
  · simp only [domain_zipEither, SortedSet.mem_union, or_assoc]
  · simp only [payoff_zipEither zero, assoc]

theorem zipEither_distrib (zero' : op' 0 0 = 0) (distrib : ∀ a b c, op a (op' b c) = op' (op a b) (op a c))
    (f g h : Table σ) :
    zipEither op f (zipEither op' g h) = zipEither op' (zipEither op f g) (zipEither op f h) := by
  refine ext_payoff (SortedSet.ext fun x => ?_) fun x _ => ?_
  · simp only [domain_zipEither, SortedSet.mem_union]
    exact or_or_distrib_left
  · simp only [payoff_zipEither zero, payoff_zipEither zero', distrib]

theorem map_zipEither {k : ℚ → ℚ} (fixed : k 0 = 0) (hom : ∀ a b, k (op a b) = op (k a) (k b))
    (f g : Table σ) :
    SortedMap.map k (zipEither op f g) = zipEither op (SortedMap.map k f) (SortedMap.map k g) := by
  refine ext_payoff ?_ fun x _ => ?_
  · simp only [domain_map, domain_zipEither]
  · simp only [payoff_map fixed, payoff_zipEither zero, hom]

end Either

theorem zipCommon_comm (comm : ∀ a b, op a b = op b a) (f g : Table σ) :
    zipCommon op f g = zipCommon op g f :=
  SortedMap.ext fun x => by rw [get?_zipCommon, get?_zipCommon, Option.map₂_comm comm]

theorem zipCommon_assoc (assoc : ∀ a b c, op (op a b) c = op a (op b c)) (f g h : Table σ) :
    zipCommon op (zipCommon op f g) h = zipCommon op f (zipCommon op g h) :=
  SortedMap.ext fun x => by simp only [get?_zipCommon, Option.map₂_assoc assoc]

theorem zipCommon_distrib (distrib : ∀ a b c, op a (op' b c) = op' (op a b) (op a c)) (f g h : Table σ) :
    zipCommon op f (zipCommon op' g h) = zipCommon op' (zipCommon op f g) (zipCommon op f h) := by
  refine SortedMap.ext fun x => ?_
  simp only [get?_zipCommon]
  -- The value of `f` occurs twice on the right, so this is none of the laws of `Option.map₂`.
  cases f.get? x <;> cases g.get? x <;> cases h.get? x <;> simp [distrib]

theorem map_zipCommon {k : ℚ → ℚ} (hom : ∀ a b, k (op a b) = op (k a) (k b)) (f g : Table σ) :
    SortedMap.map k (zipCommon op f g) = zipCommon op (SortedMap.map k f) (SortedMap.map k g) :=
  SortedMap.ext fun x => by simp only [SortedMap.get?_map, get?_zipCommon, Option.map_map₂_distrib hom]

end Table

/-- Sums and products are commutative and associative, and products and multiples distribute over sums. -/
structure LawfulArithmetic {α : Type} [Add α] [Mul α] (scale : ℚ → α → α) : Prop where
  add_comm (f g : α) : f + g = g + f
  add_assoc (f g h : α) : f + g + h = f + (g + h)
  mul_comm (f g : α) : f * g = g * f
  mul_assoc (f g h : α) : f * g * h = f * (g * h)
  mul_add (f g h : α) : f * (g + h) = f * g + f * h
  scale_add (c : ℚ) (f g : α) : scale c (f + g) = scale c f + scale c g

theorem Table.lawfulArithmetic : LawfulArithmetic (Table.scale (σ := σ)) where
  add_comm := zipCommon_comm add_comm
  add_assoc := zipCommon_assoc add_assoc
  mul_comm := zipCommon_comm mul_comm
  mul_assoc := zipCommon_assoc mul_assoc
  mul_add := zipCommon_distrib mul_add
  scale_add c := map_zipCommon (mul_add c)

/-! ## Gambles -/

namespace Gamble

/-- Two gambles combined in every state that one of them is given in. -/
def zip (op : ℚ → ℚ → ℚ) (f g : Gamble σ) : Gamble σ := ⟨.zipEither op f.table g.table⟩

theorem domain_zip (op : ℚ → ℚ → ℚ) (f g : Gamble σ) : (zip op f g).domain = f.domain ∪ g.domain :=
  Table.domain_zipEither op f.table g.table

theorem payoff_zip {op : ℚ → ℚ → ℚ} (zero : op 0 0 = 0) (f g : Gamble σ) (x : σ) :
    (zip op f g).payoff x = op (f.payoff x) (g.payoff x) := Table.payoff_zipEither zero

end Gamble

/-- A map of gambles that keeps sums, differences, products and multiples. -/
structure PreservesArithmetic (φ : Gamble σ → Gamble τ) : Prop where
  add (f g : Gamble σ) : φ (f + g) = φ f + φ g
  sub (f g : Gamble σ) : φ (f - g) = φ f - φ g
  mul (f g : Gamble σ) : φ (f * g) = φ f * φ g
  scale (c : ℚ) (f : Gamble σ) : φ (f.scale c) = (φ f).scale c

/-- It is enough that the map reads every payoff off that in some state, or reads zero, and that
where it is given depends on the domain only and is kept by unions. -/
theorem PreservesArithmetic.of_reads {φ : Gamble σ → Gamble τ} (base : τ → σ) (kept : τ → Prop)
    [DecidablePred kept]
    (covers : SortedSet σ → τ → Prop) (domain : ∀ f y, y ∈ (φ f).domain ↔ covers f.domain y)
    (union : ∀ S T y, covers (S ∪ T) y ↔ covers S y ∨ covers T y)
    (payoff : ∀ f y, (φ f).payoff y = if kept y then f.payoff (base y) else 0) : PreservesArithmetic φ := by
  have combined {op : ℚ → ℚ → ℚ} (zero : op 0 0 = 0) (f g : Gamble σ) :
      φ (.zip op f g) = .zip op (φ f) (φ g) := by
    refine Gamble.ext_payoff (SortedSet.ext fun y => ?_) (funext fun y => ?_)
    · rw [domain, Gamble.domain_zip, Gamble.domain_zip, union, SortedSet.mem_union, domain, domain]
    · rw [payoff, Gamble.payoff_zip zero, Gamble.payoff_zip zero, payoff, payoff]
      split
      · rfl
      · exact zero.symm
  refine ⟨combined (add_zero 0), combined (sub_zero 0), combined (mul_zero 0), fun c f => ?_⟩
  refine Gamble.ext_payoff (SortedSet.ext fun y => ?_) (funext fun y => ?_)
  · rw [domain, Gamble.domain_scale, Gamble.domain_scale, domain]
  · rw [payoff, Gamble.payoff_scale, Gamble.payoff_scale, payoff, mul_ite, mul_zero]

namespace Gamble

theorem lawfulArithmetic : LawfulArithmetic (scale (σ := σ)) where
  add_comm f g := table_injective (Table.zipEither_comm (add_zero 0) add_comm f.table g.table)
  add_assoc f g h := table_injective (Table.zipEither_assoc (add_zero 0) add_assoc f.table g.table h.table)
  mul_comm f g := table_injective (Table.zipEither_comm (mul_zero 0) mul_comm f.table g.table)
  mul_assoc f g h := table_injective (Table.zipEither_assoc (mul_zero 0) mul_assoc f.table g.table h.table)
  mul_add f g h :=
    table_injective (Table.zipEither_distrib (mul_zero 0) (add_zero 0) mul_add f.table g.table h.table)
  scale_add c f g :=
    table_injective (Table.map_zipEither (add_zero 0) (mul_zero c) (mul_add c) f.table g.table)

theorem preservesArithmetic_restrict (E : SortedSet σ) :
    PreservesArithmetic fun f : Gamble σ => f.restrict E :=
  .of_reads id (· ∈ E) (fun _ x => x ∈ E) (fun f x => by rw [domain_restrict])
    (fun _ _ _ => (or_self_iff).symm) fun _ _ => payoff_restrict

theorem preservesArithmetic_extend (other : SortedSet τ) :
    PreservesArithmetic fun f : Gamble σ => f.extend other :=
  .of_reads Prod.fst (·.2 ∈ other) (fun S z => z.1 ∈ S ∧ z.2 ∈ other)
    (fun _ _ => mem_domain_extend) (fun S T z => by rw [SortedSet.mem_union, or_and_right])
    fun f z => congrFun (f.payoff_extend other) z

end Gamble

/-- The arithmetic of gambles is lawful on unions of domains and works state by state,
restrictions and extensions keep it, and a restriction of a restriction pays what the gamble does
on both events. The arithmetic of tables is lawful on intersections of domains, and on one domain
there is no difference. -/
theorem arithmetic_lawful :
    LawfulArithmetic (Gamble.scale (σ := σ)) ∧
    (∀ f g : Gamble σ, (f + g).domain = f.domain ∪ g.domain ∧ (f - g).domain = f.domain ∪ g.domain ∧
      (f * g).domain = f.domain ∪ g.domain ∧ ∀ x, (f + g).payoff x = f.payoff x + g.payoff x ∧
        (f - g).payoff x = f.payoff x - g.payoff x ∧ (f * g).payoff x = f.payoff x * g.payoff x) ∧
    (∀ E : SortedSet σ, PreservesArithmetic fun f : Gamble σ => f.restrict E) ∧
    (∀ other : SortedSet τ, PreservesArithmetic fun f : Gamble σ => f.extend other) ∧
    (∀ (f : Gamble σ) (E F : SortedSet σ), ((f.restrict E).restrict F).domain = F ∧
      (∀ x ∈ E ∩ F, ((f.restrict E).restrict F).payoff x = f.payoff x) ∧
      ∀ x ∈ F, x ∉ E → ((f.restrict E).restrict F).payoff x = 0) ∧
    LawfulArithmetic (Table.scale (σ := σ)) ∧
    (∀ f g : Table σ, (f + g).domain = f.domain ∩ g.domain ∧ (f - g).domain = f.domain ∩ g.domain ∧
      (f * g).domain = f.domain ∩ g.domain ∧
      ∀ x ∈ f.domain ∩ g.domain, (f + g).payoff x = f.payoff x + g.payoff x ∧
        (f - g).payoff x = f.payoff x - g.payoff x ∧ (f * g).payoff x = f.payoff x * g.payoff x) ∧
    ∀ f g : Gamble σ, f.domain = g.domain → (f + g).table = f.table + g.table ∧
      (f - g).table = f.table - g.table ∧ (f * g).table = f.table * g.table := by
  refine ⟨Gamble.lawfulArithmetic, fun f g => ?_, Gamble.preservesArithmetic_restrict,
    Gamble.preservesArithmetic_extend,
    fun f E F => ?_, Table.lawfulArithmetic, fun f g => ?_, fun f g same => ?_⟩
  · have domain (op : ℚ → ℚ → ℚ) := Gamble.domain_zip op f g
    exact ⟨domain _, domain _, domain _, fun x => ⟨f.payoff_add g x, f.payoff_sub g x, f.payoff_mul g x⟩⟩
  · refine ⟨Gamble.domain_restrict _ F, fun x hx => ?_, fun x hF out => ?_⟩
    · obtain ⟨hE, hF⟩ := SortedSet.mem_inter.1 hx
      rw [Gamble.payoff_restrict, Gamble.payoff_restrict, if_pos hF, if_pos hE]
    · rw [Gamble.payoff_restrict, Gamble.payoff_restrict, if_pos hF, if_neg out]
  · have domain (op : ℚ → ℚ → ℚ) := Table.domain_zipCommon op f g
    have payoff (op : ℚ → ℚ → ℚ) {x : σ} (hx : x ∈ f.domain ∩ g.domain) := Table.payoff_zipCommon op hx
    exact ⟨domain _, domain _, domain _, fun x hx => ⟨payoff _ hx, payoff _ hx, payoff _ hx⟩⟩
  · have one_domain (op : ℚ → ℚ → ℚ) :
        Table.zipEither op f.table g.table = Table.zipCommon op f.table g.table :=
      Table.zipEither_eq_zipCommon same
    exact ⟨one_domain _, one_domain _, one_domain _⟩

/-- Two gambles on one domain, one of them with a zero entry, and a third that shares a single
state with them. -/
theorem arithmetic_lawful_overlapping :
    let f : Gamble Int := .ofList [(0, 1), (1, 0), (2, -3)]
    let g : Gamble Int := .ofList [(0, 1 / 2), (1, 4), (2, 0)]
    let h : Gamble Int := .ofList [(2, 5), (3, 0)]
    f.domain = g.domain ∧ (f * g).table = f.table * g.table ∧ f * (g + h) = f * g + f * h ∧
      (f * (g + h)).domain = .ofList [0, 1, 2, 3] ∧
      f.table * (g.table + h.table) = f.table * g.table + f.table * h.table ∧
      (f.table * (g.table + h.table)).domain = .singleton 2 := by
  intro f g h
  obtain ⟨gambles, -, -, -, -, tables, -, one_domain⟩ := arithmetic_lawful (σ := Int) (τ := Int)
  have same : f.domain = g.domain := by decide +kernel
  exact ⟨same, (one_domain f g same).2.2, gambles.mul_add f g h, by decide +kernel,
    tables.mul_add f.table g.table h.table, by decide +kernel⟩

end Prevision
