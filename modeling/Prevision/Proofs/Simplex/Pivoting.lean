import Mathlib.Algebra.Order.BigOperators.Group.Finset
import Prevision.Proofs.Simplex.Canonical
import Prevision.Simplex.Optimize

/-!
# Runs of pivots

What the next move says about a tableau (`move_eq_pivot`, `move_eq_stop`,
`move_eq_escape`), and what every pivot keeps. A tableau is `Ready` for an
objective when it is canonical, its basic solution is nonnegative, and the
given row holds the reduced costs.

* `Ready.step`: a pivot keeps a tableau ready and its basic solution no worse;
* `Run`: finitely many pivots in a row, and `Run.ready` what they keep;
* `optimize_eq`: `optimize` follows such a run to its end or until its budget
  is spent;
* `Ready.le_of_stop`: at the end no solution is better than the basic one;
* `Ready.exists_of_escape`: and where no end is in sight, some solution is better
  than any bound.
-/

namespace Prevision.Tableau

variable {t : Tableau} {costs d : Row} {allowed r j : Nat}

/-! ## The choice of a pivot -/

theorem Ratio.le_of_not_precedes {a b : Ratio} (h : b.precedes a = false) :
    a.limit ≤ b.limit ∧ (b.limit = a.limit → a.basic ≤ b.basic) := by
  simp only [precedes, Bool.or_eq_false_iff, decide_eq_false_iff_not, not_lt, Bool.and_eq_false_iff,
    beq_eq_false_iff_ne] at h
  exact ⟨h.1, fun e => h.2.resolve_left (not_not_intro e)⟩

theorem Ratio.le_of_precedes {a b : Ratio} (h : b.precedes a = true) :
    b.limit ≤ a.limit ∧ (a.limit = b.limit → b.basic ≤ a.basic) := by
  simp only [precedes, Bool.or_eq_true, decide_eq_true_eq, Bool.and_eq_true, beq_iff_eq] at h
  rcases h with lt | ⟨e, lt⟩
  · exact ⟨lt.le, fun e => absurd e lt.ne'⟩
  · exact ⟨e.le, fun _ => lt.le⟩

theorem Ratio.first?_eq_none {l : List Ratio} (h : first? l = none) : l = [] := by
  cases l with
  | nil => rfl
  | cons a rest =>
    simp only [first?] at h
    split at h <;> simp at h

/-- The first ratio is least, and of the least ones that with the smallest basic column. -/
theorem Ratio.first?_spec {l : List Ratio} {a : Ratio} (h : first? l = some a) :
    a ∈ l ∧ ∀ b ∈ l, a.limit ≤ b.limit ∧ (b.limit = a.limit → a.basic ≤ b.basic) := by
  induction l generalizing a with
  | nil => simp [first?] at h
  | cons c rest ih =>
    simp only [first?] at h
    split at h
    · rename_i none
      obtain rfl := first?_eq_none none
      obtain rfl := Option.some.inj h
      simp
    · rename_i b some
      obtain ⟨mem, least⟩ := ih some
      split at h <;> obtain rfl := Option.some.inj h
      · rename_i first
        refine ⟨List.mem_cons_of_mem _ mem, fun x hx => ?_⟩
        rcases List.mem_cons.1 hx with rfl | hx
        · exact le_of_precedes first
        · exact least x hx
      · rename_i first
        obtain ⟨le, tie⟩ := le_of_not_precedes (Bool.eq_false_iff.2 first)
        refine ⟨List.mem_cons_self, fun x hx => ?_⟩
        rcases List.mem_cons.1 hx with rfl | hx
        · exact ⟨le_rfl, fun _ => le_rfl⟩
        · obtain ⟨le', tie'⟩ := least x hx
          exact ⟨le.trans le', fun e => (tie (by linarith)).trans (tie' (by linarith))⟩

theorem mem_ratios {a : Ratio} : a ∈ t.ratios j ↔ ∃ l, t.lines[a.row]? = some l ∧ 0 < l.entry j ∧
    a.limit = l.rhs / l.entry j ∧ a.basic = l.basic := by
  simp only [ratios, List.mem_map, List.mem_filter, decide_eq_true_eq, Prod.exists,
    List.mem_zipIdx_iff_getElem?]
  constructor
  · rintro ⟨l, i, ⟨at_i, pos⟩, rfl⟩
    exact ⟨l, at_i, pos, rfl, rfl⟩
  · rintro ⟨l, at_i, pos, limit, basic⟩
    obtain ⟨row, lim, bas⟩ := a
    obtain rfl := limit
    obtain rfl := basic
    exact ⟨l, row, ⟨at_i, pos⟩, rfl⟩

theorem entering?_eq_none (h : entering? d allowed = none) {i : Nat} (hi : i < allowed) :
    Row.entry d i ≤ 0 := by
  rcases Nat.lt_or_ge i d.length with bound | bound
  · have taken : i < (d.take allowed).length := by
      rw [List.length_take]
      omega
    have := List.findIdx?_eq_none_iff.1 h _ (List.getElem_mem taken)
    rw [List.getElem_take, ← Row.entry_eq_getElem bound] at this
    simpa using this
  · exact (Row.entry_of_le bound).le

theorem entering?_eq_some (h : entering? d allowed = some j) :
    j < allowed ∧ 0 < Row.entry d j ∧ ∀ i < j, Row.entry d i ≤ 0 := by
  obtain ⟨taken, pos, before⟩ := List.findIdx?_eq_some_iff_getElem.1 h
  have bounds := taken
  rw [List.length_take] at bounds
  have entry {i : Nat} (hi : i < (d.take allowed).length) :
      (d.take allowed)[i] = Row.entry d i := by
    rw [List.getElem_take, Row.entry_eq_getElem]
  rw [entry taken, decide_eq_true_eq] at pos
  refine ⟨by omega, pos, fun i hi => ?_⟩
  have := before i hi
  rw [entry (by omega), decide_eq_true_eq] at this
  exact not_lt.1 this

/-- Line `line` at position `r` is solved for column `j` next: the first column that improves the
objective enters, and of the lines that bound it most tightly the one with the smallest basic column
leaves. -/
structure Choice (t : Tableau) (d : Row) (allowed r j : Nat) (line : Line) : Prop where
  column_lt : j < allowed
  improves : 0 < Row.entry d j
  first : ∀ i < j, Row.entry d i ≤ 0
  at_row : t.lines[r]? = some line
  positive : 0 < line.entry j
  least : ∀ l ∈ t.lines, 0 < l.entry j → line.rhs / line.entry j ≤ l.rhs / l.entry j
  smallest : ∀ l ∈ t.lines, 0 < l.entry j → l.rhs / l.entry j = line.rhs / line.entry j →
    line.basic ≤ l.basic

theorem move_eq_stop (h : t.move d allowed = .stop) {i : Nat} (hi : i < allowed) :
    Row.entry d i ≤ 0 := by
  refine entering?_eq_none ?_ hi
  unfold move at h
  split at h
  · assumption
  · split at h <;> cases h

theorem move_eq_escape (h : t.move d allowed = .escape) :
    ∃ j < allowed, 0 < Row.entry d j ∧ ∀ l ∈ t.lines, l.entry j ≤ 0 := by
  unfold move at h
  split at h
  · cases h
  · rename_i j entering
    split at h
    · rename_i none
      obtain ⟨bound, improves, -⟩ := entering?_eq_some entering
      refine ⟨j, bound, improves, fun l hl => not_lt.1 fun pos => ?_⟩
      obtain ⟨i, at_i⟩ := List.mem_iff_getElem?.1 hl
      have : (⟨i, l.rhs / l.entry j, l.basic⟩ : Ratio) ∈ t.ratios j :=
        mem_ratios.2 ⟨l, at_i, pos, rfl, rfl⟩
      rw [Ratio.first?_eq_none none] at this
      cases this
    · cases h

theorem move_eq_pivot (h : t.move d allowed = .pivot r j) : ∃ line, Choice t d allowed r j line := by
  unfold move at h
  split at h
  · cases h
  · rename_i j entering
    split at h
    · cases h
    · rename_i ratio first
      obtain ⟨rfl, rfl⟩ := Move.pivot.inj h
      obtain ⟨mem, least⟩ := Ratio.first?_spec first
      obtain ⟨line, at_row, positive, limit, basic⟩ := mem_ratios.1 mem
      obtain ⟨column_lt, improves, before⟩ := entering?_eq_some entering
      have bounds {l : Line} (hl : l ∈ t.lines) (pos : 0 < l.entry j) :
          line.rhs / line.entry j ≤ l.rhs / l.entry j ∧
            (l.rhs / l.entry j = line.rhs / line.entry j → line.basic ≤ l.basic) := by
        obtain ⟨i, at_i⟩ := List.mem_iff_getElem?.1 hl
        have := least ⟨i, l.rhs / l.entry j, l.basic⟩ (mem_ratios.2 ⟨l, at_i, pos, rfl, rfl⟩)
        rwa [limit, basic] at this
      exact ⟨line, column_lt, improves, before, at_row, positive, fun l hl pos => (bounds hl pos).1,
        fun l hl pos => (bounds hl pos).2⟩

/-! ## Reduced costs -/

/-- The row `d` is the objective `costs` without the basic columns: at every solution the objective
is what `d` makes of it and the objective of the basic solution. -/
structure Reduced (t : Tableau) (costs d : Row) : Prop where
  width : d.length = t.columns
  basic : ∀ j, t.IsBasic j → Row.entry d j = 0
  eval : ∀ y, t.Holds y → Row.dot costs y = Row.dot d y + Row.dot costs t.point

/-- A row that is zero at the basic columns has no part in a sum over the lines. -/
theorem sum_basic_eq_zero (basic : ∀ j, t.IsBasic j → Row.entry d j = 0) (g : Line → Rat) :
    (t.lines.map fun l => Row.entry d l.basic * g l).sum = 0 :=
  List.sum_eq_zero fun x hx => by
    obtain ⟨l, hl, rfl⟩ := List.mem_map.1 hx
    rw [basic _ ⟨l, hl, rfl⟩, zero_mul]

theorem Canonical.dot_point_eq_zero (h : t.Canonical) (width : d.length = t.columns)
    (basic : ∀ j, t.IsBasic j → Row.entry d j = 0) : Row.dot d t.point = 0 := by
  rw [h.dot_point width, sum_basic_eq_zero basic]

/-- A row that differs from the objective by a constant on all solutions holds the reduced costs. -/
theorem Reduced.of_const (h : t.Canonical) (width : d.length = t.columns)
    (basic : ∀ j, t.IsBasic j → Row.entry d j = 0) {z : Rat}
    (eval : ∀ y, t.Holds y → Row.dot costs y = Row.dot d y + z) : t.Reduced costs d := by
  have const : Row.dot costs t.point = z := by
    rw [eval _ h.holds_point, h.dot_point_eq_zero width basic, zero_add]
  exact ⟨width, basic, fun y hy => by rw [const, eval y hy]⟩

theorem length_foldl_subMul (ls : List Line) (c : Line → Rat)
    (width : ∀ l ∈ ls, l.entries.length = d.length) :
    (ls.foldl (fun d l => Row.subMul d (c l) l.entries) d).length = d.length := by
  induction ls generalizing d with
  | nil => rfl
  | cons l ls ih =>
    have hl := Row.length_subMul (c l) (width l List.mem_cons_self).symm
    rw [List.foldl_cons, ih fun m hm => (width m (List.mem_cons_of_mem _ hm)).trans hl.symm, hl]

theorem entry_foldl_subMul (ls : List Line) (c : Line → Rat) (width : ∀ l ∈ ls, l.entries.length = d.length)
    (i : Nat) : Row.entry (ls.foldl (fun d l => Row.subMul d (c l) l.entries) d) i =
      Row.entry d i - (ls.map fun l => c l * l.entry i).sum := by
  induction ls generalizing d with
  | nil => simp
  | cons l ls ih =>
    have hl := width l List.mem_cons_self
    rw [List.foldl_cons, ih fun m hm => (width m (List.mem_cons_of_mem _ hm)).trans
      (Row.length_subMul _ hl.symm).symm, Row.entry_subMul _ hl.symm, List.map_cons, List.sum_cons,
      sub_sub]
    rfl

theorem dot_foldl_subMul (ls : List Line) (c : Line → Rat) (width : ∀ l ∈ ls, l.entries.length = d.length)
    (y : Row) : Row.dot (ls.foldl (fun d l => Row.subMul d (c l) l.entries) d) y =
      Row.dot d y - (ls.map fun l => c l * Row.dot l.entries y).sum := by
  induction ls generalizing d with
  | nil => simp
  | cons l ls ih =>
    have hl := width l List.mem_cons_self
    rw [List.foldl_cons, ih fun m hm => (width m (List.mem_cons_of_mem _ hm)).trans
      (Row.length_subMul _ hl.symm).symm, Row.dot_subMul _ _ hl.symm, List.map_cons, List.sum_cons,
      sub_sub]

theorem Canonical.reduced_reducedCosts (h : t.Canonical) (width : costs.length = t.columns) :
    t.Reduced costs (t.reducedCosts costs) := by
  have widths : ∀ l ∈ t.lines, l.entries.length = costs.length :=
    fun l hl => (h.width l hl).trans width.symm
  refine Reduced.of_const (z := (t.lines.map fun l => Row.entry costs l.basic * l.rhs).sum) h
    ((length_foldl_subMul _ _ widths).trans width) ?_ fun y hy => ?_
  · rintro _ ⟨m, hm, rfl⟩
    rw [reducedCosts, entry_foldl_subMul _ _ widths, List.sum_map_eq_nsmul_single m,
      List.count_eq_one_of_mem h.nodup hm, one_nsmul, h.diagonal m hm, mul_one, sub_self]
    intro l ne hl
    rw [h.entry_basic hl hm ne, mul_zero]
  · have terms : (t.lines.map fun l => Row.entry costs l.basic * Row.dot l.entries y) =
        t.lines.map fun l => Row.entry costs l.basic * l.rhs :=
      List.map_congr_left fun l hl => by rw [hy l hl]
    rw [reducedCosts, dot_foldl_subMul _ _ widths, terms, sub_add_cancel]

/-! ## What a pivot keeps -/

/-- A canonical tableau with a nonnegative basic solution, and the reduced costs of an objective. -/
structure Ready (t : Tableau) (costs d : Row) : Prop where
  canonical : t.Canonical
  nonneg : ∀ l ∈ t.lines, 0 ≤ l.rhs
  reduced : t.Reduced costs d

theorem Ready.value_nonneg (h : t.Ready costs d) (i : Nat) : 0 ≤ t.value i := by
  by_cases basic : t.IsBasic i
  · obtain ⟨l, hl, rfl⟩ := basic
    rw [h.canonical.value_basic hl]
    exact h.nonneg l hl
  · exact (value_of_not_basic basic).ge

theorem lines_pivot_getElem? {line : Line} (at_r : t.lines[r]? = some line) (j : Nat) :
    (t.pivot r j).lines[r]? = some (line.solvedFor j) := by
  rw [lines_pivot at_r, List.getElem?_mapIdx, at_r, Option.map_some, if_pos rfl]

theorem updateReduced_pivot {line : Line} (at_r : t.lines[r]? = some line) (d : Row) (j : Nat) :
    (t.pivot r j).updateReduced d r j = Row.subMul d (Row.entry d j) (line.solvedFor j).entries := by
  rw [updateReduced, lines_pivot_getElem? at_r]

/-- A ratio test keeps the basic solution nonnegative. -/
theorem nonneg_pivot (nonneg : ∀ l ∈ t.lines, 0 ≤ l.rhs) {line : Line}
    (h : Choice t d allowed r j line) : ∀ l ∈ (t.pivot r j).lines, 0 ≤ l.rhs := by
  have lead : 0 ≤ line.rhs / line.entry j :=
    div_nonneg (nonneg line (List.mem_of_getElem? h.at_row)) h.positive.le
  have rhs_lead : (line.solvedFor j).rhs = line.rhs / line.entry j :=
    (div_eq_inv_mul _ _).symm
  intro l hl
  rcases (mem_lines_pivot h.at_row).1 hl with rfl | ⟨i, m, -, at_i, rfl⟩
  · rwa [rhs_lead]
  · have hm := List.mem_of_getElem? at_i
    rw [Line.rhs_eliminate, rhs_lead, sub_nonneg]
    rcases le_or_gt (m.entry j) 0 with le | pos
    · exact (mul_nonpos_of_nonpos_of_nonneg le lead).trans (nonneg m hm)
    · have := mul_le_mul_of_nonneg_left (h.least m hm pos) pos.le
      rwa [mul_div_cancel₀ _ pos.ne'] at this

/-- The reduced costs follow a pivot, and the objective grows by what the column contributes. -/
theorem Reduced.pivot (h : t.Reduced costs d) (canonical : t.Canonical) {line : Line}
    (at_r : t.lines[r]? = some line) (nonzero : line.entry j ≠ 0) (hj : j < t.columns) :
    (t.pivot r j).Reduced costs ((t.pivot r j).updateReduced d r j) ∧
      Row.dot costs (t.pivot r j).point =
        Row.dot costs t.point + Row.entry d j * (line.solvedFor j).rhs := by
  have next := canonical.pivot at_r nonzero hj
  have lead_mem : line.solvedFor j ∈ (t.pivot r j).lines := (mem_lines_pivot at_r).2 (.inl rfl)
  have width : d.length = (line.solvedFor j).entries.length := by
    rw [next.width _ lead_mem, columns_pivot, h.width]
  have basic : ∀ i, (t.pivot r j).IsBasic i →
      Row.entry (Row.subMul d (Row.entry d j) (line.solvedFor j).entries) i = 0 := by
    intro i hi
    rw [Row.entry_subMul _ width]
    by_cases e : i = j
    · rw [e, show Row.entry (line.solvedFor j).entries j = 1 from next.diagonal _ lead_mem, mul_one,
        sub_self]
    · have old := ((canonical.isBasic_pivot at_r i).1 hi).resolve_left e
      obtain ⟨m, hm, rfl⟩ := hi
      have ne : line.solvedFor j ≠ m := fun same => e (same ▸ rfl)
      rw [h.basic _ old.1, show Row.entry (line.solvedFor j).entries m.basic = 0 from
        next.entry_basic lead_mem hm ne, mul_zero, sub_zero]
  have eval : ∀ y, (t.pivot r j).Holds y → Row.dot costs y =
      Row.dot (Row.subMul d (Row.entry d j) (line.solvedFor j).entries) y +
        (Row.dot costs t.point + Row.entry d j * (line.solvedFor j).rhs) := by
    intro y hy
    rw [h.eval y ((canonical.holds_pivot_iff at_r nonzero).1 hy), Row.dot_subMul _ _ width,
      show Row.dot (line.solvedFor j).entries y = (line.solvedFor j).rhs from hy _ lead_mem]
    ring
  have width' : (Row.subMul d (Row.entry d j) (line.solvedFor j).entries).length =
      (t.pivot r j).columns := by
    rw [Row.length_subMul _ width, columns_pivot, h.width]
  refine ⟨updateReduced_pivot at_r d j ▸ .of_const next width' basic eval, ?_⟩
  rw [eval _ next.holds_point, next.dot_point_eq_zero width' basic, zero_add]

/-- A pivot keeps a tableau ready, and its basic solution is no worse after it. -/
theorem Ready.step (h : t.Ready costs d) {line : Line} (choice : Choice t d allowed r j line)
    (hj : j < t.columns) :
    (t.pivot r j).Ready costs ((t.pivot r j).updateReduced d r j) ∧
      Row.dot costs (t.pivot r j).point =
        Row.dot costs t.point + Row.entry d j * (line.solvedFor j).rhs := by
  obtain ⟨reduced, value⟩ := h.reduced.pivot h.canonical choice.at_row choice.positive.ne' hj
  exact ⟨⟨h.canonical.pivot choice.at_row choice.positive.ne' hj, nonneg_pivot h.nonneg choice,
    reduced⟩, value⟩

/-! ## Runs -/

/-- From one tableau with its reduced costs to another in so many pivots. -/
inductive Run (allowed : Nat) : Nat → Tableau → Row → Tableau → Row → Prop
  | refl (t : Tableau) (d : Row) : Run allowed 0 t d t d
  | step {n r j : Nat} {t t' : Tableau} {d d' : Row} (move : t.move d allowed = .pivot r j)
      (rest : Run allowed n (t.pivot r j) ((t.pivot r j).updateReduced d r j) t' d') :
      Run allowed (n + 1) t d t' d'

variable {n : Nat} {t' : Tableau} {d' : Row}

/-- What a run keeps: the tableau stays ready, with the same columns and the same solutions, its
basic solution gets no worse, and only allowed columns enter the basis. -/
theorem Run.ready (run : Run allowed n t d t' d') (h : t.Ready costs d)
    (bound : allowed ≤ t.columns) :
    t'.Ready costs d' ∧ t'.columns = t.columns ∧ t'.structural = t.structural ∧
      (∀ y, t'.Holds y ↔ t.Holds y) ∧ Row.dot costs t.point ≤ Row.dot costs t'.point ∧
      ∀ i, t'.IsBasic i → t.IsBasic i ∨ i < allowed := by
  induction run with
  | refl => exact ⟨h, rfl, rfl, fun _ => .rfl, le_rfl, fun _ => .inl⟩
  | @step n r j t t' d d' move rest ih =>
    obtain ⟨line, choice⟩ := move_eq_pivot move
    obtain ⟨next, value⟩ := h.step choice (choice.column_lt.trans_le bound)
    obtain ⟨ready, columns, structural, holds, le, basic⟩ := ih next (by rwa [columns_pivot])
    refine ⟨ready, columns.trans (columns_pivot t r j), structural.trans (structural_pivot t r j),
      fun y => (holds y).trans (h.canonical.holds_pivot_iff choice.at_row choice.positive.ne'), ?_,
      fun i hi => ?_⟩
    · refine le_trans ?_ le
      rw [value, le_add_iff_nonneg_right]
      exact mul_nonneg choice.improves.le
        (next.nonneg _ ((mem_lines_pivot choice.at_row).2 (.inl rfl)))
    · rcases basic i hi with old | lt
      · rcases (h.canonical.isBasic_pivot choice.at_row i).1 old with rfl | old
        · exact .inr choice.column_lt
        · exact .inl old.1
      · exact .inr lt

theorem optimize_run (run : Run allowed n t d t' d') (budget : Nat) :
    optimize allowed (n + budget) t d = optimize allowed budget t' d' := by
  induction run with
  | refl => rw [Nat.zero_add]
  | @step n r j t t' d d' move rest ih =>
    rw [Nat.add_right_comm, optimize, move]
    exact ih

/-- `optimize` follows a run to its end, or until its budget is spent. -/
theorem optimize_eq (allowed budget : Nat) (t : Tableau) (d : Row) :
    ∃ n ≤ budget, ∃ t' d', Run allowed n t d t' d' ∧
      ((t'.move d' allowed = .stop ∧ optimize allowed budget t d = .optimal t' (budget - n)) ∨
        (t'.move d' allowed = .escape ∧ optimize allowed budget t d = .unbounded) ∨
        (n = budget ∧ (∃ r j, t'.move d' allowed = .pivot r j) ∧
          optimize allowed budget t d = .exhausted)) := by
  induction budget generalizing t d with
  | zero =>
    refine ⟨0, le_rfl, t, d, .refl t d, ?_⟩
    rw [optimize]
    cases move : t.move d allowed with
    | stop => exact .inl ⟨rfl, rfl⟩
    | escape => exact .inr (.inl ⟨rfl, rfl⟩)
    | pivot r j => exact .inr (.inr ⟨rfl, ⟨r, j, rfl⟩, rfl⟩)
  | succ budget ih =>
    rw [optimize]
    cases move : t.move d allowed with
    | stop => exact ⟨0, Nat.zero_le _, t, d, .refl t d, .inl ⟨move, rfl⟩⟩
    | escape => exact ⟨0, Nat.zero_le _, t, d, .refl t d, .inr (.inl ⟨move, rfl⟩)⟩
    | pivot r j =>
      obtain ⟨n, le, t', d', run, outcome⟩ := ih (t.pivot r j) ((t.pivot r j).updateReduced d r j)
      refine ⟨n + 1, Nat.succ_le_succ le, t', d', .step move run, ?_⟩
      rw [Nat.succ_sub_succ, Nat.add_left_inj]
      exact outcome

/-! ## Where a run ends -/

theorem Ready.le_of_stop (h : t.Ready costs d) (stop : t.move d allowed = .stop) {y : Row}
    (holds : t.Holds y) (nonneg : ∀ i, 0 ≤ Row.entry y i)
    (zero : ∀ i < t.columns, allowed ≤ i → Row.entry y i = 0) :
    Row.dot costs y ≤ Row.dot costs t.point := by
  rw [h.reduced.eval y holds, add_le_iff_nonpos_left, Row.dot_eq_sum h.reduced.width.le]
  refine Finset.sum_nonpos fun i hi => ?_
  rcases Nat.lt_or_ge i allowed with lt | ge
  · exact mul_nonpos_of_nonpos_of_nonneg (move_eq_stop stop lt) (nonneg i)
  · rw [zero i (Finset.mem_range.1 hi) ge, mul_zero]

/-- The row of the values of all columns when column `j` is raised by `step` from the basic
solution. -/
def raised (t : Tableau) (j : Nat) (step : Rat) : Row :=
  (List.range t.columns).map fun i => t.value i + step * Row.entry (t.direction j) i

theorem entry_raised {i : Nat} (h : i < t.columns) (j : Nat) (step : Rat) :
    Row.entry (t.raised j step) i = t.value i + step * Row.entry (t.direction j) i :=
  Row.entry_map_range h _

theorem dot_raised {a : Row} (width : a.length = t.columns) (j : Nat) (step : Rat) :
    Row.dot a (t.raised j step) = Row.dot a t.point + step * Row.dot a (t.direction j) := by
  simp only [Row.dot_eq_sum width.le]
  rw [Finset.mul_sum, ← Finset.sum_add_distrib]
  refine Finset.sum_congr rfl fun i hi => ?_
  rw [entry_raised (Finset.mem_range.1 hi), entry_point (Finset.mem_range.1 hi)]
  ring

theorem Canonical.holds_raised (h : t.Canonical) (hj : j < t.columns) (step : Rat) :
    t.Holds (t.raised j step) := by
  intro l hl
  rw [Line.Holds, dot_raised (h.width l hl), h.holds_point l hl, h.dot_entries_direction hl hj,
    mul_zero, add_zero]

/-- Only the raised column counts for the reduced costs. -/
theorem Ready.dot_direction (h : t.Ready costs d) (hj : j < t.columns) :
    Row.dot d (t.direction j) = Row.entry d j := by
  rw [h.canonical.dot_direction h.reduced.width hj, sum_basic_eq_zero h.reduced.basic, sub_zero]

/-- What raising a column brings is its reduced cost. -/
theorem Ready.dot_costs_raised (h : t.Ready costs d) (hj : j < t.columns) (step : Rat) :
    Row.dot costs (t.raised j step) = Row.dot costs t.point + step * Row.entry d j := by
  rw [h.reduced.eval _ (h.canonical.holds_raised hj step), dot_raised h.reduced.width,
    h.canonical.dot_point_eq_zero h.reduced.width h.reduced.basic, h.dot_direction hj]
  ring

theorem Ready.exists_of_escape (h : t.Ready costs d) (escape : t.move d allowed = .escape)
    (bound : allowed ≤ t.columns) (basis : ∀ i, t.IsBasic i → i < allowed) (limit : Rat) :
    ∃ y, t.Holds y ∧ (∀ i, 0 ≤ Row.entry y i) ∧
      (∀ i, allowed ≤ i → Row.entry y i = 0) ∧ limit < Row.dot costs y := by
  obtain ⟨j, hj, improves, nonpos⟩ := move_eq_escape escape
  have hj' := hj.trans_le bound
  -- Far enough along the column, what it contributes outweighs the gap to the limit.
  obtain ⟨step, step_nonneg, far⟩ : ∃ step : Rat, 0 ≤ step ∧
      limit - Row.dot costs t.point < step * Row.entry d j := by
    refine ⟨|limit - Row.dot costs t.point| / Row.entry d j + 1, ?_, ?_⟩
    · have := div_nonneg (abs_nonneg (limit - Row.dot costs t.point)) improves.le
      linarith
    · rw [add_mul, div_mul_cancel₀ _ improves.ne', one_mul]
      exact (le_abs_self _).trans_lt (lt_add_of_pos_right _ improves)
  have not_basic : ¬t.IsBasic j := fun basic => improves.ne' (h.reduced.basic j basic)
  refine ⟨t.raised j step, h.canonical.holds_raised hj' step, fun i => ?_, fun i hi => ?_, ?_⟩
  · rcases Nat.lt_or_ge i t.columns with lt | ge
    · rw [entry_raised lt, entry_direction lt]
      refine add_nonneg (h.value_nonneg i) (mul_nonneg step_nonneg (sub_nonneg.2 ?_))
      by_cases basic : t.IsBasic i
      · obtain ⟨l, hl, rfl⟩ := basic
        rw [h.canonical.spread_basic _ hl, if_neg fun e => not_basic ⟨l, hl, e⟩]
        exact nonpos l hl
      · rw [spread_of_not_basic basic]
        split <;> norm_num
    · exact (Row.entry_of_le (by rwa [raised, List.length_map, List.length_range])).ge
  · rcases Nat.lt_or_ge i t.columns with lt | ge
    · have out : ¬t.IsBasic i := fun basic => absurd (basis i basic) (not_lt.2 hi)
      rw [entry_raised lt, entry_direction lt, value_of_not_basic out, spread_of_not_basic out,
        if_neg (by omega), sub_zero, mul_zero, add_zero]
    · exact Row.entry_of_le (by rwa [raised, List.length_map, List.length_range])
  · rw [h.dot_costs_raised hj']
    linarith

end Prevision.Tableau
