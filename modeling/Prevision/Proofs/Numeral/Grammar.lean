import Mathlib.Algebra.Order.Field.Rat
import Mathlib.Data.List.TakeWhile
import Mathlib.Data.Nat.Digits.Defs
import Prevision.Numeral.Quantity

/-!
# The grammar of numerals

A text is a numeral for a rational number (`Numeral.Writes`) if it is a fraction of two
integers or a decimal with an optional exponent, with blanks at its ends. The relation says
how the parts of a numeral stand together and which number each of them is; it does not say
how a text is taken apart. A text is read as a number exactly if it is a numeral for it
(`Numeral.parse?_eq_some`), so it is a numeral for one number at most, and a text that is no
numeral is reported as it was given (`Quantity.toRational_text_iff_writes`).
-/

namespace Prevision

/-! ## Trimmed texts -/

namespace Text

/-- The text without the blanks at its ends: what is left begins and ends with no blank. -/
structure Trimmed (cs t : List Char) : Prop where
  ends : ∃ before after, cs = before ++ (t ++ after) ∧ (∀ c ∈ before, isBlank c = true) ∧
    ∀ c ∈ after, isBlank c = true
  first : ∀ c ∈ t.head?, isBlank c = false
  last : ∀ c ∈ t.getLast?, isBlank c = false

variable {cs t before after : List Char}

theorem not_isBlank_of_head? (cs : List Char) : ∀ c ∈ (cs.dropWhile isBlank).head?, isBlank c = false := by
  intro c hc
  have first := List.head?_dropWhile_not isBlank cs
  rwa [hc] at first

theorem dropWhile_blanks (blanks : ∀ c ∈ before, isBlank c = true)
    (first : ∀ c ∈ t.head?, isBlank c = false) :
    (before ++ t).dropWhile isBlank = t := by
  rw [List.dropWhile_append_of_pos blanks]
  cases t with
  | nil => rfl
  | cons c t => rw [List.dropWhile_cons, first c rfl, if_neg Bool.false_ne_true]

theorem trimEnd_append (blanks : ∀ c ∈ after, isBlank c = true) (last : ∀ c ∈ t.getLast?, isBlank c = false) :
    trimEnd (t ++ after) = t := by
  have blanks' : ∀ c ∈ after.reverse, isBlank c = true := fun c hc => blanks c (List.mem_reverse.1 hc)
  rw [trimEnd, List.reverse_append, dropWhile_blanks blanks', List.reverse_reverse]
  rwa [List.head?_reverse]

/-- There is one way to take the blanks off the ends of a text. -/
theorem Trimmed.eq_trim (h : Trimmed cs t) : t = trim cs := by
  obtain ⟨⟨before, after, rfl, blanks, blanks'⟩, first, last⟩ := h
  cases t with
  | nil =>
    have all : (before ++ ([] ++ after)).dropWhile isBlank = [] := by
      rw [List.nil_append, List.dropWhile_append_of_pos blanks]
      exact List.dropWhile_eq_nil_iff.2 blanks'
    rw [trim, all]
    rfl
  | cons c t => rw [trim, dropWhile_blanks (t := c :: t ++ after) blanks first, trimEnd_append blanks' last]

theorem exists_trimEnd (cs : List Char) :
    ∃ after, cs = trimEnd cs ++ after ∧ (∀ c ∈ after, isBlank c = true) ∧
    ∀ c ∈ (trimEnd cs).getLast?, isBlank c = false := by
  refine ⟨(cs.reverse.takeWhile isBlank).reverse, ?_, fun c hc => ?_, fun c hc => ?_⟩
  · rw [trimEnd, ← List.reverse_append, List.takeWhile_append_dropWhile, List.reverse_reverse]
  · exact List.all_eq_true.1 List.all_takeWhile c (List.mem_reverse.1 hc)
  · rw [trimEnd, List.getLast?_reverse] at hc
    exact not_isBlank_of_head? cs.reverse c hc

theorem trimmed_trim (cs : List Char) : Trimmed cs (trim cs) := by
  obtain ⟨after, parts, blanks, last⟩ := exists_trimEnd (cs.dropWhile isBlank)
  refine ⟨⟨cs.takeWhile isBlank, after, ?_, List.all_eq_true.1 List.all_takeWhile, blanks⟩,
    fun c hc => ?_, last⟩
  · rw [trim, ← parts, List.takeWhile_append_dropWhile]
  · refine not_isBlank_of_head? cs c ?_
    rw [parts, List.head?_append, show (trimEnd (cs.dropWhile isBlank)).head? = some c from hc]
    rfl

/-- A text is trimmed to what its blanks at the ends leave. -/
theorem trimmed_iff : Trimmed cs t ↔ t = trim cs := ⟨Trimmed.eq_trim, fun same => same ▸ trimmed_trim cs⟩

end Text

namespace Numeral

/-! ## The grammar -/

/-- The number that a list of digits writes, the last of which counts ones. -/
def digitsNumber (ds : List Char) : ℕ := Nat.ofDigits 10 (ds.reverse.map fun d => d.toNat - '0'.toNat)

/-- An optional sign, and the factor that it stands for. -/
inductive IsSign : List Char → ℤ → Prop
  | missing : IsSign [] 1
  | plus : IsSign ['+'] 1
  | minus : IsSign ['-'] (-1)

/-- An integer beside a bar: an optional sign, a digit, and then digits and underscores, which are ignored. -/
inductive IsInteger : List Char → ℤ → Prop
  | signed {sign : List Char} {s : ℤ} {first : Char} {rest : List Char} :
      IsSign sign s → first.isDigit = true →
      (∀ c ∈ rest, c.isDigit = true ∨ c = '_') →
      IsInteger (sign ++ first :: rest) (s * digitsNumber ((first :: rest).filter (· ≠ '_')))

/-- An integer that fits in 64 bits with a sign. -/
def FitsInt64 (z : ℤ) : Prop := -2 ^ 63 ≤ z ∧ z < 2 ^ 63

/-- An exponent: an optional sign and one or more digits. -/
inductive IsExponent : List Char → ℤ → Prop
  | signed {sign digits : List Char} {s : ℤ} :
      IsSign sign s → digits ≠ [] → (∀ c ∈ digits, c.isDigit = true) →
      IsExponent (sign ++ digits) (s * digitsNumber digits)

/-- An optional exponent with its mark, zero if it is missing. -/
inductive IsScale : List Char → ℤ → Prop
  | missing : IsScale [] 0
  | marked {mark : Char} {cs : List Char} {e : ℤ} :
      mark = 'e' ∨ mark = 'E' → IsExponent cs e → IsScale (mark :: cs) e

/-- Digits, and optionally a point and digits, with at least one digit on either side. -/
inductive IsMantissa : List Char → List Char → List Char → Prop
  | whole {whole : List Char} : whole ≠ [] → (∀ c ∈ whole, c.isDigit = true) → IsMantissa whole whole []
  | point {whole fraction : List Char} :
      whole ++ fraction ≠ [] → (∀ c ∈ whole ++ fraction, c.isDigit = true) →
      IsMantissa (whole ++ '.' :: fraction) whole fraction

/-- A decimal: an optional sign, digits with at most one point, and an optional exponent. -/
inductive IsDecimal : List Char → ℚ → Prop
  | signed {sign mantissa whole fraction scale : List Char} {s e : ℤ} : IsSign sign s →
      IsMantissa mantissa whole fraction → IsScale scale e → FitsInt64 e → FitsInt64 (e - fraction.length) →
      IsDecimal (sign ++ (mantissa ++ scale))
        (s * digitsNumber (whole ++ fraction) * 10 ^ (e - fraction.length))

/-- A fraction with integers on both sides of its first bar, the lower of them not zero, or a decimal. -/
inductive IsNumeral : List Char → ℚ → Prop
  | fraction {before after upper lower : List Char} {n d : ℤ} : '/' ∉ before → Text.Trimmed before upper →
      Text.Trimmed after lower → IsInteger upper n → IsInteger lower d → d ≠ 0 →
      IsNumeral (before ++ '/' :: after) (n / d)
  | decimal {cs : List Char} {q : ℚ} : '/' ∉ cs → IsDecimal cs q → IsNumeral cs q

/-- The text is a numeral for the number, with blanks at its ends. -/
def Writes (s : String) (q : ℚ) : Prop := ∃ t, Text.Trimmed s.toList t ∧ IsNumeral t q

variable {cs before after sign body digits ds whole fraction : List Char} {s z e n d : ℤ} {q : ℚ} {c : Char}
  {negative : Bool}

/-! ## Integers -/

theorem digitsValue_eq (ds : List Char) : digitsValue ds = digitsNumber ds := by
  rw [digitsNumber, Nat.ofDigits_eq_foldr, List.foldr_map, List.foldr_reverse, digitsValue]
  refine congrArg (fun step => ds.foldl step 0) (funext fun n => funext fun d => ?_)
  simp only [Nat.cast_id]
  exact Nat.add_comm _ _

/-- A text is the sign that is taken off it, and the rest. -/
theorem exists_isSign (split : splitSign cs = (negative, body)) :
    ∃ sign s, cs = sign ++ body ∧ IsSign sign s ∧ ∀ n, signed negative n = s * n := by
  unfold splitSign at split
  split at split <;> obtain ⟨rfl, rfl⟩ := Prod.mk.inj split
  · exact ⟨['-'], -1, rfl, .minus, fun n => (neg_one_mul (n : ℤ)).symm⟩
  · exact ⟨['+'], 1, rfl, .plus, fun n => (one_mul (n : ℤ)).symm⟩
  · exact ⟨[], 1, rfl, .missing, fun n => (one_mul (n : ℤ)).symm⟩

/-- The sign is taken off a text that goes on with no other. -/
theorem exists_splitSign (isSign : IsSign sign s) (unsigned : ∀ c ∈ body.head?, c ≠ '-' ∧ c ≠ '+') :
    ∃ negative, splitSign (sign ++ body) = (negative, body) ∧ ∀ n, signed negative n = s * n := by
  cases isSign with
  | minus => exact ⟨true, rfl, fun n => (neg_one_mul (n : ℤ)).symm⟩
  | plus => exact ⟨false, rfl, fun n => (one_mul (n : ℤ)).symm⟩
  | missing =>
    refine ⟨false, ?_, fun n => (one_mul (n : ℤ)).symm⟩
    rw [List.nil_append]
    unfold splitSign
    split
    · exact absurd rfl (unsigned '-' rfl).1
    · exact absurd rfl (unsigned '+' rfl).2
    · rfl

theorem ne_of_isDigit {other : Char} (digit : c.isDigit = true)
    (noDigit : other.isDigit = false := by decide) :
    c ≠ other := by
  rintro rfl
  exact Bool.false_ne_true (noDigit.symm.trans digit)

theorem unsigned_of_isDigit (digit : ∀ c ∈ body.head?, c.isDigit = true) :
    ∀ c ∈ body.head?, c ≠ '-' ∧ c ≠ '+' :=
  fun c hc => ⟨ne_of_isDigit (digit c hc), ne_of_isDigit (digit c hc)⟩

theorem filter_isDigit (grouped : ∀ c ∈ cs, c.isDigit = true ∨ c = '_') :
    cs.filter Char.isDigit = cs.filter (· ≠ '_') := by
  refine List.filter_congr fun c hc => ?_
  rcases grouped c hc with digit | rfl
  · rw [digit, decide_eq_true (ne_of_isDigit digit)]
  · rfl

theorem integer?_eq_some : integer? cs = some z ↔ IsInteger cs z := by
  constructor
  · intro read
    rcases split : splitSign cs with ⟨negative, body⟩
    obtain ⟨sign, s, rfl, isSign, value⟩ := exists_isSign split
    rw [integer?, split] at read
    cases body with
    | nil => cases read
    | cons first rest =>
      obtain ⟨accepted, read⟩ := Option.ite_none_right_eq_some.1 read
      simp only [Bool.and_eq_true, List.all_eq_true, Bool.or_eq_true, beq_iff_eq] at accepted
      obtain ⟨digit, grouped⟩ := accepted
      obtain rfl := Option.some.inj read
      rw [value, digitsValue_eq, filter_isDigit (List.forall_mem_cons.2 ⟨.inl digit, grouped⟩)]
      exact .signed isSign digit grouped
  · rintro ⟨isSign, digit, grouped⟩
    rename_i sign s first rest
    -- The first character is a digit, so the sign that is split off is the one that stands there.
    have unsigned : ∀ c ∈ (first :: rest).head?, c ≠ '-' ∧ c ≠ '+' :=
      unsigned_of_isDigit fun c hc => Option.mem_some.1 hc ▸ digit
    obtain ⟨negative, split, value⟩ := exists_splitSign isSign unsigned
    rw [integer?, split, ← filter_isDigit (List.forall_mem_cons.2 ⟨.inl digit, grouped⟩),
      ← digitsValue_eq, ← value]
    refine if_pos ?_
    simp only [Bool.and_eq_true, List.all_eq_true, Bool.or_eq_true, beq_iff_eq]
    exact ⟨digit, grouped⟩

/-! ## Decimals -/

theorem fitsInt64_iff : fitsInt64 z = true ↔ FitsInt64 z := by
  rw [fitsInt64, Bool.and_eq_true, decide_eq_true_iff, decide_eq_true_iff, FitsInt64]
  omega

theorem exponent?_eq_some : exponent? cs = some e ↔ IsExponent cs e ∧ FitsInt64 e := by
  constructor
  · intro read
    rcases split : splitSign cs with ⟨negative, digits⟩
    obtain ⟨sign, s, rfl, isSign, value⟩ := exists_isSign split
    rw [exponent?, split] at read
    obtain ⟨accepted, read⟩ := Option.ite_none_right_eq_some.1 read
    simp only [Bool.and_eq_true, Bool.not_eq_true', List.isEmpty_eq_false_iff, List.all_eq_true] at accepted
    obtain ⟨⟨some, digit⟩, fits⟩ := accepted
    obtain rfl := Option.some.inj read
    refine ⟨?_, fitsInt64_iff.1 fits⟩
    rw [value, digitsValue_eq]
    exact .signed isSign some digit
  · rintro ⟨⟨isSign, some, digit⟩, fits⟩
    rename_i sign digits s
    have unsigned : ∀ c ∈ digits.head?, c ≠ '-' ∧ c ≠ '+' :=
      unsigned_of_isDigit fun c hc => digit c (List.mem_of_head? hc)
    obtain ⟨negative, split, value⟩ := exists_splitSign isSign unsigned
    rw [← digitsValue_eq, ← value] at fits ⊢
    rw [exponent?, split]
    refine if_pos ?_
    simp only [Bool.and_eq_true, Bool.not_eq_true', List.isEmpty_eq_false_iff, List.all_eq_true]
    exact ⟨⟨some, digit⟩, fitsInt64_iff.2 fits⟩

theorem splitAtFirst_eq_none {p : Char → Bool} : splitAtFirst p cs = none ↔ ∀ c ∈ cs, p c = false := by
  have dropped : splitAtFirst p cs = none ↔ cs.dropWhile (!p ·) = [] := by
    unfold splitAtFirst
    cases cs.dropWhile (!p ·) <;> simp
  rw [dropped, List.dropWhile_eq_nil_iff]
  simp only [Bool.not_eq_true']

theorem power_eq_zpow (base : ℕ) (e : ℤ) : power base e = (base : ℚ) ^ e := by
  unfold power
  split
  · next nonneg =>
    obtain ⟨k, rfl⟩ := Int.eq_ofNat_of_zero_le nonneg
    simp
  · next negative =>
    obtain ⟨k, rfl⟩ : ∃ k : ℕ, e = -k := ⟨(-e).toNat, by omega⟩
    simp [Rat.divInt_eq_div]

/-- The halves of a mantissa are its digits around the point. -/
theorem mantissa?_eq_some : mantissa? cs = some (whole, fraction) ↔ IsMantissa cs whole fraction := by
  constructor
  · intro read
    rcases split : (splitAtFirst (· == '.') cs).getD (cs, []) with ⟨before, after⟩
    rw [mantissa?, split] at read
    obtain ⟨some, read⟩ := Option.ite_none_left_eq_some.1 read
    obtain ⟨digit, read⟩ := Option.ite_none_right_eq_some.1 read
    rw [List.isEmpty_iff] at some
    rw [List.all_eq_true] at digit
    obtain ⟨rfl, rfl⟩ := Prod.mk.inj (Option.some.inj read)
    rcases point : splitAtFirst (· == '.') cs with _ | ⟨w, f⟩ <;> rw [point] at split <;>
      obtain ⟨rfl, rfl⟩ := Prod.mk.inj split
    · rw [List.append_nil] at some digit
      exact .whole some digit
    · obtain ⟨c, rfl, same, -⟩ := splitAtFirst_eq_some.1 point
      rw [beq_iff_eq.1 same]
      exact .point some digit
  · intro mantissa
    have split : (splitAtFirst (· == '.') cs).getD (cs, []) = (whole, fraction) ∧ whole ++ fraction ≠ [] ∧
        ∀ c ∈ whole ++ fraction, c.isDigit = true := by
      cases mantissa with
      | whole some digit =>
        rw [splitAtFirst_eq_none.2 fun c hc => beq_eq_false_iff_ne.2 (ne_of_isDigit (digit c hc)),
          List.append_nil]
        exact ⟨rfl, some, digit⟩
      | point some digit =>
        rw [splitAtFirst_eq_some.2 ⟨'.', rfl, rfl, fun c hc =>
          beq_eq_false_iff_ne.2 (ne_of_isDigit (digit c (List.mem_append_left _ hc)))⟩]
        exact ⟨rfl, some, digit⟩
    obtain ⟨split, some, digit⟩ := split
    rw [mantissa?, split]
    dsimp only
    rw [if_neg (mt List.isEmpty_iff.1 some), if_pos (List.all_eq_true.2 digit)]

theorem IsSign.ne_mark (isSign : IsSign sign s) : ∀ c ∈ sign, (c == 'e' || c == 'E') = false := by
  cases isSign with
  | missing => exact fun c hc => absurd hc List.not_mem_nil
  | plus => exact List.forall_mem_singleton.2 rfl
  | minus => exact List.forall_mem_singleton.2 rfl

theorem IsMantissa.ne_mark (mantissa : IsMantissa cs whole fraction) :
    ∀ c ∈ cs, (c == 'e' || c == 'E') = false := by
  have digits {ds : List Char} (digit : ∀ c ∈ ds, c.isDigit = true) :
      ∀ c ∈ ds, (c == 'e' || c == 'E') = false :=
    fun c hc => Bool.or_eq_false_iff.2
      ⟨beq_eq_false_iff_ne.2 (ne_of_isDigit (digit c hc)), beq_eq_false_iff_ne.2 (ne_of_isDigit (digit c hc))⟩
  cases mantissa with
  | whole some digit => exact digits digit
  | point some digit =>
    obtain ⟨before, after⟩ := List.forall_mem_append.1 (digits digit)
    exact List.forall_mem_append.2 ⟨before, List.forall_mem_cons.2 ⟨rfl, after⟩⟩

theorem IsMantissa.unsigned (mantissa : IsMantissa cs whole fraction) :
    ∀ c ∈ cs.head?, c ≠ '-' ∧ c ≠ '+' := by
  cases mantissa with
  | whole some digit => exact unsigned_of_isDigit fun c hc => digit c (List.mem_of_head? hc)
  | point some digit =>
    cases whole with
    | nil => rintro c ⟨⟩; decide
    | cons d whole => exact unsigned_of_isDigit fun c hc => digit c (Option.mem_some.1 hc ▸ .head _)

/-- Reads a decimal without its exponent, at the scale of the exponent. -/
def scaled? (cs : List Char) (e : ℤ) : Option ℚ := do
  let (whole, fraction) ← mantissa? (splitSign cs).2
  if fitsInt64 (e - fraction.length) then
    some (signed (splitSign cs).1 (digitsValue (whole ++ fraction)) * power 10 (e - fraction.length))
  else none

theorem scaled?_eq_some : scaled? cs e = some q ↔ ∃ sign mantissa whole fraction s, cs = sign ++ mantissa ∧
    IsSign sign s ∧ IsMantissa mantissa whole fraction ∧ FitsInt64 (e - fraction.length) ∧
    q = s * digitsNumber (whole ++ fraction) * 10 ^ (e - fraction.length) := by
  have ten (z : ℤ) : power 10 z = (10 : ℚ) ^ z := power_eq_zpow 10 z
  constructor
  · intro read
    rcases split : splitSign cs with ⟨negative, digits⟩
    obtain ⟨sign, s, rfl, isSign, value⟩ := exists_isSign split
    rw [scaled?, split] at read
    obtain ⟨⟨whole, fraction⟩, mantissa, read⟩ := Option.bind_eq_some_iff.1 read
    obtain ⟨fits, read⟩ := Option.ite_none_right_eq_some.1 read
    obtain rfl := Option.some.inj read
    refine ⟨sign, digits, whole, fraction, s, rfl, isSign, mantissa?_eq_some.1 mantissa,
      fitsInt64_iff.1 fits, ?_⟩
    rw [value, digitsValue_eq, ten, Int.cast_mul, Int.cast_natCast]
  · rintro ⟨sign, mantissa, whole, fraction, s, rfl, isSign, isMantissa, fits, rfl⟩
    obtain ⟨negative, split, value⟩ := exists_splitSign isSign isMantissa.unsigned
    rw [scaled?, split]
    refine Option.bind_eq_some_iff.2 ⟨(whole, fraction), mantissa?_eq_some.2 isMantissa, ?_⟩
    dsimp only
    rw [if_pos (fitsInt64_iff.2 fits), value, digitsValue_eq, ten, Int.cast_mul, Int.cast_natCast]

/-- The exponent is what follows the first mark. -/
theorem decimal?_eq (cs : List Char) :
    decimal? cs = match splitAtFirst (fun c => c == 'e' || c == 'E') cs with
    | some (body, tail) => (exponent? tail).bind (scaled? body)
    | none => scaled? cs 0 := by
  unfold decimal?
  rcases splitAtFirst (fun c => c == 'e' || c == 'E') cs with _ | ⟨body, tail⟩
  · rfl
  · dsimp only
    cases exponent? tail <;> rfl

theorem decimal?_eq_some : decimal? cs = some q ↔ IsDecimal cs q := by
  rw [decimal?_eq]
  constructor
  · intro read
    rcases split :
        splitAtFirst (fun c => c == 'e' || c == 'E') cs with _ | ⟨body, tail⟩ <;> rw [split] at read
    · obtain ⟨sign, mantissa, whole, fraction, s, rfl, isSign, isMantissa, fits, rfl⟩ :=
        scaled?_eq_some.1 read
      rw [← List.append_nil mantissa]
      exact .signed isSign isMantissa .missing ⟨by decide, by decide⟩ fits
    · obtain ⟨e, readExponent, read⟩ := Option.bind_eq_some_iff.1 read
      obtain ⟨isExponent, fits⟩ := exponent?_eq_some.1 readExponent
      obtain ⟨sign, mantissa, whole, fraction, s, rfl, isSign, isMantissa, fits', rfl⟩ :=
        scaled?_eq_some.1 read
      obtain ⟨mark, rfl, isMark, -⟩ := splitAtFirst_eq_some.1 split
      rw [Bool.or_eq_true, beq_iff_eq, beq_iff_eq] at isMark
      rw [List.append_assoc]
      exact .signed isSign isMantissa (.marked isMark isExponent) fits fits'
  · rintro ⟨isSign, isMantissa, isScale, fits, fits'⟩
    rename_i sign mantissa whole fraction scale s e
    -- Neither a sign nor a mantissa has a mark, so the first mark begins the scale.
    have unmarked := List.forall_mem_append.2 ⟨isSign.ne_mark, isMantissa.ne_mark⟩
    have read := scaled?_eq_some.2 ⟨sign, mantissa, whole, fraction, s, rfl, isSign, isMantissa, fits', rfl⟩
    cases isScale with
    | missing =>
      rw [List.append_nil, splitAtFirst_eq_none.2 unmarked]
      exact read
    | marked isMark isExponent =>
      rename_i mark tail
      have found : (mark == 'e' || mark == 'E') = true := by rwa [Bool.or_eq_true, beq_iff_eq, beq_iff_eq]
      rw [← List.append_assoc, splitAtFirst_eq_some.2 ⟨mark, rfl, found, unmarked⟩]
      exact Option.bind_eq_some_iff.2 ⟨e, exponent?_eq_some.2 ⟨isExponent, fits⟩, read⟩

/-! ## Numerals -/

theorem fraction?_eq_some : fraction? before after = some q ↔
    ∃ n d, IsInteger (Text.trim before) n ∧ IsInteger (Text.trim after) d ∧ d ≠ 0 ∧ q = n / d := by
  constructor
  · intro read
    obtain ⟨n, upper, read⟩ := Option.bind_eq_some_iff.1 read
    obtain ⟨d, lower, read⟩ := Option.bind_eq_some_iff.1 read
    obtain ⟨nonzero, read⟩ := Option.ite_none_left_eq_some.1 read
    obtain rfl := Option.some.inj read
    exact ⟨n, d, integer?_eq_some.1 upper, integer?_eq_some.1 lower, nonzero, Rat.divInt_eq_div n d⟩
  · rintro ⟨n, d, upper, lower, nonzero, rfl⟩
    refine Option.bind_eq_some_iff.2 ⟨n, integer?_eq_some.2 upper, ?_⟩
    refine Option.bind_eq_some_iff.2 ⟨d, integer?_eq_some.2 lower, ?_⟩
    rw [if_neg nonzero, Rat.divInt_eq_div]

theorem slash_notMem_iff : '/' ∉ cs ↔ ∀ c ∈ cs, (c == '/') = false := by
  simp only [beq_eq_false_iff_ne]
  exact ⟨fun absent c hc same => absent (same ▸ hc), fun other hc => other _ hc rfl⟩

/-- What is read as a number are the numerals for it. -/
theorem parse?_eq_some {s : String} : parse? s = some q ↔ Writes s q := by
  have read : Writes s q ↔ IsNumeral (Text.trim s.toList) q := by
    simp only [Writes, Text.trimmed_iff, exists_eq_left]
  rw [read, parse?]
  generalize Text.trim s.toList = cs
  constructor
  · intro read
    rcases split : splitAtFirst (· == '/') cs with _ | ⟨before, after⟩ <;> rw [split] at read
    · exact .decimal (slash_notMem_iff.2 (splitAtFirst_eq_none.1 split)) (decimal?_eq_some.1 read)
    · obtain ⟨c, rfl, same, absent⟩ := splitAtFirst_eq_some.1 split
      obtain ⟨n, d, upper, lower, nonzero, rfl⟩ := fraction?_eq_some.1 read
      rw [beq_iff_eq.1 same]
      have absent := slash_notMem_iff.2 absent
      exact .fraction absent (Text.trimmed_trim before) (Text.trimmed_trim after) upper lower nonzero
  · intro numeral
    cases numeral with
    | decimal absent isDecimal =>
      rw [splitAtFirst_eq_none.2 (slash_notMem_iff.1 absent)]
      exact decimal?_eq_some.2 isDecimal
    | fraction absent upper lower isUpper isLower nonzero =>
      rw [splitAtFirst_eq_some.2 ⟨'/', rfl, rfl, slash_notMem_iff.1 absent⟩]
      rw [upper.eq_trim] at isUpper
      rw [lower.eq_trim] at isLower
      exact fraction?_eq_some.2 ⟨_, _, isUpper, isLower, nonzero, rfl⟩

example : Writes " -2.5E+3 " (-2500) ∧ Writes "1_0 / -4" (-5 / 2) :=
  ⟨parse?_eq_some.1 (by decide +kernel), parse?_eq_some.1 (by decide +kernel)⟩

end Numeral

/-- A text stands for a number exactly if it is a numeral for it, and a text that is a numeral for none is no
rational. -/
theorem Quantity.toRational_text_iff_writes (s : String) :
    (∀ q, (Quantity.text s).toRational = .ok q ↔ Numeral.Writes s q) ∧
      ((Quantity.text s).toRational = .error (.notARational s) ↔ ¬∃ q, Numeral.Writes s q) := by
  simp only [← Numeral.parse?_eq_some, Quantity.toRational]
  cases Numeral.parse? s with
  | none => simp
  | some q => simp

end Prevision
