import GoFlow.Literal.Guess
import GoFlow.Proofs.Matching
import Mathlib.Tactic.IntervalCases

/-! Integer literals and the numbers they denote, and the types that are guessed for them. The
number is given digit by digit, by a relation that knows nothing of the patterns; they match just
the literals and the bare marks of a base. -/

namespace GoFlow

namespace LiteralType

def integers : List LiteralType := [.int8, .int32, .int64]

def bits : LiteralType → Nat
  | int8 => 8
  | int32 => 32
  | int64 => 64
  | _ => 0

/-- The type has room for the number, and no narrower one has. -/
def Narrowest (t : LiteralType) (n : Nat) : Prop :=
  t ∈ integers ∧ n ≤ 2 ^ (t.bits - 1) - 1 ∧ ∀ u ∈ integers, n ≤ 2 ^ (u.bits - 1) - 1 →
    t.bits ≤ u.bits

end LiteralType

namespace Literal

open Pattern Text

namespace Base

/-- The letters of which one follows the zero that begins a literal in the base. A decimal literal
has none. -/
def marks : Base → String
  | binary => "bB"
  | octal => "oO"
  | decimal => ""
  | hex => "xX"

/-- The character is a digit of the base for the number, a letter being small or capital. -/
def Digit (b : Base) (c : Char) (d : Nat) : Prop :=
  d < b.radix ∧ (c = d.digitChar ∨ c = d.digitChar.toUpper)

/-- Digits that continue a number, each with at most one underscore before it, and the number they
lead to. -/
inductive Continues (b : Base) : Nat → List Char → Nat → Prop
  | done {n : Nat} : Continues b n [] n
  | digit {n m d : Nat} {gap cs : List Char} {c : Char} (spaced : gap = [] ∨ gap = ['_'])
      (digit : b.Digit c d)
      (more : Continues b (n * b.radix + d) cs m) : Continues b n (gap ++ c :: cs) m

end Base

/-- The text is an integer literal in the base and denotes the number. A decimal literal has no zero
before other digits; any other one has a zero, a mark and at least one digit. -/
inductive Numeral : Base → List Char → Nat → Prop
  | zero : Numeral .decimal ['0'] 0
  | decimal {c : Char} {cs : List Char} {d n : Nat} (digit : Base.decimal.Digit c d) (leads : d ≠ 0)
      (more : Base.decimal.Continues d cs n) : Numeral .decimal (c :: cs) n
  | based {b : Base} {mark : Char} {cs : List Char} {n : Nat} (marked : mark ∈ b.marks.toList)
      (filled : cs ≠ []) (more : b.Continues 0 cs n) : Numeral b ('0' :: mark :: cs) n

namespace Base

def isDigit : Base → Char → Bool
  | binary => isBinaryDigit
  | octal => isOctalDigit
  | decimal => isDecimalDigit
  | hex => isHexDigit

variable {b : Base} {c : Char} {n m d : Nat} {cs : List Char}

instance (b : Base) (c : Char) (d : Nat) : Decidable (b.Digit c d) :=
  inferInstanceAs (Decidable (_ ∧ _))

theorem Digit.isDigit (h : b.Digit c d) : b.isDigit c = true ∧ digitValue c = d := by
  obtain ⟨bound, rfl | rfl⟩ := h
  · cases b <;> simp only [radix] at bound <;> interval_cases d <;> decide
  · cases b <;> simp only [radix] at bound <;> interval_cases d <;> decide

theorem isHexDigit_of_isDigit (h : b.isDigit c = true) : isHexDigit c = true := by
  cases b with
  | binary =>
      rcases Bool.or_eq_true_iff.mp h with same | same
      · exact (eq_of_beq same) ▸ by decide
      · exact (eq_of_beq same) ▸ by decide
  | octal =>
      simp only [isDigit, isOctalDigit, Bool.and_eq_true, decide_eq_true_eq] at h
      have decimal : isDecimalDigit c = true := by
        simpa [isDecimalDigit] using And.intro h.1 (Char.le_trans h.2 (by decide))
      simp [isHexDigit, decimal]
  | decimal => simp [isHexDigit, show isDecimalDigit c = true from h]
  | hex => exact h

theorem ascii_of_isDigit (h : b.isDigit c = true) : c.toNat < 128 := by
  have below {last : Char} (le : c ≤ last) (ascii : last.toNat < 128) : c.toNat < 128 :=
    Nat.lt_of_le_of_lt le ascii
  have ranges := isHexDigit_of_isDigit h
  simp only [isHexDigit, isDecimalDigit, Bool.or_eq_true, Bool.and_eq_true, decide_eq_true_eq]
    at ranges
  rcases ranges with (⟨_, le⟩ | ⟨_, le⟩) | ⟨_, le⟩
  · exact below le (by decide)
  · exact below le (by decide)
  · exact below le (by decide)

theorem digit_of_isDigit (h : b.isDigit c = true) : b.Digit c (digitValue c) := by
  have all : ∀ k < 128, b.isDigit (Char.ofNat k) = true →
      b.Digit (Char.ofNat k) (digitValue (Char.ofNat k)) := by
    cases b <;> decide +kernel
  exact of_ascii (P := fun c => b.isDigit c = true → b.Digit c (digitValue c))
    (ascii_of_isDigit h) all h

theorem Digit.ne_underscore (h : b.Digit c d) : c ≠ '_' := by
  rintro rfl
  have none : b.isDigit '_' = false := by cases b <;> decide
  exact absurd h.isDigit.1 (by simp [none])

theorem matches_spacedDigit {isDigit : Char → Bool} {xs : List Char} :
    (spacedDigit isDigit).Matches xs ↔
      ∃ gap c, (gap = [] ∨ gap = ['_']) ∧ isDigit c = true ∧ xs = gap ++ [c] := by
  rw [spacedDigit, matches_seq]
  constructor
  · rintro ⟨gap, last, rfl, before, one⟩
    obtain ⟨c, digit, rfl⟩ := matches_one.mp one
    refine ⟨gap, c, ?_, digit, rfl⟩
    rcases matches_alt.mp before with mark | none
    · obtain ⟨u, same, rfl⟩ := matches_one.mp mark
      exact .inr (by rw [eq_of_beq same])
    · exact .inl (matches_empty.mp none)
  · rintro ⟨gap, c, spaced, digit, rfl⟩
    refine ⟨gap, [c], rfl, ?_, .one digit⟩
    rcases spaced with rfl | rfl
    · exact .right .empty
    · exact .left (.one rfl)

theorem exists_continues (matched : (many (spacedDigit b.isDigit)).Matches cs) (n : Nat) :
    ∃ m, b.Continues n cs m := by
  generalize whole : many (spacedDigit b.isDigit) = p at matched
  induction matched generalizing n with
  | empty | one _ | seq _ _ | left _ | right _ => cases whole
  | none => exact ⟨n, .done⟩
  | more first _ _ ih =>
      cases whole
      obtain ⟨gap, c, spaced, digit, rfl⟩ := matches_spacedDigit.mp first
      obtain ⟨m, rest⟩ := ih (n * b.radix + digitValue c) rfl
      refine ⟨m, ?_⟩
      rw [List.append_assoc]
      exact .digit spaced (digit_of_isDigit digit) rest

namespace Continues

theorem matched (h : b.Continues n cs m) : (many (spacedDigit b.isDigit)).Matches cs := by
  induction h with
  | done => exact .none
  | @digit n m d gap cs c spaced digit _ ih =>
      rw [List.append_cons]
      exact .more (matches_spacedDigit.mpr ⟨gap, c, spaced, digit.isDigit.1, rfl⟩) ih

theorem filter_eq {gap : List Char} (spaced : gap = [] ∨ gap = ['_']) (digit : b.Digit c d) :
    (gap ++ c :: cs).filter (· != '_') = c :: cs.filter (· != '_') := by
  rcases spaced with rfl | rfl <;> simp [digit.ne_underscore]

theorem value (h : b.Continues n cs m) :
    (cs.filter (· != '_')).foldl (fun n d => n * b.radix + digitValue d) n = m := by
  induction h with
  | done => rfl
  | digit spaced digit _ ih => rw [filter_eq spaced digit, List.foldl_cons, digit.isDigit.2, ih]

theorem filled (h : b.Continues n cs m) (text : cs ≠ []) : cs.filter (· != '_') ≠ [] := by
  cases h with
  | done => exact absurd rfl text
  | digit spaced digit _ => simp [filter_eq spaced digit]

theorem le (h : b.Continues n cs m) : n * b.radix ^ (cs.filter (· != '_')).length ≤ m := by
  induction h with
  | done => simp
  | @digit n m d gap cs c spaced digit _ ih =>
      rw [filter_eq spaced digit, List.length_cons, Nat.pow_succ']
      calc n * (b.radix * b.radix ^ (cs.filter (· != '_')).length)
          = n * b.radix * b.radix ^ (cs.filter (· != '_')).length := (Nat.mul_assoc _ _ _).symm
        _ ≤ (n * b.radix + d) * b.radix ^ (cs.filter (· != '_')).length :=
          Nat.mul_le_mul_right _ (Nat.le_add_right _ _)
        _ ≤ m := ih

end Continues

theorem pattern_eq (other : b ≠ .decimal) : b.pattern = basedPattern b.marks b.isDigit := by
  cases b with
  | decimal => exact absurd rfl other
  | binary | octal | hex => rfl

theorem matches_based {marks : String} {isDigit : Char → Bool} :
    (basedPattern marks isDigit).Matches cs ↔
      ∃ mark rest, mark ∈ marks.toList ∧ (many (spacedDigit isDigit)).Matches rest ∧
        cs = '0' :: mark :: rest := by
  rw [show basedPattern marks isDigit = seq (char '0')
    (seq (anyOf marks) (many (spacedDigit isDigit))) from rfl]
  simp only [matches_seq, char, anyOf, matches_one, List.contains_iff_mem, beq_iff_eq]
  constructor
  · rintro ⟨_, _, rfl, ⟨_, rfl, rfl⟩, _, rest, rfl, ⟨mark, marked, rfl⟩, digits⟩
    exact ⟨mark, rest, marked, digits, rfl⟩
  · rintro ⟨mark, rest, marked, digits, rfl⟩
    exact ⟨['0'], mark :: rest, rfl, ⟨'0', rfl, rfl⟩, [mark], rest, rfl,
      ⟨mark, marked, rfl⟩, digits⟩

theorem ne_decimal_of_mark (marked : c ∈ b.marks.toList) : b ≠ .decimal := by
  rintro rfl
  cases marked

theorem Digit.eq_zero_iff (h : b.Digit c d) : d = 0 ↔ c = '0' := by
  constructor
  · rintro rfl
    exact h.2.elim id id
  · rintro rfl
    exact h.isDigit.2.symm

theorem matches_decimal : decimal.pattern.Matches cs ↔ cs = ['0'] ∨
    ∃ c d rest, decimal.Digit c d ∧ d ≠ 0 ∧ (many (spacedDigit decimal.isDigit)).Matches rest ∧
      cs = c :: rest := by
  rw [show decimal.pattern = alt (char '0') (seq (one fun c => decimal.isDigit c && c != '0')
    (many (spacedDigit decimal.isDigit))) from rfl]
  simp only [matches_alt, matches_seq, char, matches_one, Bool.and_eq_true, bne_iff_ne, beq_iff_eq]
  refine or_congr ?_ ?_
  · constructor
    · rintro ⟨_, rfl, rfl⟩
      rfl
    · rintro rfl
      exact ⟨'0', rfl, rfl⟩
  · constructor
    · rintro ⟨_, rest, rfl, ⟨c, ⟨digit, leads⟩, rfl⟩, digits⟩
      have digit := digit_of_isDigit digit
      exact ⟨c, _, rest, digit, fun zero => leads (digit.eq_zero_iff.mp zero), digits, rfl⟩
    · rintro ⟨c, d, rest, digit, leads, digits, rfl⟩
      exact ⟨[c], rest, rfl,
        ⟨c, ⟨digit.isDigit.1, fun zero => leads (digit.eq_zero_iff.mpr zero)⟩, rfl⟩, digits⟩

theorem digits_decimal (cs : List Char) : decimal.digits cs = cs.filter (· != '_') := rfl

theorem digits_based (other : b ≠ .decimal) (zero mark : Char) (cs : List Char) :
    b.digits (zero :: mark :: cs) = cs.filter (· != '_') := by
  rw [digits, if_neg other, List.drop_succ_cons, List.drop_succ_cons, List.drop_zero]

end Base

namespace Numeral

variable {b b' : Base} {cs : List Char} {n m : Nat}

theorem matched (h : Numeral b cs n) : b.pattern.Matches cs := by
  cases h with
  | zero => exact Base.matches_decimal.mpr (.inl rfl)
  | decimal digit leads more =>
      exact Base.matches_decimal.mpr (.inr ⟨_, _, _, digit, leads, more.matched, rfl⟩)
  | based marked filled more =>
      rw [Base.pattern_eq (Base.ne_decimal_of_mark marked)]
      exact Base.matches_based.mpr ⟨_, _, marked, more.matched, rfl⟩

theorem filled (h : Numeral b cs n) : b.digits cs ≠ [] := by
  cases h with
  | zero => decide
  | decimal digit _ _ => simp [Base.digits_decimal, digit.ne_underscore]
  | based marked text more =>
      rw [Base.digits_based (Base.ne_decimal_of_mark marked)]
      exact more.filled text

theorem value (h : Numeral b cs n) : valueOf b.radix (b.digits cs) = n := by
  cases h with
  | zero => rfl
  | @decimal c cs d _ digit _ more =>
      rw [Base.digits_decimal, List.filter_cons_of_pos (by simp [digit.ne_underscore]), valueOf,
        List.foldl_cons, digit.isDigit.2, Nat.zero_mul, Nat.zero_add]
      exact more.value
  | based marked _ more =>
      rw [Base.digits_based (Base.ne_decimal_of_mark marked)]
      exact more.value

theorem unique (h : Numeral b cs n) (h' : Numeral b cs m) : n = m := h.value.symm.trans h'.value

theorem exists_of_decimal (matched : Base.decimal.pattern.Matches cs) :
    ∃ n, Numeral .decimal cs n := by
  rcases Base.matches_decimal.mp matched with rfl | ⟨c, d, rest, digit, leads, digits, rfl⟩
  · exact ⟨0, .zero⟩
  · obtain ⟨n, more⟩ := Base.exists_continues digits d
    exact ⟨n, .decimal digit leads more⟩

theorem exists_of_marked {mark : Char} {rest : List Char} (marked : mark ∈ b.marks.toList)
    (filled : rest ≠ []) (digits : (many (spacedDigit b.isDigit)).Matches rest) :
    ∃ n, Numeral b ('0' :: mark :: rest) n := by
  obtain ⟨n, more⟩ := Base.exists_continues digits 0
  exact ⟨n, .based marked filled more⟩

/-- What a pattern for integers matches is a literal, unless there are no digits. -/
theorem of_accepts (accepted : b.pattern.accepts cs = true) (filled : b.digits cs ≠ []) :
    Numeral b cs (valueOf b.radix (b.digits cs)) := by
  have matched := (accepts_iff _ _).mp accepted
  have numeral : ∃ n, Numeral b cs n := by
    by_cases decimal : b = .decimal
    · subst decimal
      exact exists_of_decimal matched
    · rw [Base.pattern_eq decimal, Base.matches_based] at matched
      obtain ⟨mark, rest, marked, digits, rfl⟩ := matched
      refine exists_of_marked marked ?_ digits
      rintro rfl
      rw [Base.digits_based decimal] at filled
      exact filled rfl
  obtain ⟨n, numeral⟩ := numeral
  rw [numeral.value]
  exact numeral

/-- A decimal literal has no more digits than its number needs. -/
theorem length_le (h : Numeral .decimal cs n) {k : Nat} (bound : n < 10 ^ k) (some : k ≠ 0) :
    (Base.decimal.digits cs).length ≤ k := by
  cases h with
  | zero => exact Nat.one_le_iff_ne_zero.mpr some
  | @decimal c cs d _ digit leads more =>
      rw [Base.digits_decimal, List.filter_cons_of_pos (by simp [digit.ne_underscore]),
        List.length_cons]
      refine Nat.succ_le_of_lt ((Nat.pow_lt_pow_iff_right (a := 10) (by decide)).mp ?_)
      calc 10 ^ (cs.filter (· != '_')).length
          ≤ d * 10 ^ (cs.filter (· != '_')).length :=
            Nat.le_mul_of_pos_left _ (Nat.pos_of_ne_zero leads)
        _ ≤ n := more.le
        _ < 10 ^ k := bound
  | based marked _ _ => cases marked

end Numeral

variable {b b' : Base} {s t : String} {cs : List Char} {n m : Nat}

theorem Base.mark_mem (matched : b.pattern.Matches cs) (other : b ≠ .decimal) :
    ∃ mark rest, mark ∈ b.marks.toList ∧ cs = '0' :: mark :: rest := by
  rw [pattern_eq other, matches_based] at matched
  obtain ⟨mark, rest, marked, _, rfl⟩ := matched
  exact ⟨mark, rest, marked, rfl⟩

theorem Base.decimal_unmarked (matched : decimal.pattern.Matches cs) (other : b ≠ .decimal) :
    ¬ b.pattern.Matches cs := by
  intro based
  obtain ⟨mark, rest, marked, rfl⟩ := mark_mem based other
  have avoided : ∀ c ∈ b.marks.toList, decimal.pattern.avoids c = true :=
    List.all_eq_true.mp (by cases b <;> decide)
  exact matched.not_mem (avoided mark marked) (by simp)

/-- A text is an integer literal in one base only. -/
theorem Base.unique (first : b.pattern.Matches cs) (second : b'.pattern.Matches cs) : b = b' := by
  by_cases decimal : b = .decimal
  · subst decimal
    by_contra other
    exact decimal_unmarked first (Ne.symm other) second
  · by_cases decimal' : b' = .decimal
    · subst decimal'
      exact absurd first (decimal_unmarked second decimal)
    · obtain ⟨mark, rest, marked, rfl⟩ := mark_mem first decimal
      obtain ⟨_, _, marked', same⟩ := mark_mem second decimal'
      cases same
      have apart : ∀ c ∈ b.marks.toList, c ∈ b'.marks.toList → b = b' := by
        cases b <;> cases b' <;> simp [marks]
      exact apart mark marked marked'

theorem base?_eq (matched : b.pattern.Matches cs) : base? cs = some b := by
  cases found : base? cs with
  | none =>
      have listed : b ∈ [Base.decimal, .binary, .octal, .hex] := by cases b <;> decide
      exact absurd ((accepts_iff _ _).mpr matched) (List.find?_eq_none.mp found b listed)
  | some b' =>
      have accepted := List.find?_some found
      rw [Base.unique matched ((accepts_iff _ _).mp accepted)]

theorem base?_eq_none (unmatched : ∀ b : Base, ¬ b.pattern.Matches cs) : base? cs = none :=
  List.find?_eq_none.mpr fun b _ accepted => unmatched b ((accepts_iff _ _).mp accepted)

theorem exponent_letter (matched : exponentPattern.Matches cs) : 'e' ∈ cs ∨ 'E' ∈ cs := by
  obtain ⟨first, rest, rfl, letter, _⟩ := matches_seq.mp matched
  obtain ⟨c, listed, rfl⟩ := matches_one.mp letter
  have either : c = 'e' ∨ c = 'E' := by simpa using listed
  exact either.imp (fun same => by simp [same]) fun same => by simp [same]

theorem decimalFloat_sign (matched : decimalFloatPattern.Matches cs) :
    '.' ∈ cs ∨ 'e' ∈ cs ∨ 'E' ∈ cs := by
  have point {p : Pattern} {xs : List Char} (h : (seq (char '.') p).Matches xs) : '.' ∈ xs := by
    obtain ⟨first, rest, rfl, dot, _⟩ := matches_seq.mp h
    obtain ⟨c, same, rfl⟩ := matches_one.mp dot
    simp [eq_of_beq same]
  rcases matches_alt.mp matched with whole | fraction
  · obtain ⟨digits, rest, rfl, _, tail⟩ := matches_seq.mp whole
    have sign : '.' ∈ rest ∨ 'e' ∈ rest ∨ 'E' ∈ rest :=
      (matches_alt.mp tail).imp point exponent_letter
    exact sign.imp (List.mem_append_right _)
      (Or.imp (List.mem_append_right _) (List.mem_append_right _))
  · exact .inl (point fraction)

theorem hexFloat_sign (matched : hexFloatPattern.Matches cs) : 'p' ∈ cs ∨ 'P' ∈ cs := by
  obtain ⟨zero, rest, rfl, _, h⟩ := matches_seq.mp matched
  obtain ⟨mark, rest, rfl, _, h⟩ := matches_seq.mp h
  obtain ⟨whole, rest, rfl, _, h⟩ := matches_seq.mp h
  obtain ⟨fraction, rest, rfl, _, h⟩ := matches_seq.mp h
  obtain ⟨first, rest, rfl, letter, _⟩ := matches_seq.mp h
  obtain ⟨c, listed, rfl⟩ := matches_one.mp letter
  have either : c = 'p' ∨ c = 'P' := by simpa using listed
  exact either.imp (fun same => by simp [same]) fun same => by simp [same]

/-- No integer is a number with a fraction or an exponent: these show a sign that no pattern for
integers has, except that `e` is a digit in base sixteen, whose mark no decimal has. -/
theorem isFloat_of_integer (matched : b.pattern.Matches cs) : isFloat cs = false := by
  have lacks {c : Char} (avoided : b.pattern.avoids c = true) : c ∉ cs := matched.not_mem avoided
  refine Bool.eq_false_iff.mpr fun float => ?_
  rcases Bool.or_eq_true_iff.mp float with decimal | hex
  · have decimal := (accepts_iff _ _).mp decimal
    rcases decimalFloat_sign decimal with point | letter
    · exact lacks (by cases b <;> decide) point
    · by_cases sixteen : b = .hex
      · subst sixteen
        obtain ⟨mark, rest, marked, rfl⟩ := Base.mark_mem matched (by decide)
        have avoided : ∀ c ∈ Base.hex.marks.toList, decimalFloatPattern.avoids c = true :=
          List.all_eq_true.mp (by decide)
        exact decimal.not_mem (avoided mark marked) (by simp)
      · have small : b.pattern.avoids 'e' = true := by
          cases b with
          | hex => exact absurd rfl sixteen
          | binary | octal | decimal => decide
        have capital : b.pattern.avoids 'E' = true := by
          cases b with
          | hex => exact absurd rfl sixteen
          | binary | octal | decimal => decide
        exact letter.elim (lacks small) (lacks capital)
  · rcases hexFloat_sign ((accepts_iff _ _).mp hex) with small | capital
    · exact lacks (by cases b <;> decide) small
    · exact lacks (by cases b <;> decide) capital

theorem isQuoted_of_not_mem (none : '\x22' ∉ cs) : isQuoted cs = false := by
  cases cs with
  | nil => rfl
  | cons c cs =>
      have other : c ≠ '\x22' := fun same => none (by simp [same])
      simp [isQuoted, other]

/-- Where a pattern for integers matches, the type depends on the number alone. -/
theorem guess_integer (matched : b.pattern.Matches s.toList) : guess s = integerTypeOf b s := by
  have filled : s.toList.isEmpty = false := by
    rw [List.isEmpty_eq_false_iff]
    intro empty
    rw [empty, ← nullable_iff] at matched
    cases b <;> cases matched
  have unquoted : isQuoted s.toList = false :=
    isQuoted_of_not_mem (matched.not_mem (by cases b <;> decide))
  unfold guess
  simp only [filled, base?_eq matched, unquoted, isFloat_of_integer matched]
  cases integerTypeOf b s <;> rfl

/-- Where none matches, the quotes or the signs of a fraction or an exponent decide. -/
theorem guess_other (unmatched : ∀ b : Base, ¬ b.pattern.Matches s.toList)
    (filled : s.toList ≠ []) :
    guess s = .ok
      (if isQuoted s.toList then .string else if isFloat s.toList then .float64 else .unknown) := by
  unfold guess
  simp only [List.isEmpty_eq_false_iff.mpr filled, base?_eq_none unmatched]
  cases isQuoted s.toList <;> cases isFloat s.toList <;> rfl

/-- More digits than a decimal text may have. -/
def Base.Exceeds (b : Base) (cs : List Char) : Prop :=
  b = .decimal ∧ maxDecimalDigits < (b.digits cs).length

instance (b : Base) (cs : List Char) : Decidable (b.Exceeds cs) :=
  inferInstanceAs (Decidable (_ ∧ _))

theorem Numeral.guess_eq (numeral : Numeral b s.toList n) :
    guess s = if b.Exceeds s.toList then .error (.tooLong (b.digits s.toList).length) else .ok
      (integerType n) := by
  have filled : (b.digits s.toList).isEmpty = false := List.isEmpty_eq_false_iff.mpr numeral.filled
  simp only [guess_integer numeral.matched, integerTypeOf, filled, numeral.value, Bool.and_eq_true,
    decide_eq_true_eq]
  rfl

theorem integerType_mem (n : Nat) : integerType n ∈ LiteralType.integers := by
  unfold integerType
  split
  · decide
  · split <;> decide

theorem bits_integerType_le (le : m ≤ n) : (integerType m).bits ≤ (integerType n).bits := by
  unfold integerType
  split_ifs <;> simp [LiteralType.bits] <;> omega

/-- The types of two integer literals, of which a decimal one has no more digits than it may have:
both have one, it is the same for two spellings of a number, and it is no narrower for the larger of
two numbers. -/
theorem integer_types_ordered (first : Numeral b s.toList m) (second : Numeral b' t.toList n)
    (brief : ¬ b.Exceeds s.toList) (brief' : ¬ b'.Exceeds t.toList) :
    ∃ u v, guess s = .ok u ∧ guess t = .ok v ∧ u ∈ LiteralType.integers ∧ v ∈ LiteralType.integers ∧
      (m = n → u = v) ∧ (m ≤ n → u.bits ≤ v.bits) := by
  refine ⟨integerType m, integerType n, ?_, ?_, integerType_mem m, integerType_mem n, ?_,
    bits_integerType_le⟩
  · rw [first.guess_eq, if_neg brief]
  · rw [second.guess_eq, if_neg brief']
  · rintro rfl
    rfl

/-- The largest number for which the narrowest type is guessed, in base sixteen, and the next one,
in base ten. -/
theorem boundary_types_ordered :
    Numeral .hex "0x7E".toList 126 ∧ Numeral .decimal "1_27".toList 127 ∧
    ∃ u v, guess "0x7E" = .ok u ∧ guess "1_27" = .ok v ∧ u ∈ LiteralType.integers ∧
      v ∈ LiteralType.integers ∧
      (126 = 127 → u = v) ∧ (126 ≤ 127 → u.bits ≤ v.bits) := by
  have first : Numeral .hex "0x7E".toList 126 := Numeral.of_accepts (by decide) (by decide)
  have second : Numeral .decimal "1_27".toList 127 := Numeral.of_accepts (by decide) (by decide)
  exact ⟨first, second, integer_types_ordered first second (by decide) (by decide)⟩

theorem Base.continues_replicate (n k : Nat) :
    ∃ m, decimal.Continues n (List.replicate k '1') m := by
  induction k generalizing n with
  | zero => exact ⟨n, .done⟩
  | succ k ih =>
      obtain ⟨m, more⟩ := ih (n * 10 + 1)
      exact ⟨m, .digit (.inl rfl) (by decide) more⟩

def repunit : String := String.ofList (List.replicate (maxDecimalDigits + 1) '1')

/-- A decimal literal for which no type is guessed. -/
theorem repunit_untyped : (∃ n, Numeral .decimal repunit.toList n) ∧
    ∀ t ∈ LiteralType.integers, guess repunit ≠ .ok t := by
  obtain ⟨n, more⟩ := Base.continues_replicate 1 maxDecimalDigits
  have numeral : Numeral .decimal repunit.toList n := by
    rw [repunit, String.toList_ofList, List.replicate_succ]
    exact .decimal (by decide) (by decide) more
  have exceeds : Base.decimal.Exceeds repunit.toList := by
    refine ⟨rfl, ?_⟩
    rw [repunit, String.toList_ofList, Base.digits_decimal, List.filter_replicate_of_pos
      (by decide), List.length_replicate]
    exact Nat.lt_succ_self _
  refine ⟨⟨n, numeral⟩, fun t _ typed => ?_⟩
  rw [numeral.guess_eq, if_pos exceeds] at typed
  cases typed

theorem narrowest_integerType_iff (n : Nat) (bound : n < 2 ^ 63) :
    (integerType n).Narrowest n ↔ n ≠ 2 ^ 7 - 1 ∧ n ≠ 2 ^ 31 - 1 := by
  unfold integerType
  split_ifs <;> simp [LiteralType.Narrowest, LiteralType.integers, LiteralType.bits] <;> omega

/-- What is guessed for a text that a pattern for integers accepts and that has a digit. It denotes
one number, and if that has at most 63 bits, the type is the narrowest unless the number is the
largest that the type below has room for. -/
theorem narrowest_iff_not_largest (accepted : b.pattern.accepts s.toList = true)
    (filled : b.digits s.toList ≠ []) :
    ∃ n, (∀ m, Numeral b s.toList m ↔ m = n) ∧ (n < 2 ^ 63 → ∃ t, guess s = .ok t ∧
      (t.Narrowest n ↔ n ≠ 2 ^ 7 - 1 ∧ n ≠ 2 ^ 31 - 1) ∧
      (t = .int8 ↔ n < 2 ^ 7 - 1) ∧ (t = .int32 ↔ 2 ^ 7 - 1 ≤ n ∧ n < 2 ^ 31 - 1)) := by
  have numeral := Numeral.of_accepts accepted filled
  generalize valueOf b.radix (b.digits s.toList) = n at numeral
  refine ⟨n, fun m => ⟨fun other => other.unique numeral, ?_⟩, fun bound => ?_⟩
  · rintro rfl
    exact numeral
  · have brief : ¬ b.Exceeds s.toList := by
      rintro ⟨rfl, longer⟩
      have short := numeral.length_le (k := 19) (Nat.lt_of_lt_of_le bound (by decide)) (by decide)
      exact absurd (Nat.lt_of_lt_of_le longer short) (by decide)
    refine ⟨integerType n, by rw [numeral.guess_eq, if_neg brief],
      narrowest_integerType_iff n bound, ?_, ?_⟩
    · unfold integerType
      split_ifs <;> simp <;> omega
    · unfold integerType
      split_ifs <;> simp <;> omega

/-- The largest number for which eight bits have room, in base two: a wider type is guessed for
it. -/
theorem sevenOnes_widened : Base.binary.pattern.accepts "0b111_1111".toList = true ∧
    Numeral .binary "0b111_1111".toList 127 ∧ LiteralType.int8.Narrowest 127 ∧
      ∃ t, guess "0b111_1111" = .ok t ∧ ¬ t.Narrowest 127 ∧ t = .int32 := by
  have accepted : Base.binary.pattern.accepts "0b111_1111".toList = true := by decide
  have numeral : Numeral .binary "0b111_1111".toList 127 := Numeral.of_accepts accepted (by decide)
  have narrowest : LiteralType.int8.Narrowest 127 := by
    simp [LiteralType.Narrowest, LiteralType.integers, LiteralType.bits]
  obtain ⟨n, unique, typed⟩ := narrowest_iff_not_largest accepted (by decide)
  cases (unique 127).mp numeral
  obtain ⟨t, guessed, narrow, _, wide⟩ := typed (by decide)
  exact ⟨accepted, numeral, narrowest, t, guessed, fun h => (narrow.mp h).1 rfl,
    wide.mpr (by decide)⟩

end Literal

end GoFlow
