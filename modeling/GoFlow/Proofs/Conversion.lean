import GoFlow.Proofs.Numerals

/-! Guessing the type of a text by way of converting it. Patterns decide whether a text is converted
at all, and its second character in which base; the conversion has a grammar of its own. Every text
that a pattern lets through is converted, except for the bare marks of a base. -/

namespace GoFlow.Literal

open Pattern Text

namespace Base

/-- Digits in the base that continue a number, each with at most one underscore before it. -/
def readOn (b : Base) : Nat → List Char → Option Nat
  | n, [] => some n
  | n, '_' :: c :: cs => if b.isDigit c then b.readOn (n * b.radix + digitValue c) cs else none
  | n, c :: cs => if b.isDigit c then b.readOn (n * b.radix + digitValue c) cs else none

def readFirst (b : Base) : List Char → Option Nat
  | [] => none
  | c :: cs => if b.isDigit c then b.readOn (digitValue c) cs else none

/-- The number that a text denotes in the base. The mark of the base may stand before the digits,
and an underscore after it. Signs, blanks and digits of other scripts, which a conversion also
knows, are in no text that comes to be converted. -/
def convert (b : Base) (cs : List Char) : Option Nat :=
  match cs with
  | '0' :: mark :: rest =>
      if mark ∈ b.marks.toList then b.readFirst (if rest.head? = some '_' then rest.tail else rest)
      else b.readFirst cs
  | _ => b.readFirst cs

/-- The base that the second character of a text stands for. -/
def shown : List Char → Base
  | _ :: c :: _ => ([binary, octal, hex].find? fun b => b.marks.toList.contains c).getD decimal
  | _ => decimal

variable {b : Base} {cs : List Char} {n m : Nat}

theorem Continues.readOn (h : b.Continues n cs m) : b.readOn n cs = some m := by
  induction h with
  | done => rfl
  | @digit n m d gap cs c spaced digit _ ih =>
      obtain ⟨isDigit, value⟩ := digit.isDigit
      rcases spaced with rfl | rfl
      · rw [List.nil_append, Base.readOn, if_pos isDigit, value, ih]
        rintro _ _ rfl
        exact absurd rfl digit.ne_underscore
      · rw [List.singleton_append, Base.readOn, if_pos isDigit, value, ih]

theorem convert_decimal (cs : List Char) : decimal.convert cs = decimal.readFirst cs := by
  unfold convert
  split
  · rw [if_neg (by simp [marks])]
  · rfl

theorem convert_marked {mark : Char} (marked : mark ∈ b.marks.toList) (rest : List Char) :
    b.convert ('0' :: mark :: rest) = b.readFirst
      (if rest.head? = some '_' then rest.tail else rest) := by
  rw [convert, if_pos marked]

theorem Continues.readFirst (h : b.Continues 0 cs m) (filled : cs ≠ []) :
    b.readFirst (if cs.head? = some '_' then cs.tail else cs) = some m := by
  cases h with
  | done => exact absurd rfl filled
  | @digit _ _ d gap cs c spaced digit more =>
      obtain ⟨isDigit, value⟩ := digit.isDigit
      have first : b.readFirst (c :: cs) = some m := by
        rw [Base.readFirst, if_pos isDigit, value]
        rw [Nat.zero_mul, Nat.zero_add] at more
        exact more.readOn
      rcases spaced with rfl | rfl
      · have plain :
          (c :: cs).head? ≠ some '_' := fun same => digit.ne_underscore (Option.some.inj same)
        rwa [List.nil_append, if_neg plain]
      · exact first

theorem shown_marked {zero mark : Char} (marked : mark ∈ b.marks.toList) (rest : List Char) :
    shown (zero :: mark :: rest) = b := by
  have listed : ∀ c ∈ b.marks.toList,
      (([binary, octal, hex].find? fun b => b.marks.toList.contains c).getD decimal) = b := by
    cases b <;> simp [marks]
  exact listed mark marked

theorem shown_eq (matched : b.pattern.Matches cs) : shown cs = b := by
  by_cases decimal : b = .decimal
  · subst decimal
    rcases cs with _ | ⟨first, _ | ⟨c, rest⟩⟩
    · rfl
    · rfl
    · have unmarked : ([binary, octal, hex].find? fun b => b.marks.toList.contains c) = none := by
        refine List.find?_eq_none.mpr fun b _ marked => ?_
        have avoided : ∀ c ∈ b.marks.toList, Base.decimal.pattern.avoids c = true :=
          List.all_eq_true.mp (by cases b <;> decide)
        exact matched.not_mem (avoided c (List.contains_iff_mem.mp marked)) (by simp)
      rw [shown, unmarked]
      rfl
  · obtain ⟨mark, rest, marked, rfl⟩ := mark_mem matched decimal
    exact shown_marked marked rest

end Base

variable {b : Base} {s : String} {cs : List Char} {n : Nat}

theorem Numeral.convert (h : Numeral b cs n) : b.convert cs = some n := by
  cases h with
  | zero => decide
  | decimal digit leads more =>
      obtain ⟨isDigit, value⟩ := digit.isDigit
      rw [Base.convert_decimal, Base.readFirst, if_pos isDigit, value, more.readOn]
  | based marked filled more => rw [Base.convert_marked marked, more.readFirst filled]

theorem Base.matches_cases (matched : b.pattern.Matches cs) :
    (∃ n, Numeral b cs n) ∨ ∃ mark ∈ b.marks.toList, cs = ['0', mark] := by
  by_cases decimal : b = .decimal
  · subst decimal
    exact .inl (Numeral.exists_of_decimal matched)
  · rw [Base.pattern_eq decimal, Base.matches_based] at matched
    obtain ⟨mark, rest, marked, digits, rfl⟩ := matched
    by_cases bare : rest = []
    · exact .inr ⟨mark, marked, by rw [bare]⟩
    · exact .inl (Numeral.exists_of_marked marked bare digits)

/-- The type of a text, where a decimal text may have at most so many digits, or any number of them.
A text that some pattern for integers accepts is converted in the base that its second character
stands for. -/
def convertedType (limit : Option Nat) (s : String) : Except GuessError LiteralType :=
  let b := Base.shown s.toList
  match b.convert s.toList with
  | none => .error (.noDigits b.radix s)
  | some n =>
      if b = .decimal && limit.any (· < (b.digits s.toList).length) then .error
        (.tooLong (b.digits s.toList).length)
      else .ok (integerType n)

/-- The type that is guessed step by step: by conversion, then by the first and the last character,
which an empty text does not have, and by the patterns for fractions and exponents. -/
def guessWithin (limit : Option Nat) (s : String) : Except GuessError LiteralType := do
  let cs := s.toList
  let integer ←
    if [Base.decimal, .binary, .octal, .hex].any fun b =>
      b.pattern.accepts cs then convertedType limit s
    else pure .unknown
  if cs.isEmpty then throw .empty
  return if isQuoted cs then .string else if isFloat cs then .float64 else integer

/-- The marks of the bases, each after its zero. -/
def bareMarks : List String := ["0b", "0B", "0o", "0O", "0x", "0X"]

section

variable {limit : Option Nat}

theorem any_accepts :
    ([Base.decimal, .binary, .octal, .hex].any fun b => b.pattern.accepts cs) = true ↔
      ∃ b : Base, b.pattern.Matches cs := by
  rw [List.any_eq_true]
  constructor
  · rintro ⟨b, _, accepted⟩
    exact ⟨b, (accepts_iff _ _).mp accepted⟩
  · rintro ⟨b, matched⟩
    exact ⟨b, by cases b <;> simp, (accepts_iff _ _).mpr matched⟩

theorem filled_of_matches (matched : b.pattern.Matches cs) : cs ≠ [] := by
  rintro rfl
  rw [← nullable_iff] at matched
  cases b <;> cases matched

theorem guessWithin_matched (matched : b.pattern.Matches s.toList) :
    guessWithin limit s = convertedType limit s := by
  have filled : s.toList.isEmpty = false :=
    List.isEmpty_eq_false_iff.mpr (filled_of_matches matched)
  have unquoted : isQuoted s.toList = false :=
    isQuoted_of_not_mem (matched.not_mem (by cases b <;> decide))
  unfold guessWithin
  simp only [any_accepts.mpr ⟨b, matched⟩, filled, unquoted, isFloat_of_integer matched]
  cases convertedType limit s <;> rfl

theorem guessWithin_unmatched (unmatched : ∀ b : Base, ¬ b.pattern.Matches s.toList)
    (filled : s.toList ≠ []) :
    guessWithin limit s =
      .ok (if isQuoted s.toList then .string
        else if isFloat s.toList then .float64 else .unknown) := by
  have none : ([Base.decimal, .binary, .octal, .hex].any fun b => b.pattern.accepts s.toList) =
      false := by
    rw [← Bool.not_eq_true, any_accepts]
    exact fun ⟨b, matched⟩ => unmatched b matched
  unfold guessWithin
  simp only [none, List.isEmpty_eq_false_iff.mpr filled]
  rfl

theorem Numeral.convertedType (numeral : Numeral b s.toList n) : convertedType limit s =
    if b = .decimal && limit.any (· < (b.digits s.toList).length) then .error
      (.tooLong (b.digits s.toList).length)
    else .ok (integerType n) := by
  simp only [Literal.convertedType, Base.shown_eq numeral.matched, numeral.convert]

theorem convertedType_bare {mark : Char} (marked : mark ∈ b.marks.toList)
    (bare : s.toList = ['0', mark]) : convertedType limit s = .error (.noDigits b.radix s) := by
  have none : b.convert ['0', mark] = none := Base.convert_marked marked []
  simp only [convertedType, bare, Base.shown_marked marked, none]

theorem Base.bare_matches {mark : Char} (marked : mark ∈ b.marks.toList) :
    b.pattern.Matches ['0', mark] := by
  rw [Base.pattern_eq (Base.ne_decimal_of_mark marked), Base.matches_based]
  exact ⟨mark, [], marked, .none, rfl⟩

theorem mem_bareMarks :
    s ∈ bareMarks ↔ ∃ b : Base, ∃ mark ∈ b.marks.toList, s.toList = ['0', mark] := by
  have listed : bareMarks.map String.toList =
      [Base.binary, .octal, .hex].flatMap fun b => b.marks.toList.map fun mark => ['0', mark] := by
    decide
  constructor
  · intro member
    have found := List.mem_map_of_mem (f := String.toList) member
    rw [listed] at found
    obtain ⟨b, _, found⟩ := List.mem_flatMap.mp found
    obtain ⟨mark, marked, same⟩ := List.mem_map.mp found
    exact ⟨b, mark, marked, same.symm⟩
  · rintro ⟨b, mark, marked, bare⟩
    have found : s.toList ∈ bareMarks.map String.toList := by
      rw [listed, List.mem_flatMap]
      refine ⟨b, ?_, List.mem_map.mpr ⟨mark, marked, bare.symm⟩⟩
      cases b with
      | decimal => cases marked
      | binary | octal | hex => simp
    obtain ⟨t, member, same⟩ := List.mem_map.mp found
    exact String.toList_inj.mp same ▸ member

/-- A text is empty, an integer literal, the bare mark of a base, or no pattern for integers matches
it. -/
theorem text_cases (s : String) : s = "" ∨ (∃ b n, Numeral b s.toList n) ∨
    (∃ b : Base, ∃ mark ∈ b.marks.toList, s.toList = ['0', mark]) ∨
    s.toList ≠ [] ∧ ∀ b : Base, ¬ b.pattern.Matches s.toList := by
  by_cases matched : ∃ b : Base, b.pattern.Matches s.toList
  · obtain ⟨b, matched⟩ := matched
    rcases Base.matches_cases matched with numeral | bare
    · exact .inr (.inl ⟨b, numeral⟩)
    · exact .inr (.inr (.inl ⟨b, bare⟩))
  · by_cases empty : s = ""
    · exact .inl empty
    · refine .inr
        (.inr (.inr ⟨fun none => empty (String.toList_inj.mp none), fun b h => matched ⟨b, h⟩⟩))

theorem Numeral.not_bare (numeral : Numeral b s.toList n) : s ≠ "" ∧ s ∉ bareMarks := by
  constructor
  · rintro rfl
    exact filled_of_matches numeral.matched rfl
  · rw [mem_bareMarks]
    rintro ⟨b', mark, marked, bare⟩
    have same : b = b' := by
      refine Base.unique numeral.matched ?_
      rw [bare]
      exact Base.bare_matches marked
    subst same
    apply numeral.filled
    rw [bare, Base.digits_based (Base.ne_decimal_of_mark marked)]
    rfl

/-- The type that is guessed at once is the one that is guessed step by step. -/
theorem guess_eq_guessWithin (s : String) : guess s = guessWithin (some maxDecimalDigits) s := by
  rcases text_cases s with rfl | ⟨b, n, numeral⟩ | ⟨b, mark, marked, bare⟩ | ⟨filled, unmatched⟩
  · rfl
  · rw [numeral.guess_eq, guessWithin_matched numeral.matched, numeral.convertedType]
    simp only [Base.Exceeds, Option.any_some, Bool.and_eq_true, decide_eq_true_eq]
    rfl
  · have matched : b.pattern.Matches s.toList := bare ▸ Base.bare_matches marked
    have none : b.digits s.toList = [] := by
      rw [bare, Base.digits_based (Base.ne_decimal_of_mark marked)]
      rfl
    rw [guess_integer matched, guessWithin_matched matched, convertedType_bare marked bare,
      integerTypeOf, none]
    rfl
  · rw [guess_other unmatched filled, guessWithin_unmatched unmatched filled]

theorem guessWithin_exact (s : String) : (s = "" ∧ guessWithin none s = .error .empty) ∨
    (s ∈ bareMarks ∧ guessWithin none s = .error (.noDigits (Base.shown s.toList).radix s)) ∨
    (s ≠ "" ∧ s ∉ bareMarks ∧ ∃ t, guessWithin none s = .ok t) := by
  rcases text_cases s with rfl | ⟨b, n, numeral⟩ | ⟨b, mark, marked, bare⟩ | ⟨filled, unmatched⟩
  · exact .inl ⟨rfl, rfl⟩
  · refine .inr (.inr ⟨numeral.not_bare.1, numeral.not_bare.2, integerType n, ?_⟩)
    rw [guessWithin_matched numeral.matched, numeral.convertedType, Option.any_none, Bool.and_false]
    rfl
  · refine .inr (.inl ⟨mem_bareMarks.mpr ⟨b, mark, marked, bare⟩, ?_⟩)
    have matched : b.pattern.Matches s.toList := bare ▸ Base.bare_matches marked
    rw [guessWithin_matched matched, convertedType_bare marked bare, bare, Base.shown_marked marked]
  · refine .inr (.inr ⟨?_, ?_, _, guessWithin_unmatched unmatched filled⟩)
    · rintro rfl
      exact filled rfl
    · rw [mem_bareMarks]
      rintro ⟨b, mark, marked, bare⟩
      exact unmatched b (bare ▸ Base.bare_matches marked)

/-- The limit matters to decimal literals alone. -/
theorem guess_exact_or_long (s : String) :
    guess s = guessWithin none s ∨ (∃ n, Numeral .decimal s.toList n) ∧
    Base.decimal.Exceeds s.toList ∧
      guess s = .error (.tooLong (Base.decimal.digits s.toList).length) := by
  rcases text_cases s with rfl | ⟨b, n, numeral⟩ | ⟨b, mark, marked, bare⟩ | ⟨filled, unmatched⟩
  · exact .inl rfl
  · have guessed := numeral.guess_eq
    by_cases exceeds : b.Exceeds s.toList
    · rw [if_pos exceeds] at guessed
      cases exceeds.1
      exact .inr ⟨⟨n, numeral⟩, exceeds, guessed⟩
    · rw [if_neg exceeds] at guessed
      left
      rw [guessed, guessWithin_matched numeral.matched, numeral.convertedType, Option.any_none,
        Bool.and_false]
      rfl
  · have matched : b.pattern.Matches s.toList := bare ▸ Base.bare_matches marked
    left
    rw [guess_eq_guessWithin, guessWithin_matched matched, guessWithin_matched matched,
      convertedType_bare marked bare, convertedType_bare marked bare]
  · exact .inl ((guess_other unmatched filled).trans (guessWithin_unmatched unmatched filled).symm)

/-- With numbers of any length, no type is guessed just for the empty text and for the bare marks of
the bases; every other text gets one of six. With a limit to the length, a decimal literal that has
too many digits gets none either. -/
theorem guess_stops_iff (s : String) :
    (∀ e, guessWithin none s = .error e ↔
      s = "" ∧ e = .empty ∨ s ∈ bareMarks ∧ e = .noDigits (Base.shown s.toList).radix s) ∧
    (s ≠ "" → s ∉ bareMarks → ∃ t : LiteralType, guessWithin none s = .ok t ∧
      t.name ∈ ["", "int8", "int32", "int64", "float64", "string"]) ∧
    guess s = guessWithin (some maxDecimalDigits) s ∧
    (guess s = guessWithin none s ∨ (∃ n, Numeral .decimal s.toList n) ∧
      Base.decimal.Exceeds s.toList ∧
      guess s = .error (.tooLong (Base.decimal.digits s.toList).length)) := by
  refine ⟨fun e => ?_, fun filled marked => ?_, guess_eq_guessWithin s, guess_exact_or_long s⟩
  · rcases guessWithin_exact s with ⟨rfl, stops⟩ | ⟨bare, stops⟩ | ⟨filled, marked, t, typed⟩
    · have marked : "" ∉ bareMarks := by decide
      simp [stops, marked, eq_comm]
    · have filled : s ≠ "" := by
        rintro rfl
        exact absurd bare (by decide)
      simp [stops, bare, filled, eq_comm]
    · simp [typed, filled, marked]
  · rcases guessWithin_exact s with ⟨empty, _⟩ | ⟨bare, _⟩ | ⟨_, _, t, typed⟩
    · exact absurd empty filled
    · exact absurd bare marked
    · exact ⟨t, typed, by cases t <;> decide⟩

end

end GoFlow.Literal
