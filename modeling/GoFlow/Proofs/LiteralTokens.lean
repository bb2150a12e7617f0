import GoFlow.Proofs.Numerals
import GoFlow.Proofs.Scanning

/-! The spellings of literals are given twice, as rules for reading tokens and as patterns for
guessing a type. The two differ: a rule also matches octal literals without a mark, and fractions
without digits before the point that the patterns leave out. Everywhere else the type that is
guessed for a token is of the kind that it was read as. -/

namespace GoFlow

open Pattern

/-- The tokens that a parser sees, the terminators and the end of input left out. -/
def Lexeme.words (ls : List Lexeme) : List Token :=
  (ls.filterMap token?).filter fun t => !t.hidden && t.kind != .eos && t.kind != .eof

/-- The types of which a literal of the kind should have one. -/
def Kind.literalTypes : Kind → List LiteralType
  | .decimalLit | .binaryLit | .octalLit | .hexLit => LiteralType.integers
  | .floatLit => [.float64]
  | .interpretedStringLit => [.string]
  | _ => []

def Spelling.literals : List Spelling :=
  [ending .decimalLit decimalInteger, ending .binaryLit binaryInteger,
    ending .octalLit octalInteger,
    ending .hexLit hexInteger, ending .floatLit float,
    ending .interpretedStringLit interpretedString]

theorem Spelling.mem_literals {mode : Mode} {rule : Spelling} (member : rule ∈ rules mode)
    (literal : rule.kind.literalTypes ≠ []) : rule ∈ literals := by
  have own : rule ∈ (rules mode).filter fun r => !r.kind.literalTypes.isEmpty :=
    List.mem_filter.mpr ⟨member, by simpa using literal⟩
  cases mode with
  | plain => exact own
  | lineEnding => cases own

theorem Scans.matched {mode : Mode} {start : Nat} {place : Position} {cs : List Char}
    {ls : List Lexeme} (scans : Scans mode start place cs ls) {t : Token} (member : .token t ∈ ls) :
    t.kind = .eof ∨ ∃ mode, ∃ rule ∈ Spelling.rules mode, rule.kind = t.kind ∧
      rule.pattern.Matches t.text.toList := by
  induction scans with
  | finished =>
      cases List.mem_singleton.mp member
      exact .inl rfl
  | @token mode _ _ rule word _ _ _ wins _ ih =>
      rcases List.mem_cons.mp member with same | later
      · cases same
        exact .inr ⟨mode, rule, wins.mem, rfl, by simpa using wins.matched⟩
      · exact ih later
  | unread _ _ ih =>
      rcases List.mem_cons.mp member with same | later
      · cases same
      · exact ih later

namespace Literal

open Text Spelling

/-- The literals that are read as tokens of a kind and then overlooked: decimal integers with too
many digits, octal integers without a mark, and fractions with no digit before the point, in base
ten if there is no exponent. -/
inductive Overlooked : Kind → List Char → Prop
  | long {cs : List Char} (exceeds : Base.decimal.Exceeds cs) : Overlooked .decimalLit cs
  | unmarked {cs : List Char} (small : 'o' ∉ cs) (capital : 'O' ∉ cs) : Overlooked .octalLit cs
  | fraction {cs : List Char} (small : 'e' ∉ cs) (capital : 'E' ∉ cs) :
      Overlooked .floatLit ('.' :: cs)
  | hexFraction {mark : Char} {cs : List Char} (marked : mark ∈ Base.hex.marks.toList) :
      Overlooked .floatLit ('0' :: mark :: '.' :: cs)

/-- A literal of the kind is guessed to be of one of its types, or it is overlooked and has no
type. -/
def Told (k : Kind) (s : String) : Prop :=
  (¬ Overlooked k s.toList ∧ ∃ u ∈ k.literalTypes, guess s = .ok u) ∨
    Overlooked k s.toList ∧ (guess s = .ok .unknown ∨ ∃ n, guess s = .error (.tooLong n))

variable {s : String} {cs : List Char} {b : Base} {k : Kind}

theorem told_of_numeral {n : Nat} (numeral : Numeral b s.toList n)
    (integer : k.literalTypes = LiteralType.integers)
    (long : b.Exceeds s.toList → Overlooked k s.toList)
    (brief : ¬ b.Exceeds s.toList → ¬ Overlooked k s.toList) : Told k s := by
  by_cases exceeds : b.Exceeds s.toList
  · exact .inr ⟨long exceeds, .inr ⟨_, by rw [numeral.guess_eq, if_pos exceeds]⟩⟩
  · exact .inl
      ⟨brief exceeds, _, integer ▸ integerType_mem n, by rw [numeral.guess_eq, if_neg exceeds]⟩

theorem told_decimal (matched : decimalInteger.Matches s.toList) : Told .decimalLit s := by
  obtain ⟨n, numeral⟩ := Numeral.exists_of_decimal matched
  refine told_of_numeral numeral rfl .long fun brief overlooked => ?_
  cases overlooked with
  | long exceeds => exact brief exceeds

theorem Base.not_exceeds (other : b ≠ .decimal) (cs : List Char) : ¬ b.Exceeds cs :=
  fun exceeds => other exceeds.1

/-- What a rule for integers in another base than ten reads. -/
theorem numeral_of_marked
    (matched : (allOf [char '0', anyOf b.marks, oneOrMore (spacedDigit b.isDigit)]).Matches cs) :
    b ≠ .decimal ∧ (∃ c ∈ b.marks.toList, c ∈ cs) ∧ ∃ n, Numeral b cs n := by
  obtain ⟨_, _, rfl, zero, matched⟩ := matches_seq.mp matched
  obtain ⟨_, _, rfl, letter, digits⟩ := matches_seq.mp matched
  obtain ⟨c, same, rfl⟩ := matches_one.mp zero
  obtain ⟨mark, listed, rfl⟩ := matches_one.mp letter
  obtain ⟨first, rest, rfl, digit, more⟩ := matches_seq.mp digits
  have marked : mark ∈ b.marks.toList := List.contains_iff_mem.mp listed
  refine ⟨Base.ne_decimal_of_mark marked, ⟨mark, marked, by simp⟩, ?_⟩
  have filled : first ++ rest ≠ [] := by
    obtain ⟨gap, d, _, _, rfl⟩ := Base.matches_spacedDigit.mp digit
    simp
  have digits : (many (spacedDigit b.isDigit)).Matches (first ++ rest) := .more digit more
  rw [eq_of_beq same]
  exact Numeral.exists_of_marked marked filled digits

theorem told_marked
    (matched : (allOf [char '0', anyOf b.marks, oneOrMore (spacedDigit b.isDigit)]).Matches
      s.toList)
    (integer : k.literalTypes = LiteralType.integers)
    (seen : (∃ c ∈ b.marks.toList, c ∈ s.toList) → ¬ Overlooked k s.toList) : Told k s := by
  obtain ⟨other, marked, n, numeral⟩ := numeral_of_marked matched
  exact told_of_numeral numeral integer (fun exceeds => absurd exceeds (Base.not_exceeds other _))
    fun _ => seen marked

theorem told_binary (matched : binaryInteger.Matches s.toList) : Told .binaryLit s := by
  refine told_marked (b := .binary) matched rfl ?_
  rintro _ ⟨⟩

theorem told_hex (matched : hexInteger.Matches s.toList) : Told .hexLit s := by
  refine told_marked (b := .hex) matched rfl ?_
  rintro _ ⟨⟩

theorem guess_unknown (filled : s.toList ≠ [])
    (unmatched : ∀ b : Base, ¬ b.pattern.Matches s.toList) (unquoted : '\x22' ∉ s.toList)
    (whole : isFloat s.toList = false) : guess s = .ok .unknown := by
  rw [guess_other unmatched filled, isQuoted_of_not_mem unquoted, whole]
  rfl

def unmarkedOctal : Pattern := seq (char '0') (oneOrMore (spaced octal))

theorem unmarked_unmatched (matched : unmarkedOctal.Matches cs) (b : Base) :
    ¬ b.pattern.Matches cs := by
  intro integer
  by_cases decimal : b = .decimal
  · subst decimal
    obtain ⟨_, _, rfl, zero, digits⟩ := matches_seq.mp matched
    obtain ⟨c, same, rfl⟩ := matches_one.mp zero
    rcases Base.matches_decimal.mp integer with alone | ⟨c', d, rest, digit, leads, _, split⟩
    · cases (List.cons.inj alone).2
      exact absurd ((nullable_iff _).mpr digits) (by decide)
    · cases split
      exact leads (digit.eq_zero_iff.mpr (eq_of_beq same))
  · obtain ⟨mark, rest, marked, rfl⟩ := Base.mark_mem integer decimal
    have avoided : ∀ c ∈ b.marks.toList, unmarkedOctal.avoids c = true :=
      List.all_eq_true.mp (by cases b <;> decide)
    exact matched.not_mem (avoided mark marked) (by simp)

theorem isFloat_of_avoids {p : Pattern} (matched : p.Matches cs)
    (avoids : ∀ c ∈ ['.', 'e', 'E', 'p', 'P'], p.avoids c = true) : isFloat cs = false := by
  have lacks {c : Char} (listed : c ∈ ['.', 'e', 'E', 'p', 'P']) : c ∉ cs :=
    matched.not_mem (avoids c listed)
  refine Bool.eq_false_iff.mpr fun float => ?_
  rcases Bool.or_eq_true_iff.mp float with decimal | hex
  · rcases decimalFloat_sign ((accepts_iff _ _).mp decimal) with point | small | capital
    · exact lacks (by simp) point
    · exact lacks (by simp) small
    · exact lacks (by simp) capital
  · rcases hexFloat_sign ((accepts_iff _ _).mp hex) with small | capital
    · exact lacks (by simp) small
    · exact lacks (by simp) capital

theorem told_octal (matched : octalInteger.Matches s.toList) : Told .octalLit s := by
  obtain ⟨zero, rest, split, first, matched⟩ := matches_seq.mp matched
  obtain ⟨mark, digits, rfl, letter, more⟩ := matches_seq.mp matched
  rcases matches_alt.mp letter with letter | none
  · refine told_marked (b := .octal) (split ▸ .seq first (.seq letter more)) rfl ?_
    rintro ⟨c, marked, member⟩ overlooked
    have either : c = 'o' ∨ c = 'O' := by simpa [Base.marks] using marked
    cases overlooked with
    | unmarked small capital =>
        rcases either with rfl | rfl
        · exact small member
        · exact capital member
  · cases matches_empty.mp none
    have matched : unmarkedOctal.Matches s.toList := split ▸ .seq first more
    refine .inr ⟨.unmarked (matched.not_mem (by decide)) (matched.not_mem (by decide)), .inl ?_⟩
    refine guess_unknown ?_ (unmarked_unmatched matched) (matched.not_mem (by decide))
      (isFloat_of_avoids matched (List.all_eq_true.mp (by decide)))
    intro empty
    rw [empty] at matched
    exact absurd ((nullable_iff _).mpr matched) (by decide)

/-- No pattern matches a fraction that is overlooked. -/
theorem isFloat_of_overlooked (overlooked : Overlooked .floatLit cs) : isFloat cs = false := by
  refine Bool.eq_false_iff.mpr fun float => ?_
  have float := (Bool.or_eq_true_iff.mp float).imp (accepts_iff _ _).mp (accepts_iff _ _).mp
  cases overlooked with
  | @fraction cs small capital =>
      rcases float with decimal | hex
      · rcases matches_alt.mp decimal with whole | exponent
        · obtain ⟨digits, rest, split, first, _⟩ := matches_seq.mp whole
          obtain ⟨_, _, rfl, digit, _⟩ := matches_seq.mp first
          obtain ⟨c, isDigit, rfl⟩ := matches_one.mp digit
          cases (List.cons.inj split).1
          exact absurd isDigit (by decide)
        · obtain ⟨dot, rest, split, point, matched⟩ := matches_seq.mp exponent
          obtain ⟨digits, power, rfl, _, letter⟩ := matches_seq.mp matched
          obtain ⟨c, _, rfl⟩ := matches_one.mp point
          cases split
          exact (exponent_letter letter).elim (fun e => small (List.mem_append_right digits e))
            fun e => capital (List.mem_append_right digits e)
      · obtain ⟨zero, rest, split, first, _⟩ := matches_seq.mp hex
        obtain ⟨c, same, rfl⟩ := matches_one.mp first
        cases (List.cons.inj split).1
        exact absurd same (by decide)
  | @hexFraction mark cs marked =>
      rcases float with decimal | hex
      · have avoided : ∀ c ∈ Base.hex.marks.toList, decimalFloatPattern.avoids c = true :=
          List.all_eq_true.mp (by decide)
        exact decimal.not_mem (avoided mark marked) (by simp)
      · obtain ⟨zero, rest, split, first, matched⟩ := matches_seq.mp hex
        obtain ⟨letter, rest, rfl, second, matched⟩ := matches_seq.mp matched
        obtain ⟨digits, rest, rfl, third, _⟩ := matches_seq.mp matched
        obtain ⟨_, _, rfl⟩ := matches_one.mp first
        obtain ⟨_, _, rfl⟩ := matches_one.mp second
        obtain ⟨digit, more, rfl, third, _⟩ := matches_seq.mp third
        obtain ⟨gap, d, spaced, isDigit, rfl⟩ := Base.matches_spacedDigit.mp third
        rcases spaced with rfl | rfl
        · cases split
          exact absurd isDigit (by decide)
        · cases split

/-- What the rule for numbers with a fraction or an exponent reads, a pattern matches or it is
overlooked. -/
theorem float_cases (matched : float.Matches cs) : isFloat cs = true ∨ Overlooked .floatLit cs := by
  have found {p : Pattern} (h : p.Matches cs)
    (listed : p = decimalFloatPattern ∨ p = hexFloatPattern) :
      isFloat cs = true := by
    rw [isFloat, Bool.or_eq_true, accepts_iff, accepts_iff]
    rcases listed with rfl | rfl
    · exact .inl h
    · exact .inr h
  rcases matches_alt.mp matched with decimal | hex
  · rcases matches_alt.mp decimal with whole | fraction
    · exact .inl (found (p := decimalFloatPattern) (.left whole) (.inl rfl))
    · obtain ⟨dot, rest, rfl, point, fraction⟩ := matches_seq.mp fraction
      obtain ⟨digits, power, rfl, digits', power'⟩ := matches_seq.mp fraction
      rcases matches_alt.mp power' with exponent | none
      · exact .inl (found (p := decimalFloatPattern) (.right (.seq point (.seq digits' exponent)))
          (.inl rfl))
      · cases matches_empty.mp none
        obtain ⟨c, same, rfl⟩ := matches_one.mp point
        rw [eq_of_beq same, List.append_nil]
        exact .inr (.fraction (digits'.not_mem (by decide)) (digits'.not_mem (by decide)))
  · obtain ⟨zero, rest, rfl, first, hex⟩ := matches_seq.mp hex
    obtain ⟨mark, rest, rfl, second, hex⟩ := matches_seq.mp hex
    obtain ⟨mantissa, power, rfl, mantissa', power'⟩ := matches_seq.mp hex
    rcases matches_alt.mp mantissa' with whole | fraction
    · obtain ⟨digits, more, rfl, digits', more'⟩ := matches_seq.mp whole
      rw [List.append_assoc digits] at found ⊢
      exact .inl
        (found (p := hexFloatPattern) (.seq first (.seq second (.seq digits' (.seq more' power'))))
        (.inr rfl))
    · obtain ⟨dot, digits, rfl, point, _⟩ := matches_seq.mp fraction
      obtain ⟨_, isZero, rfl⟩ := matches_one.mp first
      obtain ⟨c, marked, rfl⟩ := matches_one.mp second
      obtain ⟨_, isPoint, rfl⟩ := matches_one.mp point
      rw [eq_of_beq isZero, eq_of_beq isPoint]
      exact .inr (.hexFraction (List.contains_iff_mem.mp marked))

theorem unmatched_of_mem {c : Char} (avoided : ∀ b : Base, b.pattern.avoids c = true)
    (member : c ∈ cs) (b : Base) :
    ¬ b.pattern.Matches cs := fun matched => matched.not_mem (avoided b) member

theorem told_float (matched : float.Matches s.toList) : Told .floatLit s := by
  have unquoted : '\x22' ∉ s.toList := matched.not_mem (by decide)
  have filled : s.toList ≠ [] := by
    intro empty
    rw [empty] at matched
    exact absurd ((nullable_iff _).mpr matched) (by decide)
  rcases float_cases matched with found | overlooked
  · have unmatched (b : Base) : ¬ b.pattern.Matches s.toList := fun integer => by
      rw [isFloat_of_integer integer] at found
      cases found
    refine .inl ⟨fun overlooked => ?_, .float64, List.mem_singleton_self _, ?_⟩
    · rw [isFloat_of_overlooked overlooked] at found
      cases found
    · rw [guess_other unmatched filled, isQuoted_of_not_mem unquoted, found]
      rfl
  · have point : '.' ∈ s.toList := by
      generalize s.toList = cs at overlooked
      cases overlooked <;> simp
    refine .inr ⟨overlooked, .inl ?_⟩
    exact guess_unknown filled (unmatched_of_mem (fun b => by cases b <;> decide) point) unquoted
      (isFloat_of_overlooked overlooked)

theorem told_string (matched : interpretedString.Matches s.toList) :
    Told .interpretedStringLit s := by
  obtain ⟨first, rest, split, opening, matched⟩ := matches_seq.mp matched
  obtain ⟨body, last, rfl, _, closing⟩ := matches_seq.mp matched
  obtain ⟨c, isQuote, rfl⟩ := matches_one.mp opening
  obtain ⟨d, isQuote', rfl⟩ := matches_one.mp closing
  rw [eq_of_beq isQuote, eq_of_beq isQuote'] at split
  have quoted : isQuoted s.toList = true := by
    rw [split, ← List.append_assoc, isQuoted, List.getLast?_concat]
    rfl
  refine .inl ⟨by rintro ⟨⟩, .string, List.mem_singleton_self _, ?_⟩
  have quote : '\x22' ∈ s.toList := by simp [split]
  have unmatched := unmatched_of_mem (fun b => by cases b <;> decide) quote
  rw [guess_other unmatched (by simp [split]), quoted]
  rfl

theorem told_of_rule {rule : Spelling} (literal : rule ∈ literals)
    (matched : rule.pattern.Matches s.toList) : Told rule.kind s := by
  simp only [literals, List.mem_cons, List.not_mem_nil, or_false] at literal
  rcases literal with rfl | rfl | rfl | rfl | rfl | rfl
  · exact told_decimal matched
  · exact told_binary matched
  · exact told_octal matched
  · exact told_hex matched
  · exact told_float matched
  · exact told_string matched

theorem told_of_mem_scan {text : String} {t : Token} (member : .token t ∈ Lexeme.scan text)
    (literal : t.kind.literalTypes ≠ []) : Told t.kind t.text := by
  rcases (scan_scans text).matched member with last | ⟨mode, rule, listed, kind, matched⟩
  · rw [last] at literal
    exact absurd rfl literal
  · rw [← kind] at literal ⊢
    exact told_of_rule (mem_literals listed literal) matched

theorem unknown_not_expected (k : Kind) : .unknown ∉ k.literalTypes := by
  cases k <;> decide

theorem Lexeme.mem_of_mem_words {ls : List Lexeme} {t : Token} (member : t ∈ Lexeme.words ls) :
    .token t ∈ ls := by
  obtain ⟨l, listed, found⟩ := List.mem_filterMap.mp (List.mem_filter.mp member).1
  cases l with
  | token t' =>
      cases found
      exact listed
  | unread u => cases found

/-- In a text that is read as one literal, the type that is guessed is of the literal's kind just if
the literal is not overlooked; and if it is, no type is found for it, or the digits are too many. -/
theorem literal_typed_iff {text : String} {t : Token}
    (sole : Lexeme.words (Lexeme.scan text) = [t]) (literal : t.kind.literalTypes ≠ []) :
    ((∃ u ∈ t.kind.literalTypes, guess t.text = .ok u) ↔ ¬ Overlooked t.kind t.text.toList) ∧
      (Overlooked t.kind t.text.toList → guess t.text = .ok .unknown ∨
      ∃ n, guess t.text = .error (.tooLong n)) := by
  have member : .token t ∈ Lexeme.scan text :=
    Lexeme.mem_of_mem_words (sole ▸ List.mem_singleton_self t)
  rcases told_of_mem_scan member literal with ⟨seen, typed⟩ | ⟨overlooked, outcome⟩
  · exact ⟨⟨fun _ => seen, fun _ => typed⟩, fun overlooked => absurd overlooked seen⟩
  · refine ⟨⟨?_, fun seen => absurd overlooked seen⟩, fun _ => outcome⟩
    rintro ⟨u, expected, typed⟩
    rcases outcome with unknown | ⟨n, long⟩
    · rw [unknown] at typed
      cases typed
      exact absurd expected (unknown_not_expected t.kind)
    · rw [long] at typed
      cases typed

/-- A fraction without an exponent that begins with its point: it is read as a number, and no type
is found for it. -/
theorem half_untyped :
    let t : Token := ⟨.floatLit, ".5", 0, 2, ⟨1, 0⟩, false⟩
    Lexeme.words (Lexeme.scan ".5") = [t] ∧ t.kind.literalTypes = [.float64] ∧
    Overlooked t.kind t.text.toList ∧
      guess t.text ≠ .ok .float64 := by
  intro t
  have sole : Lexeme.words (Lexeme.scan ".5") = [t] := by decide +kernel
  have overlooked : Overlooked t.kind t.text.toList := by
    rw [show t.text.toList = ['.', '5'] from by decide]
    exact .fraction (by decide) (by decide)
  have typed := (literal_typed_iff sole (by decide)).1
  exact ⟨sole, rfl, overlooked,
    fun h => typed.mp ⟨.float64, List.mem_singleton_self _, h⟩ overlooked⟩

end Literal

end GoFlow
