import GoFlow.Dot.Statement
import GoFlow.Proofs.Matching
import Mathlib.Data.List.DropRight

/-! Reading a DOT text word by word. A value that is written is read back as one word that ends
where the value ends; the backslashes in it come back as they were, except that of an odd number of
them before a quote the last one is lost. -/

namespace GoFlow.Dot

open Pattern Text

/-- A word of a DOT text. Names, numerals and quoted texts are all identifiers. -/
inductive Word where
  | keyword (text : String)
  | id (text : String)
  | mark (text : String)
  deriving DecidableEq, Repr

def isBlank (c : Char) : Bool := " \t\r\n".toList.contains c

/-- A name begins with a letter or an underscore, or with any character beyond ASCII. -/
def beginsName (c : Char) : Bool := isNameStart c || decide (128 ≤ c.toNat)

def continuesName (c : Char) : Bool := isNameChar c || decide (128 ≤ c.toNat)

def isMark (c : Char) : Bool := "\x7b\x7d[]=:;,".toList.contains c

/-- Reads a text up to the quote that closes it. A backslash and the character after it are a pair,
in which a quote does not close the text. The pair with a quote stands for the quote, any other for
itself; `slashed` says that the backslash of a pair has been read. -/
def readQuoted (slashed : Bool) : List Char → Option (List Char × List Char)
  | [] => none
  | c :: cs =>
      if slashed then
        (readQuoted false cs).map fun r =>
          ((if c = '\x22' then ['\x22'] else ['\\', c]) ++ r.1, r.2)
      else if c = '\x22' then some ([], cs)
      else if c = '\\' then readQuoted true cs
      else (readQuoted false cs).map fun r => (c :: r.1, r.2)

def readUnsigned (cs : List Char) : Option (List Char × List Char) :=
  let whole := cs.takeWhile isDecimalDigit
  let rest := cs.dropWhile isDecimalDigit
  if rest.head? = some '.' then
    let fraction := rest.tail.takeWhile isDecimalDigit
    if whole.isEmpty && fraction.isEmpty then none
    else some (whole ++ '.' :: fraction, rest.tail.dropWhile isDecimalDigit)
  else if whole.isEmpty then none
  else some (whole, rest)

def readNumeral (cs : List Char) : Option (List Char × List Char) :=
  if cs.head? = some '-' then (readUnsigned cs.tail).map fun r =>
    ('-' :: r.1, r.2) else readUnsigned cs

/-- The word at the beginning of a text, and what is left. -/
def readWord : List Char → Option (Word × List Char)
  | [] => none
  | c :: cs =>
      if c = '\x22' then (readQuoted false cs).map fun r => (.id (String.ofList r.1), r.2)
      else if beginsName c then
        let name := String.ofList (c :: cs.takeWhile continuesName)
        some (if keywords.contains (name.map Char.toLower) then .keyword name else .id name,
          cs.dropWhile continuesName)
      else if isMark c then some (.mark c.toString, cs)
      else if c = '-' && cs.head? == some '>' then some (.mark "->", cs.tail)
      else (readNumeral (c :: cs)).map fun r => (.id (String.ofList r.1), r.2)

/-- The words read from the beginning of a text, one after another and with blanks between them, and
what is left. -/
inductive ReadsWords : List Char → List Word → List Char → Prop
  | done {cs : List Char} : ReadsWords cs [] cs
  | blank {c : Char} {cs rest : List Char} {ws : List Word} (blank : isBlank c = true)
      (more : ReadsWords cs ws rest) : ReadsWords (c :: cs) ws rest
  | word {cs mid rest : List Char} {w : Word} {ws : List Word} (read : readWord cs = some (w, mid))
      (more : ReadsWords mid ws rest) : ReadsWords cs (w :: ws) rest

theorem ReadsWords.append {cs mid rest : List Char} {ws us : List Word}
    (first : ReadsWords cs ws mid) (second : ReadsWords mid us rest) :
    ReadsWords cs (ws ++ us) rest := by
  induction first with
  | done => exact second
  | blank blank _ ih => exact .blank blank (ih second)
  | word read _ ih => exact .word read (ih second)

/-! ## Quoted texts -/

/-- The text that comes back from an escaped one, where `slashes` backslashes stand directly before
it. -/
def settleFrom (slashes : Nat) : List Char → List Char
  | [] => List.replicate slashes '\\'
  | c :: cs =>
      if c = '\\' then settleFrom (slashes + 1) cs
      else if c = '\x22' then List.replicate (slashes / 2 * 2) '\\' ++ '\x22' :: settleFrom 0 cs
      else List.replicate slashes '\\' ++ c :: settleFrom 0 cs

/-- What is read where a text has been written. -/
def settled (s : String) : String := String.ofList (settleFrom 0 s.toList)

/-- The number of backslashes directly before each quote of the text is even. -/
def EvenlySlashed (cs : List Char) : Prop :=
  ∀ before after, cs = before ++ '\x22' :: after → (before.rtakeWhile (· == '\\')).length % 2 = 0

section

variable {c : Char} {n k : Nat} {cs rest : List Char}

theorem readQuoted_pairs (k : Nat) (cs : List Char) :
    readQuoted false (List.replicate (k * 2) '\\' ++ cs) =
      (readQuoted false cs).map fun r => (List.replicate (k * 2) '\\' ++ r.1, r.2) := by
  induction k with
  | zero => simp
  | succ k ih =>
      rw [Nat.succ_mul, List.replicate_succ, List.replicate_succ, List.cons_append,
        List.cons_append]
      simp only [readQuoted, ih, Option.map_map]
      rfl

/-- Backslashes before another character than a quote are read as they are, also where the last one
makes a pair with that character. -/
theorem readQuoted_run (slash : c ≠ '\\') (quote : c ≠ '\x22') (n : Nat) (cs : List Char) :
    readQuoted false (List.replicate n '\\' ++ c :: cs) =
      (readQuoted false cs).map fun r => (List.replicate n '\\' ++ c :: r.1, r.2) := by
  obtain ⟨k, rfl | rfl⟩ : ∃ k, n = k * 2 ∨ n = k * 2 + 1 := ⟨n / 2, by omega⟩
  · rw [readQuoted_pairs]
    simp [readQuoted, slash, quote, Function.comp_def]
  -- The last backslash makes a pair with the character, and the pair stands for itself.
  · rw [List.replicate_succ', List.append_assoc, readQuoted_pairs]
    simp [readQuoted, quote, Function.comp_def]

/-- An escaped text that does not end in a backslash is read up to the quote after it. -/
theorem readQuoted_escape (n : Nat) (cs rest : List Char)
    (ends : (List.replicate n '\\' ++ cs).getLast? ≠ some '\\') :
    readQuoted false (escapeFrom n cs ++ '\x22' :: rest) = some (settleFrom n cs, rest) := by
  induction cs generalizing n with
  | nil =>
      cases n with
      | zero => rfl
      | succ n => simp [List.replicate_succ'] at ends
  | cons c cs ih =>
      have later : cs.getLast? ≠ some '\\' := by
        intro last
        apply ends
        simp [List.getLast?_append, List.getLast?_cons, last]
      rw [escapeFrom, settleFrom]
      split_ifs with slash quote
      · apply ih
        rw [slash] at ends
        rwa [List.replicate_succ', List.append_assoc, List.singleton_append]
      · rw [List.append_assoc, readQuoted_pairs]
        simp [readQuoted, ih 0 later]
      · rw [List.append_assoc, List.cons_append, readQuoted_run slash quote, ih 0 later]
        rfl

theorem rtakeWhile_append_cons {p : Char → Bool} (xs ys : List Char) (stop : p c = false) :
    (xs ++ c :: ys).rtakeWhile p = ys.rtakeWhile p := by
  have cut : (ys.reverse ++ c :: xs.reverse).takeWhile p = ys.reverse.takeWhile p := by
    rw [List.takeWhile_append]
    split_ifs with whole
    · rw [List.takeWhile_cons_of_neg (by simp [stop]), List.append_nil]
      exact ((List.takeWhile_prefix p).eq_of_length whole).symm
    · rfl
  rw [List.rtakeWhile, List.rtakeWhile, List.reverse_append, List.reverse_cons, List.append_assoc,
    List.singleton_append, cut]

theorem replicate_append_quote {a b : Nat} {us vs : List Char} :
    List.replicate a '\\' ++ '\x22' :: us = List.replicate b '\\' ++ '\x22' :: vs ↔
      a = b ∧ us = vs := by
  have cut (n : Nat) (ws : List Char) :
      (List.replicate n '\\' ++ '\x22' :: ws).takeWhile (· == '\\') = List.replicate n '\\' := by
    rw [List.takeWhile_append_of_pos fun c member => by simp [List.eq_of_mem_replicate member]]
    simp
  constructor
  · intro same
    have count := congrArg (fun l => (l.takeWhile (· == '\\')).length) same
    simp only [cut, List.length_replicate] at count
    subst count
    exact ⟨rfl, (List.cons.inj (List.append_cancel_left same)).2⟩
  · rintro ⟨rfl, rfl⟩
    rfl

theorem forall_before_quote {P : List Char → Prop} :
    (∀ before after, c :: cs = before ++ '\x22' :: after → P before) ↔
      (c = '\x22' → P []) ∧ ∀ before after, cs = before ++ '\x22' :: after → P (c :: before) := by
  constructor
  · intro all
    refine ⟨fun quote => all [] cs (by rw [quote, List.nil_append]), fun before after split => ?_⟩
    exact all (c :: before) after (by rw [split, List.cons_append])
  · rintro ⟨first, later⟩ before after split
    cases before with
    | nil => exact first (List.cons.inj split).1
    | cons d before =>
        cases split
        exact later before after rfl

/-- What comes back is the text itself just if the number of backslashes before each quote is
even. -/
theorem settleFrom_eq_iff (n : Nat) (cs : List Char) :
    settleFrom n cs = List.replicate n '\\' ++ cs ↔
      ∀ before after, cs = before ++ '\x22' :: after →
        ((List.replicate n '\\' ++ before).rtakeWhile (· == '\\')).length % 2 = 0 := by
  induction cs generalizing n with
  | nil => simp [settleFrom]
  | cons c cs ih =>
      have fresh : settleFrom 0 cs = cs ↔ _ := ih 0
      have stop (slash : c ≠ '\\') (ys : List Char) :
          (List.replicate n '\\' ++ c :: ys).rtakeWhile (· == '\\') = ys.rtakeWhile (· == '\\') :=
        rtakeWhile_append_cons _ _ (beq_false_of_ne slash)
      rw [settleFrom, forall_before_quote]
      split_ifs with slash quote
      · have shift (xs : List Char) :
            List.replicate n '\\' ++ '\\' :: xs = List.replicate (n + 1) '\\' ++ xs := by
          rw [List.replicate_succ', List.append_assoc, List.singleton_append]
        simp only [slash, shift, ih]
        simp
      · have run : (List.replicate n '\\').rtakeWhile (· == '\\') = List.replicate n '\\' :=
          List.rtakeWhile_eq_self_iff.mpr fun c member => by simp [List.eq_of_mem_replicate member]
        simp only [stop slash]
        rw [quote, replicate_append_quote, fresh]
        simp only [List.append_nil, run, List.length_replicate, List.replicate_zero,
          List.nil_append, true_implies]
        refine and_congr_left' ?_
        omega
      · rw [List.append_cancel_left_eq, List.cons.injEq, and_iff_right rfl, fresh]
        simp only [stop slash, quote, List.replicate_zero, List.nil_append, false_implies, true_and]

theorem settled_eq_iff (s : String) : settled s = s ↔ EvenlySlashed s.toList := by
  rw [EvenlySlashed, ← String.toList_inj, settled, String.toList_ofList]
  exact settleFrom_eq_iff 0 s.toList

end

/-! ## Names and numerals -/

/-- A name or a numeral before the text is not continued by it. -/
def Stops (rest : List Char) : Prop := ∀ c ∈ rest.head?, continuesName c = false ∧ c ≠ '.'

section

variable {p : Char → Bool} {c : Char} {cs rest : List Char} {s : String}

theorem span_append (cs rest : List Char) (all : ∀ c ∈ cs, p c = true)
    (stop : ∀ c ∈ rest.head?, p c = false) :
    (cs ++ rest).takeWhile p = cs ∧ (cs ++ rest).dropWhile p = rest := by
  rw [List.takeWhile_append_of_pos all, List.dropWhile_append_of_pos all]
  cases rest with
  | nil => simp
  | cons c rest => simp [stop c rfl]

theorem matches_many_one : (many (one p)).Matches cs ↔ ∀ c ∈ cs, p c = true := by
  induction cs with
  | nil => simp [Matches.none]
  | cons c cs ih =>
      rw [matches_many_cons, List.forall_mem_cons, ← ih]
      constructor
      · rintro ⟨ys, zs, rfl, first, more⟩
        obtain ⟨d, accepted, same⟩ := matches_one.mp first
        cases same
        exact ⟨accepted, more⟩
      · rintro ⟨accepted, more⟩
        exact ⟨[], cs, rfl, .one accepted, more⟩

theorem matches_oneOrMore_one :
    (oneOrMore (one p)).Matches cs ↔ cs ≠ [] ∧ ∀ c ∈ cs, p c = true := by
  rw [oneOrMore, matches_seq]
  constructor
  · rintro ⟨_, more, rfl, first, rest⟩
    obtain ⟨c, accepted, rfl⟩ := matches_one.mp first
    exact ⟨by simp, List.forall_mem_cons.mpr ⟨accepted, matches_many_one.mp rest⟩⟩
  · rintro ⟨filled, all⟩
    obtain ⟨c, more, rfl⟩ := List.exists_cons_of_ne_nil filled
    rw [List.forall_mem_cons] at all
    exact ⟨[c], more, rfl, .one all.1, matches_many_one.mpr all.2⟩

theorem matches_name : namePattern.Matches cs ↔
    ∃ c more, cs = c :: more ∧ isNameStart c = true ∧ ∀ d ∈ more, isNameChar d = true := by
  rw [namePattern, matches_seq]
  constructor
  · rintro ⟨_, more, rfl, first, rest⟩
    obtain ⟨c, accepted, rfl⟩ := matches_one.mp first
    exact ⟨c, more, rfl, accepted, matches_many_one.mp rest⟩
  · rintro ⟨c, more, rfl, accepted, rest⟩
    exact ⟨[c], more, rfl, .one accepted, matches_many_one.mpr rest⟩

theorem readWord_name (named : namePattern.Matches s.toList) (stops : Stops rest) :
    readWord (s.toList ++ rest) =
      some (if keywords.contains (s.map Char.toLower) then .keyword s else .id s, rest) := by
  obtain ⟨c, more, split, first, later⟩ := matches_name.mp named
  have unquoted : c ≠ '\x22' := by
    rintro rfl
    cases first
  have begins : beginsName c = true := by simp [beginsName, first]
  have names : ∀ d ∈ more, continuesName d = true :=
    fun d member => by simp [continuesName, later d member]
  obtain ⟨taken, left⟩ := span_append more rest names fun d head => (stops d head).1
  have whole : String.ofList (c :: more) = s := by rw [← split, String.ofList_toList]
  rw [split, List.cons_append, readWord, if_neg unquoted, if_pos begins]
  simp only [taken, left, whole]

theorem of_isDecimalDigit {P : Char → Prop} (digit : isDecimalDigit c = true)
    (all : ∀ k < 128, isDecimalDigit (Char.ofNat k) = true → P (Char.ofNat k)) : P c := by
  have small : c.toNat < 128 := by
    simp only [isDecimalDigit, Bool.and_eq_true, decide_eq_true_eq] at digit
    exact Nat.lt_of_le_of_lt (show c.toNat ≤ '9'.toNat from digit.2) (by decide)
  exact of_ascii (P := fun c => isDecimalDigit c = true → P c) small all digit

theorem continuesName_of_isDecimalDigit (digit : isDecimalDigit c = true) :
    continuesName c = true :=
  of_isDecimalDigit (P := fun c => continuesName c = true) digit (by decide +kernel)

/-- The parts of a numeral: a sign, digits, and a point with more digits, of which some may be
absent. -/
structure NumeralParts (sign whole tail : List Char) : Prop where
  signed : sign = [] ∨ sign = ['-']
  digits : ∀ c ∈ whole, isDecimalDigit c = true
  pointed : tail = [] ∧ whole ≠ [] ∨
    ∃ fraction, tail = '.' :: fraction ∧ (∀ c ∈ fraction, isDecimalDigit c = true) ∧
    (whole ≠ [] ∨ fraction ≠ [])

theorem numeral_parts (matched : numeralPattern.Matches cs) :
    ∃ sign whole tail, cs = sign ++ (whole ++ tail) ∧ NumeralParts sign whole tail := by
  obtain ⟨sign, rest, rfl, signed, matched⟩ := matches_seq.mp matched
  have signed : sign = [] ∨ sign = ['-'] := by
    rcases matches_alt.mp signed with minus | none
    · obtain ⟨c, same, rfl⟩ := matches_one.mp minus
      exact .inr (by rw [eq_of_beq same])
    · exact .inl (matches_empty.mp none)
  have point {xs : List Char} (h : (char '.').Matches xs) : xs = ['.'] := by
    obtain ⟨c, same, rfl⟩ := matches_one.mp h
    rw [eq_of_beq same]
  rcases matches_alt.mp matched with fraction | whole
  · obtain ⟨dot, digits, rfl, isPoint, digits'⟩ := matches_seq.mp fraction
    obtain ⟨filled, all⟩ := matches_oneOrMore_one.mp digits'
    cases point isPoint
    exact ⟨sign, [], '.' :: digits, rfl, signed, by simp, .inr ⟨digits, rfl, all, .inr filled⟩⟩
  · obtain ⟨digits, tail, rfl, digits', more⟩ := matches_seq.mp whole
    obtain ⟨filled, all⟩ := matches_oneOrMore_one.mp digits'
    refine ⟨sign, digits, tail, rfl, signed, all, ?_⟩
    rcases matches_alt.mp more with fraction | none
    · obtain ⟨dot, decimals, rfl, isPoint, decimals'⟩ := matches_seq.mp fraction
      cases point isPoint
      exact .inr ⟨decimals, rfl, matches_many_one.mp decimals', .inl filled⟩
    · exact .inl ⟨matches_empty.mp none, filled⟩

theorem readUnsigned_parts {sign whole tail : List Char} (parts : NumeralParts sign whole tail)
    (stops : Stops rest) : readUnsigned (whole ++ (tail ++ rest)) = some (whole ++ tail, rest) := by
  have stop : ∀ c ∈ rest.head?, isDecimalDigit c = false := fun c head =>
      Bool.eq_false_iff.mpr fun digit =>
    absurd (continuesName_of_isDecimalDigit digit) (by simp [(stops c head).1])
  rcases parts.pointed with ⟨rfl, filled⟩ | ⟨fraction, rfl, decimals, filled⟩
  · obtain ⟨taken, left⟩ := span_append whole rest parts.digits stop
    have noPoint : rest.head? ≠ some '.' := fun point => (stops '.' point).2 rfl
    rw [List.nil_append, readUnsigned]
    simp only [taken, left, noPoint, if_false, List.isEmpty_iff, filled, List.append_nil]
  · obtain ⟨taken, left⟩ :=
      span_append whole ('.' :: (fraction ++ rest)) parts.digits fun c head => by
        cases head
        rfl
    obtain ⟨taken', left'⟩ := span_append fraction rest decimals stop
    have some : ¬ (whole = [] ∧ fraction = []) := fun none => filled.elim (· none.1) (· none.2)
    rw [List.cons_append, readUnsigned]
    simp only [taken, left, List.head?_cons, if_true, List.tail_cons, taken', left',
      Bool.and_eq_true, List.isEmpty_iff, some, if_false]

/-- A numeral after its sign begins with a character that begins no other word. -/
theorem NumeralParts.begins {sign whole tail : List Char} (parts : NumeralParts sign whole tail) :
    ∃ c more, whole ++ tail = c :: more ∧
      c ≠ '\x22' ∧ beginsName c = false ∧ isMark c = false ∧ c ≠ '-' ∧ c ≠ '>' := by
  rcases whole with _ | ⟨c, more⟩
  · rcases parts.pointed with ⟨_, filled⟩ | ⟨fraction, rfl, _⟩
    · cases filled rfl
    · exact ⟨'.', fraction, rfl, by decide⟩
  · refine ⟨c, more ++ tail, rfl, ?_⟩
    exact of_isDecimalDigit (P := fun c => c ≠ '\x22' ∧ beginsName c = false ∧ isMark c = false ∧
      c ≠ '-' ∧ c ≠ '>') (parts.digits c (by simp)) (by decide +kernel)

theorem readWord_numeral (matched : numeralPattern.Matches s.toList) (stops : Stops rest) :
    readWord (s.toList ++ rest) = some (.id s, rest) := by
  obtain ⟨sign, whole, tail, split, parts⟩ := numeral_parts matched
  obtain ⟨c, more, start, quote, name, mark, minus, arrow⟩ := parts.begins
  have unsigned := readUnsigned_parts parts stops
  rw [← List.append_assoc, start, List.cons_append] at unsigned
  have whole : String.ofList (sign ++ c :: more) = s := by
    rw [← start, ← split, String.ofList_toList]
  have minus' : some c ≠ some '-' := fun same => minus (Option.some.inj same)
  have arrow' : (some c == some '>') = false :=
    beq_false_of_ne fun same => arrow (Option.some.inj same)
  rw [split, start]
  rcases parts.signed with rfl | rfl
  · rw [List.nil_append, List.cons_append, readWord, if_neg quote]
    simp only [name, mark, minus, readNumeral, List.head?_cons, minus', unsigned, decide_false,
      Bool.false_and, Bool.false_eq_true, if_false, Option.map_some]
    exact congrArg (fun t => some (Word.id t, rest)) whole
  · rw [List.append_assoc, List.singleton_append, List.cons_append, readWord, if_neg (by decide),
      if_neg (by decide), if_neg (by decide)]
    simp only [List.head?_cons, arrow', readNumeral, List.tail_cons, unsigned, Bool.and_false,
      Bool.false_eq_true, if_false, if_true, Option.map_some]
    exact congrArg (fun t => some (Word.id t, rest)) whole

end

/-! ## Values -/

/-- A value that makes a single word. A text in angle brackets is none, a backslash at the end would
escape the quote that closes the text, and a line break is left out of a name. -/
structure Sealed (s : String) : Prop where
  unbracketed : isBracketed s = false
  unslashed : s.toList.getLast? ≠ some '\\'
  unbroken : isPlain s = true → s.toList.getLast? ≠ some '\n'

/-- A name that is no keyword. -/
def isName (s : String) : Bool :=
  namePattern.accepts s.toList && !keywords.contains (s.map Char.toLower)

section

variable {c : Char} {cs rest : List Char} {s n p : String}

theorem dropFinalBreak_eq (unbroken : cs.getLast? ≠ some '\n') : dropFinalBreak cs = cs := by
  unfold dropFinalBreak
  split
  · exact absurd ‹_› unbroken
  · rfl

theorem settled_of_not_mem (absent : '\x22' ∉ s.toList) : settled s = s := by
  rw [settled_eq_iff]
  intro before after split
  exact absurd (by simp [split]) absent

theorem readWord_quote (closed : Sealed s) (stops : Stops rest) :
    readWord ((quote s).toList ++ rest) = some (.id (settled s), rest) := by
  rw [quote, closed.unbracketed, Bool.false_or]
  split_ifs with plain
  · have unbroken := closed.unbroken plain
    simp only [isPlain, dropFinalBreak_eq unbroken, Bool.or_self, Bool.and_eq_true,
      Bool.not_eq_true', accepts_iff, matches_alt] at plain
    rcases plain with ⟨named | numeral, free⟩
    · rw [settled_of_not_mem (named.not_mem (by decide))]
      rw [readWord_name named stops, free]
      rfl
    · rw [settled_of_not_mem (numeral.not_mem (by decide))]
      exact readWord_numeral numeral stops
  · have whole : ("\"" ++ escape s ++ "\"").toList ++ rest =
        '\x22' :: (escapeFrom 0 s.toList ++ '\x22' :: rest) := by
      simp [escape]
    have read := readQuoted_escape 0 s.toList rest closed.unslashed
    rw [whole, readWord, if_pos rfl, read]
    rfl

theorem isName_iff : isName s = true ↔
    namePattern.Matches s.toList ∧ keywords.contains (s.map Char.toLower) = false := by
  rw [isName, Bool.and_eq_true, accepts_iff, Bool.not_eq_true']

theorem readWord_isName (named : isName s = true) (stops : Stops rest) :
    readWord (s.toList ++ rest) = some (.id s, rest) := by
  obtain ⟨matched, free⟩ := isName_iff.mp named
  rw [readWord_name matched stops, free]
  rfl

theorem quote_of_isName (named : isName s = true) : quote s = s := by
  have plain : isPlain s = true := by
    rw [isName_iff] at named
    simp only [isPlain, Bool.and_eq_true, Bool.or_eq_true, Bool.not_eq_true', accepts_iff]
    exact ⟨.inl (matches_alt.mpr (.inl named.1)), named.2⟩
  rw [quote, plain, Bool.or_true, if_pos rfl]

theorem ne_colon_of_isName (named : isName s = true) : ∀ c ∈ s.toList, (c != ':') = true := by
  intro c member
  rw [bne_iff_ne]
  rintro rfl
  exact (isName_iff.mp named).1.not_mem (by decide) member

theorem cutAtColon_port (named : isName n = true) : cutAtColon (n ++ ":" ++ p) = (n, p) := by
  obtain ⟨taken, left⟩ :=
    span_append n.toList (':' :: p.toList) (ne_colon_of_isName named) (by simp)
  have split : (n ++ ":" ++ p).toList = n.toList ++ ':' :: p.toList := by simp
  simp only [cutAtColon, split, taken, left, List.drop_succ_cons, List.drop_zero,
    String.ofList_toList]

theorem cutAtColon_name (named : isName p = true) : cutAtColon p = (p, "") := by
  obtain ⟨taken, left⟩ := span_append p.toList [] (ne_colon_of_isName named) (by simp)
  rw [List.append_nil] at taken left
  simp only [cutAtColon, taken, left, String.ofList_toList, List.drop_nil, String.ofList_nil]

end

/-! ## Statements -/

/-- An end of an edge that names a node and a port. -/
def IsEnd (s : String) : Prop :=
  ∃ node port, isName node = true ∧ isName port = true ∧ s = node ++ ":" ++ port

def endWords (s : String) : List Word := [.id (cutAtColon s).1, .mark ":", .id (cutAtColon s).2]

def assignmentWords (a : String × String) : List Word := [.id a.1, .mark "=", .id a.2]

namespace Statement

/-- The words of a statement. Of a label it is what comes back of it. -/
def words : Statement → List Word
  | setting key value => assignmentWords (key, value)
  | node name label shape =>
      [.id name, .mark "[", .id "label", .mark "=", .id (settled label), .id "shape", .mark "=",
        .id shape, .mark "]"]
  | edge tail head attributes =>
      endWords tail ++ .mark "->" :: endWords head ++
        if attributes.isEmpty then []
        else .mark "[" :: (attributes.mergeSort attributeOrder).flatMap assignmentWords ++
        [.mark "]"]

/-- Every value of the statement is a name, but for a label, which is a single word. -/
def Sound : Statement → Prop
  | setting key value => isName key = true ∧ isName value = true
  | node name label shape => isName name = true ∧ Sealed label ∧ isName shape = true
  | edge tail head attributes =>
      IsEnd tail ∧ IsEnd head ∧ ∀ a ∈ attributes, isName a.1 = true ∧ isName a.2 = true

end Statement

def opening (name : String) : List Word := [.keyword "digraph", .id name, .mark "\x7b"]

def words (name : String) (body : List Statement) : List Word :=
  opening name ++ body.flatMap Statement.words ++ [.mark "\x7d"]

section

variable {c : Char} {cs rest : List Char} {ws : List Word} {s n shape : String}

theorem Stops.cons (stop : continuesName c = false ∧ c ≠ '.') : Stops (c :: cs) := by
  rintro d ⟨⟩
  exact stop

theorem ReadsWords.name (named : isName s = true) (stops : Stops cs)
    (more : ReadsWords cs ws rest) :
    ReadsWords (s.toList ++ cs) (.id s :: ws) rest := .word (readWord_isName named stops) more

theorem ReadsWords.mark (mark : isMark c = true) (other : c ≠ '\x22' ∧ beginsName c = false)
    (more : ReadsWords cs ws rest) : ReadsWords (c :: cs) (.mark c.toString :: ws) rest := by
  refine .word ?_ more
  rw [readWord, if_neg other.1, other.2, if_neg Bool.false_ne_true, if_pos mark]

theorem readsWords_assignment (a : String × String) (key : isName a.1 = true)
    (value : isName a.2 = true) (stops : Stops rest) :
    ReadsWords ((assignment a).toList ++ rest) (assignmentWords a) rest := by
  have split : (assignment a).toList ++ rest = a.1.toList ++ '=' :: (a.2.toList ++ rest) := by
    simp [assignment, quote_of_isName key, quote_of_isName value]
  rw [split]
  exact .name key (.cons (by decide)) (.mark (by decide) (by decide) (.name value stops .done))

theorem readsWords_attributes {as : List (String × String)}
    (named : ∀ a ∈ as, isName a.1 = true ∧ isName a.2 = true) (stops : Stops rest) :
    ReadsWords ((" ".intercalate (as.map assignment)).toList ++ rest)
      (as.flatMap assignmentWords) rest := by
  induction as with
  | nil => exact .done
  | cons a as ih =>
      obtain ⟨⟨key, value⟩, later⟩ := List.forall_mem_cons.mp named
      cases as with
      | nil => simpa using readsWords_assignment a key value stops
      | cons b bs =>
          have split : (" ".intercalate ((a :: b :: bs).map assignment)).toList ++ rest =
              (assignment a).toList ++ ' ' ::
                ((" ".intercalate ((b :: bs).map assignment)).toList ++ rest) := by
            simp
          rw [split]
          exact (readsWords_assignment a key value (.cons (by decide))).append
            (.blank (by decide) (ih later))

theorem readsWords_end (isEnd : IsEnd s) (stops : Stops rest) :
    ReadsWords ((quoteEnd s).toList ++ rest) (endWords s) rest := by
  obtain ⟨node, port, node', port', rfl⟩ := isEnd
  have filled : port.isEmpty = false := by
    rw [Bool.eq_false_iff]
    intro empty
    rw [String.isEmpty_iff.mp empty] at port'
    exact absurd port' (by decide +kernel)
  have split : (quoteEnd (node ++ ":" ++ port)).toList ++ rest = node.toList ++ ':' ::
      (port.toList ++ rest) := by
    simp [quoteEnd, cutAtColon_port node', cutAtColon_name port', filled, quote_of_isName node',
      quote_of_isName port']
  rw [split, endWords, cutAtColon_port node']
  exact .name node' (.cons (by decide)) (.mark (by decide) (by decide) (.name port' stops .done))

theorem readsWords_before_label (named : isName n = true) :
    ReadsWords (("\t" ++ quote n ++ " [label=").toList ++ rest)
      [.id n, .mark "[", .id "label", .mark "="] rest := by
  have split : ("\t" ++ quote n ++ " [label=").toList ++ rest =
      '\t' :: (n.toList ++ ' ' :: '[' :: ("label".toList ++ '=' :: rest)) := by
    simp [quote_of_isName named]
  rw [split]
  refine .blank (by decide)
    (.name named (.cons (by decide)) (.blank (by decide) (.mark (by decide) (by decide) ?_)))
  exact .name (by decide +kernel) (.cons (by decide)) (.mark (by decide) (by decide) .done)

theorem readsWords_after_label (shaped : isName s = true) :
    ReadsWords ((" shape=" ++ quote s ++ "]\n").toList ++ rest)
      [.id "shape", .mark "=", .id s, .mark "]"] rest := by
  have split : (" shape=" ++ quote s ++ "]\n").toList ++ rest =
      ' ' :: ("shape".toList ++ '=' :: (s.toList ++ ']' :: '\n' :: rest)) := by
    simp [quote_of_isName shaped]
  rw [split]
  refine .blank (by decide)
    (.name (by decide +kernel) (.cons (by decide)) (.mark (by decide) (by decide) ?_))
  exact .name shaped (.cons (by decide)) (.mark (by decide) (by decide) (.blank (by decide) .done))

theorem readsWords_brackets {as : List (String × String)}
    (named : ∀ a ∈ as, isName a.1 = true ∧ isName a.2 = true) :
    ReadsWords ((" [" ++ " ".intercalate (as.map assignment) ++ "]").toList ++ '\n' :: rest)
      (.mark "[" :: as.flatMap assignmentWords ++ [.mark "]"]) rest := by
  have split : (" [" ++ " ".intercalate (as.map assignment) ++ "]").toList ++ '\n' :: rest =
      ' ' :: '[' :: ((" ".intercalate (as.map assignment)).toList ++ ']' :: '\n' :: rest) := by simp
  rw [split, List.cons_append]
  refine .blank (by decide) (.mark (by decide) (by decide) ?_)
  refine (readsWords_attributes named (.cons (by decide))).append (.mark (by decide) (by decide) ?_)
  exact .blank (by decide) .done

theorem readsWords_edge {tail head : String} {attributes : List (String × String)}
    (isTail : IsEnd tail) (isHead : IsEnd head)
    (named : ∀ a ∈ attributes, isName a.1 = true ∧ isName a.2 = true) :
    ReadsWords ((Statement.edge tail head attributes).line.toList ++ rest)
      (Statement.edge tail head attributes).words rest := by
  have arrow (cs : List Char) : readWord ('-' :: '>' :: cs) = some (.mark "->", cs) := rfl
  have split : (Statement.edge tail head attributes).line.toList ++ rest =
      '\t' :: ((quoteEnd tail).toList ++ ' ' :: '-' :: '>' :: ' ' :: ((quoteEnd head).toList ++
        ((if attributes.isEmpty then ""
          else " [" ++ " ".intercalate ((attributes.mergeSort attributeOrder).map assignment) ++
          "]").toList ++ '\n' :: rest))) := by simp [Statement.line]
  rw [split, Statement.words, List.append_assoc, List.cons_append]
  refine .blank (by decide) ((readsWords_end isTail (.cons (by decide))).append ?_)
  refine .blank (by decide) (.word (arrow _) (.blank (by decide) ?_))
  split_ifs
  · rw [String.toList_empty, List.nil_append]
    exact (readsWords_end isHead (.cons (by decide))).append (.blank (by decide) .done)
  · have sorted : ∀ a ∈ attributes.mergeSort attributeOrder,
        isName a.1 = true ∧ isName a.2 = true :=
      fun a member => named a (List.mem_mergeSort.mp member)
    exact (readsWords_end isHead (by simpa using Stops.cons (by decide))).append
      (readsWords_brackets sorted)

theorem readsWords_line {s : Statement} (sound : s.Sound) :
    ReadsWords (s.line.toList ++ rest) s.words rest := by
  cases s with
  | setting key value =>
      have split : (Statement.setting key value).line.toList ++ rest =
          '\t' :: ((assignment (key, value)).toList ++ '\n' :: rest) := by simp [Statement.line]
      rw [split]
      refine .blank (by decide)
        ((readsWords_assignment (key, value) sound.1 sound.2 (.cons (by decide))).append ?_)
      exact .blank (by decide) .done
  | node name label shape =>
      have split : (Statement.node name label shape).line.toList ++ rest =
          ("\t" ++ quote name ++ " [label=").toList ++ ((quote label).toList ++
            ((" shape=" ++ quote shape ++ "]\n").toList ++ rest)) := by simp [Statement.line]
      have stops : Stops ((" shape=" ++ quote shape ++ "]\n").toList ++ rest) := by
        simpa using Stops.cons (by decide)
      rw [split]
      exact (readsWords_before_label sound.1).append
        (.word (readWord_quote sound.2.1 stops) (readsWords_after_label sound.2.2))
  | edge tail head attributes => exact readsWords_edge sound.1 sound.2.1 sound.2.2

theorem readsWords_body {body : List Statement} (sound : ∀ s ∈ body, s.Sound) :
    ReadsWords ((String.join (body.map Statement.line)).toList ++ rest)
      (body.flatMap Statement.words) rest := by
  induction body with
  | nil => exact .done
  | cons s body ih =>
      obtain ⟨first, later⟩ := List.forall_mem_cons.mp sound
      have split : (String.join ((s :: body).map Statement.line)).toList ++ rest =
          s.line.toList ++ ((String.join (body.map Statement.line)).toList ++ rest) := by simp
      rw [split, List.flatMap_cons]
      exact (readsWords_line first).append (ih later)

theorem readsWords_opening (named : isName n = true) :
    ReadsWords (("digraph " ++ quote n ++ " \x7b\n").toList ++ rest) (opening n) rest := by
  have accepted : namePattern.accepts "digraph".toList = true := by decide +kernel
  have keyword (cs : List Char) :
      readWord ("digraph".toList ++ ' ' :: cs) = some (.keyword "digraph", ' ' :: cs) := by
    rw [readWord_name ((accepts_iff _ _).mp accepted) (.cons (by decide)),
      if_pos (by decide +kernel)]
  have split : ("digraph " ++ quote n ++ " \x7b\n").toList ++ rest =
      "digraph".toList ++ ' ' :: (n.toList ++ ' ' :: '\x7b' :: '\n' :: rest) := by
    simp [quote_of_isName named]
  rw [split]
  refine .word (keyword _)
    (.blank (by decide) (.name named (.cons (by decide)) (.blank (by decide) ?_)))
  exact .mark (by decide) (by decide) (.blank (by decide) .done)

theorem readsWords_render {body : List Statement} (named : isName n = true)
    (sound : ∀ s ∈ body, s.Sound) : ReadsWords (render n body).toList (words n body) [] := by
  have split : (render n body).toList = ("digraph " ++ quote n ++ " \x7b\n").toList ++
      ((String.join (body.map Statement.line)).toList ++ ['\x7d', '\n']) := by simp [render]
  rw [split, words, List.append_assoc]
  refine (readsWords_opening named).append ((readsWords_body sound).append ?_)
  exact .mark (by decide) (by decide) (.blank (by decide) .done)

/-- A label within the text of a graph is a word by itself, and its statement goes on behind it. -/
theorem readsWords_label {before after : List Statement} {label : String}
    (named : isName n = true)
    (sound : ∀ t ∈ before ++ Statement.node s label shape :: after, t.Sound) :
    ∃ rest, ReadsWords (render n (before ++ Statement.node s label shape :: after)).toList
        (opening n ++ before.flatMap Statement.words ++
          [Word.id s, .mark "[", .id "label", .mark "="])
        ((quote label).toList ++ (" shape=".toList ++ rest)) ∧
      readWord ((quote label).toList ++ (" shape=".toList ++ rest)) =
        some (.id (settled label), " shape=".toList ++ rest) := by
  obtain ⟨ahead, later⟩ := List.forall_mem_append.mp sound
  have here : (Statement.node s label shape).Sound := (List.forall_mem_cons.mp later).1
  let rest := (quote shape ++ "]\n").toList ++
      ((String.join (after.map Statement.line)).toList ++ ['\x7d', '\n'])
  refine ⟨rest, ?_, readWord_quote here.2.1 (by simpa using Stops.cons (by decide))⟩
  have split : (render n (before ++ .node s label shape :: after)).toList =
      ("digraph " ++ quote n ++ " \x7b\n").toList ++
      ((String.join (before.map Statement.line)).toList ++
        (("\t" ++ quote s ++ " [label=").toList ++
        ((quote label).toList ++ (" shape=".toList ++ rest)))) := by
    simp [render, Statement.line, rest]
  rw [split, List.append_assoc]
  exact (readsWords_opening named).append
    ((readsWords_body ahead).append (readsWords_before_label here.1))

theorem readWord_blank (blank : isBlank c = true) : readWord (c :: cs) = none := by
  have cases : c = ' ' ∨ c = '\t' ∨ c = '\r' ∨ c = '\n' := by simpa [isBlank] using blank
  rcases cases with rfl | rfl | rfl | rfl <;> rfl

/-- A text that is read to its end can be read in one way only. -/
theorem ReadsWords.unique {us : List Word} (first : ReadsWords cs ws [])
    (second : ReadsWords cs us []) : ws = us := by
  -- A blank begins no word, so that the two readings take the same steps.
  generalize done : [] = rest at first
  induction first generalizing us with
  | done =>
      subst done
      cases second with
      | done => rfl
      | word read _ => cases read
  | blank blank _ ih =>
      cases second with
      | blank _ more => exact ih more done
      | word read _ => cases (readWord_blank blank).symm.trans read
  | word read _ ih =>
      cases second with
      | done => cases read
      | blank blank _ => cases (readWord_blank blank).symm.trans read
      | word read' more =>
          cases read.symm.trans read'
          rw [ih more done]

end

end GoFlow.Dot
