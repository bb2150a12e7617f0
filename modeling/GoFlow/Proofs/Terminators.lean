import GoFlow.Proofs.Scanning
import Mathlib.Data.List.TakeWhile

/-! Where statement terminators stand. A terminator follows only a token that can end a statement;
after such a token no line break is passed over, for in `lineEnding` mode a line break is read as
part of a terminator, and the mode is left only before a token that is seen. -/

namespace GoFlow

open Pattern

/-- The kinds of tokens that can end a statement: some keywords, names, closing brackets, steps and
literals. -/
def Kind.endsLine (k : Kind) : Bool :=
  [.kwBreak, .kwContinue, .kwFallthrough, .kwReturn, .nilLit, .identifier, .rParen, .rCurly,
    .rBracket, .plusPlus,
    .minusMinus, .decimalLit, .binaryLit, .octalLit, .hexLit, .floatLit, .decimalFloatLit,
    .hexFloatLit, .imaginaryLit, .runeLit, .rawStringLit, .interpretedStringLit].contains k

/-- A line ends within the text. -/
def Broken (cs : List Char) : Prop := '\n' ∈ cs ∨ '\r' ∈ cs

theorem broken_append {xs ys : List Char} : Broken (xs ++ ys) ↔ Broken xs ∨ Broken ys := by
  simp only [Broken, List.mem_append]
  exact or_or_or_comm

theorem not_broken_nil : ¬ Broken [] := by
  simp [Broken]

theorem Pattern.Matches.unbroken {p : Pattern} {xs : List Char} (h : p.Matches xs)
    (feed : p.avoids '\n' = true) (carriage : p.avoids '\r' = true) : ¬ Broken xs :=
  fun broken => broken.elim (h.not_mem feed) (h.not_mem carriage)

namespace Spelling

variable {mode : Mode} {rule : Spelling} {word rest : List Char}

theorem Wins.mem_front (wins : Wins mode rule word rest) {front back : List Spelling}
    (split : rules mode = front ++ back) {r : Spelling} (member : r ∈ front)
    (matched : r.pattern.Matches word) : rule ∈ front := by
  have first := wins.first
  rw [split, List.find?_append] at first
  cases found : front.find? (fun r => r.pattern.accepts word) with
  | none => exact absurd ((accepts_iff _ _).mpr matched) (List.find?_eq_none.mp found r member)
  | some r' =>
      rw [found, Option.some_or] at first
      cases first
      exact List.mem_of_find?_eq_some found

def isPart (r : Spelling) : Bool := r.kind == .decimalFloatLit || r.kind == .hexFloatLit

/-- A number with a fraction or an exponent is read by the rule for both ways of writing it, which
comes before the rules for either. -/
theorem Wins.not_part (wins : Wins .plain rule word rest) : rule.isPart = false := by
  by_contra part
  have own : rule ∈ plainRules.filter isPart :=
    List.mem_filter.mpr ⟨wins.mem, Bool.not_eq_false _ ▸ part⟩
  have matched : float.Matches word := by
    have parts : plainRules.filter isPart =
      [inside .decimalFloatLit decimalFloat, inside .hexFloatLit hexFloat] := rfl
    rw [parts, List.mem_cons, List.mem_singleton] at own
    rcases own with rfl | rfl
    · exact .left wins.matched
    · exact .right wins.matched
  have whole : ending .floatLit float ∈ plainRules.takeWhile fun r => !r.isPart :=
    List.mem_of_getElem? (show (plainRules.takeWhile fun r => !r.isPart)[68]? = _ from rfl)
  have front := wins.mem_front List.takeWhile_append_dropWhile.symm whole matched
  simpa [part] using List.mem_takeWhile_imp front

/-- The mode after a token that is seen tells whether it can end a statement. -/
theorem Wins.next_iff (wins : Wins mode rule word rest) (visible : rule.hidden = false) :
    rule.next = .lineEnding ↔ rule.kind.endsLine = true := by
  have all : (rules mode).all (fun r =>
      r.hidden || r.isPart || decide (r.next = .lineEnding) == r.kind.endsLine) = true := by
    cases mode <;> decide +kernel
  have whole : rule.isPart = false := by
    cases mode with
    | plain => exact wins.not_part
    | lineEnding =>
        have none : (rules .lineEnding).all (fun r => !r.isPart) = true := by decide +kernel
        simpa using List.all_eq_true.mp none rule wins.mem
  have same : decide (rule.next = .lineEnding) = rule.kind.endsLine := by
    simpa [visible, whole] using List.all_eq_true.mp all rule wins.mem
  rw [← same, decide_eq_true_iff]

/-- What the rules of `plain` mode do not do: hidden tokens do not change the mode, and no token is
a terminator. -/
theorem plain_rule (member : rule ∈ rules .plain) :
    (rule.hidden = true → rule.next = .plain) ∧ rule.kind ≠ .eos ∧
      rule.pattern.nullable = false := by
  have all : plainRules.all (fun r => decide ((r.hidden = true → r.next = .plain) ∧ r.kind ≠ .eos ∧
      r.pattern.nullable = false)) = true := by decide +kernel
  exact of_decide_eq_true (List.all_eq_true.mp all rule member)

/-- The rules of `lineEnding` mode: blanks and comments within the line, the terminator, and the
mark that the statement goes on. -/
theorem lineEnding_rule (member : rule ∈ rules .lineEnding) :
    (rule.hidden = true ∧ rule.next = .lineEnding ∧ ∀ xs, rule.pattern.Matches xs → ¬ Broken xs) ∨
      rule = inside .eos (firstOf [lineBreaks, char ';', comment]) ∨ rule = blank .other empty := by
  simp only [rules, lineEndingRules, List.mem_cons, List.not_mem_nil, or_false] at member
  rcases member with rfl | rfl | rfl | rfl | rfl
  · exact .inl ⟨rfl, rfl, fun xs h => h.unbroken (by decide) (by decide)⟩
  · exact .inl ⟨rfl, rfl, fun xs h => h.unbroken (by decide) (by decide)⟩
  · exact .inl ⟨rfl, rfl, fun xs h => h.unbroken (by decide) (by decide)⟩
  · exact .inr (.inl rfl)
  · exact .inr (.inr rfl)

/-- What `plain` mode hides, and the semicolon, `lineEnding` mode has a rule for. -/
theorem lineEnding_covers (member : rule ∈ rules .plain)
    (passed : rule.hidden = true ∨ rule.kind = .semi) {xs : List Char}
    (matched : rule.pattern.Matches xs) : ∃ r ∈ rules .lineEnding, r.pattern.Matches xs := by
  have own : rule ∈ plainRules.filter fun r => r.hidden || r.kind == .semi :=
    List.mem_filter.mpr ⟨member, by simpa using passed⟩
  rw [show (plainRules.filter fun r => r.hidden || r.kind == .semi) =
    [fixed inside .semi, blank .ws blanks,
    blank .comment comment, blank .terminator lineBreaks,
    blank .lineComment lineComment] from rfl] at own
  have first : rules .lineEnding = lineEndingRules := rfl
  simp only [first, lineEndingRules, List.mem_cons, List.not_mem_nil, or_false, exists_eq_or_imp,
    exists_eq_left] at own ⊢
  rcases own with rfl | rfl | rfl | rfl | rfl
  · exact .inr (.inr (.inr (.inl (.right (.left matched)))))
  · exact .inl matched
  · exact .inr (.inr (.inr (.inl (.right (.right matched)))))
  · exact .inr (.inr (.inr (.inl (.left matched))))
  · exact .inr (.inr (.inl matched))

theorem shortComment_of_comment {xs : List Char} (matched : comment.Matches xs)
    (whole : ¬ Broken xs) : shortComment.Matches xs := by
  have narrows : Narrows (fun c => c ≠ '\n' ∧ c ≠ '\r') comment shortComment := by
    refine .seq (.same _) (.seq (.many (.alt (.one fun c other kept => ?_)
      (.seq (.same _) (.one fun c other kept => ?_)))) (.same _))
    · simpa [kept] using other
    · simpa [kept] using other
  refine narrows.matches matched fun c member => ⟨?_, ?_⟩
  · rintro rfl
    exact whole (.inl member)
  · rintro rfl
    exact whole (.inr member)

theorem Wins.terminates
    (wins : Wins .lineEnding (inside .eos (firstOf [lineBreaks, char ';', comment])) word rest) :
    word = [';'] ∨ Broken word := by
  rcases matches_alt.mp wins.matched with breaks | other
  · obtain ⟨ys, zs, rfl, first, _⟩ := matches_seq.mp breaks
    obtain ⟨c, accepted, rfl⟩ := matches_one.mp first
    have ends : c = '\r' ∨ c = '\n' := by simpa using accepted
    refine .inr (broken_append.mpr (.inl ?_))
    rcases ends with rfl | rfl
    · exact .inr List.mem_cons_self
    · exact .inl List.mem_cons_self
  · rcases matches_alt.mp other with semicolon | comment
    · obtain ⟨c, accepted, rfl⟩ := matches_one.mp semicolon
      exact .inl (by simpa using accepted)
    · by_contra neither
      rw [not_or] at neither
      -- the rule for comments within the line would have come first
      have front := wins.mem_front
          (show rules .lineEnding = lineEndingRules.take 2 ++ lineEndingRules.drop 2 from rfl)
          (List.mem_cons_of_mem _ List.mem_cons_self) (shortComment_of_comment comment neither.2)
      have kinds : (lineEndingRules.take 2).all (fun r => r.kind != .eos) = true := by
        decide +kernel
      simpa [inside] using List.all_eq_true.mp kinds _ front

end Spelling

open Spelling

namespace Scans

variable {start : Nat} {place : Position} {cs : List Char} {ls after : List Lexeme}
  {between : List Token} {u : Token}

theorem not_terminator (scans : Scans .plain start place cs ls)
    (split : ls = between.map .token ++ .token u :: after)
    (hidden : ∀ v ∈ between, v.hidden = true) : u.kind ≠ .eos := by
  induction between generalizing start place cs ls with
  | nil =>
      cases split
      cases scans with
      | finished => simp
      | token _ wins _ => exact (plain_rule wins.mem).2.1
  | cons v between ih =>
      cases scans with
      | finished => cases between <;> cases split
      | @token _ _ _ rule _ _ _ _ wins next =>
          obtain ⟨same, tail⟩ := List.cons.inj split
          cases same
          have stays : rule.next = .plain := (plain_rule wins.mem).1 (hidden _ List.mem_cons_self)
          rw [stays] at next
          exact ih next tail fun w member => hidden w (List.mem_cons_of_mem _ member)
      | unread => cases split

/-- After the mark that a statement goes on comes a token that is seen, and no semicolon. -/
theorem goes_on {rest : List Char} (wins : Wins .lineEnding (blank .other empty) [] rest)
    (scans : Scans .plain start place rest (.token u :: ls)) :
    u.hidden = false ∧ u.kind ≠ .semi := by
  cases scans with
  | finished => simp
  | @token _ _ _ rule word rest _ _ found _ =>
      by_contra passed
      rw [not_and_or, Bool.not_eq_false, not_not] at passed
      obtain ⟨r, member, matched⟩ := lineEnding_covers found.mem passed found.matched
      have filled : word ≠ [] := by
        rintro rfl
        exact Bool.eq_false_iff.mp (plain_rule found.mem).2.2 ((nullable_iff _).mpr found.matched)
      exact wins.longest r member word filled (List.prefix_append word rest) matched

/-- After a token that can end a statement, the next token that is seen is a terminator, or no line
ends before it. -/
theorem terminator_or_whole (scans : Scans .lineEnding start place cs ls)
    (split : ls = between.map .token ++ .token u :: after) (hidden : ∀ v ∈ between, v.hidden = true)
    (visible : u.hidden = false) :
    (u.kind = .eos ∧ (u.text = ";" ∨ Broken u.text.toList)) ∨
      u.kind ≠ .eos ∧ u.kind ≠ .semi ∧
        ∃ gap left, cs = gap ++ left ∧ u.start = start + gap.length ∧ ¬ Broken gap := by
  induction between generalizing start place cs ls with
  | nil =>
      cases split
      cases scans with
      | finished => exact .inr ⟨by simp, by simp, [], [], rfl, rfl, not_broken_nil⟩
      | @token _ _ _ rule word rest _ _ wins next =>
          rcases lineEnding_rule wins.mem with ⟨unseen, _⟩ | rfl | rfl
          · rw [unseen] at visible
            cases visible
          · refine .inl ⟨rfl, wins.terminates.imp ?_ ?_⟩
            · rintro rfl
              rfl
            · exact fun broken => (String.toList_ofList).symm ▸ broken
          · cases visible
  | cons v between ih =>
      cases scans with
      | finished => cases between <;> cases split
      | @token _ _ _ rule word rest _ _ wins next =>
          obtain ⟨same, tail⟩ := List.cons.inj split
          cases same
          have others : ∀ w ∈ between, w.hidden = true :=
            fun w member => hidden w (List.mem_cons_of_mem _ member)
          rcases lineEnding_rule wins.mem with ⟨_, stays, unbroken⟩ | rfl | rfl
          · rw [stays] at next
            refine (ih next tail others).imp id ?_
            rintro ⟨eos, semi, gap, left, rfl, begins, whole⟩
            refine ⟨eos, semi, word ++ gap, left, (List.append_assoc _ _ _).symm, ?_, ?_⟩
            · rw [begins, List.length_append, Nat.add_assoc]
            · exact fun broken => (broken_append.mp broken).elim (unbroken word wins.matched) whole
          · cases hidden _ List.mem_cons_self
          · cases matches_empty.mp wins.matched
            cases between with
            | nil =>
                subst tail
                have goesOn := next.goes_on wins
                exact .inr ⟨next.not_terminator rfl (by simp), goesOn.2, [], rest, rfl, next.here.1,
                  not_broken_nil⟩
            | cons w between =>
                subst tail
                have seen := (next.goes_on wins).1
                rw [others w List.mem_cons_self] at seen
                cases seen
      | unread => cases split

end Scans

theorem eq_map_token {ls : List Lexeme} (readable : ∀ l ∈ ls, l.unread? = none) :
    ls = (ls.filterMap Lexeme.token?).map .token := by
  induction ls with
  | nil => rfl
  | cons l ls ih =>
      have rest := ih fun k member => readable k (List.mem_cons_of_mem l member)
      cases l with
      | token t => exact congrArg (Lexeme.token t :: ·) rest
      | unread u => cases readable _ List.mem_cons_self

/-- Two neighbours among the tokens that are seen, in a text in which everything can be read. The
second is a terminator only if the first can end a statement, and then it is a semicolon or a line
ends in it. If the first can end a statement and the second is no terminator, no line ends between
them and the second is no semicolon. -/
theorem terminator_after_line_end (text : String)
    (readable : ∀ l ∈ Lexeme.scan text, l.unread? = none) (before between after : List Token)
    (t u : Token)
    (split : (Lexeme.scan text).filterMap Lexeme.token? = before ++ t :: between ++ u :: after)
    (first : t.hidden = false) (second : u.hidden = false)
    (hidden : ∀ v ∈ between, v.hidden = true) :
    (u.kind = .eos → t.kind.endsLine = true ∧ (u.text = ";" ∨ Broken u.text.toList)) ∧
      (t.kind.endsLine = true → u.kind ≠ .eos →
        ¬ Broken ((text.toList.drop t.finish).take (u.start - t.finish)) ∧ u.kind ≠ .semi) := by
  have whole := eq_map_token readable
  rw [split, List.map_append, List.map_append, List.map_cons, List.map_cons, List.append_assoc,
    List.cons_append] at whole
  obtain ⟨mode, seen, left, same, scans⟩ := scan_reach whole (List.cons_ne_nil _ _)
  generalize tail : between.map Lexeme.token ++ _ = ls at scans
  cases scans with
  | finished => simp at tail
  | @token _ _ _ rule word rest _ _ wins next =>
      constructor
      · intro terminator
        have line : rule.next = .lineEnding := by
          cases mode' : rule.next with
          | lineEnding => rfl
          | plain => exact absurd terminator ((mode' ▸ next).not_terminator tail.symm hidden)
        refine ⟨(wins.next_iff first).mp line, ?_⟩
        rcases (line ▸ next).terminator_or_whole tail.symm hidden second with ⟨_, ends⟩ | ⟨other, _⟩
        · exact ends
        · exact absurd terminator other
      · intro ends other
        have line := (wins.next_iff first).mpr ends
        rcases (line ▸ next).terminator_or_whole tail.symm hidden second with
          ⟨terminator, _⟩ | ⟨_, semi, gap, beyond, rfl, begins, kept⟩
        · exact absurd terminator other
        · refine ⟨?_, semi⟩
          rw [begins, same, ← List.append_assoc]
          simpa using kept

def sumLine : String := "x /**/ +y\n"

/-- Within the line the sum goes on after its first name, past the comment; after its second name it
ends. -/
theorem sumLine_terminated :
    let x : Token := ⟨.identifier, "x", 0, 1, ⟨1, 0⟩, false⟩
    let gap : List Token :=
      [⟨.wsLineEnd, " ", 1, 2, ⟨1, 1⟩, true⟩, ⟨.commentLineEnd, "/**/", 2, 6, ⟨1, 2⟩, true⟩,
        ⟨.wsLineEnd, " ", 6, 7, ⟨1, 6⟩, true⟩, ⟨.other, "", 7, 7, ⟨1, 7⟩, true⟩]
    let plus : Token := ⟨.plus, "+", 7, 8, ⟨1, 7⟩, false⟩
    let y : Token := ⟨.identifier, "y", 8, 9, ⟨1, 8⟩, false⟩
    let mark : Token := ⟨.eos, "\n", 9, 10, ⟨1, 9⟩, false⟩
    let last : Token := ⟨.eof, "<EOF>", 10, 10, ⟨2, 0⟩, false⟩
    (∀ l ∈ Lexeme.scan sumLine, l.unread? = none) ∧
      (Lexeme.scan sumLine).filterMap Lexeme.token? = x :: gap ++ [plus, y, mark, last] ∧
      ¬ Broken ((sumLine.toList.drop x.finish).take (plus.start - x.finish)) ∧
      y.kind.endsLine = true := by
  intro x gap plus y mark last
  have readable : ∀ l ∈ Lexeme.scan sumLine, l.unread? = none := by decide +kernel
  have tokens : (Lexeme.scan sumLine).filterMap Lexeme.token? =
      x :: gap ++ [plus, y, mark, last] := by
    decide +kernel
  have goesOn :=
    terminator_after_line_end sumLine readable [] gap [y, mark, last] x plus tokens rfl rfl
      (by decide)
  have ends :=
    terminator_after_line_end sumLine readable (x :: gap ++ [plus]) [] [last] y mark tokens rfl rfl
      (by simp)
  exact ⟨readable, tokens, (goesOn.2 rfl (by decide)).1, (ends.1 rfl).1⟩

end GoFlow
