import GoFlow.Proofs.Scanning
import Mathlib.Data.List.Chain
import Mathlib.Data.List.Induction

/-! The lexemes of a text lie side by side from its first character to its end, and each says truly
where it lies and what it is made of. -/

namespace GoFlow

open Spelling

def Lexeme.positions (l : Lexeme) : List Nat := List.range' l.start (l.finish - l.start)

/-- The line is one more than the line feeds before, the column counts the characters since the last
of them. -/
theorem Position.advanceAll_start (cs : List Char) :
    Position.start.advanceAll cs =
      ⟨1 + cs.count '\n', (cs.reverse.takeWhile (· != '\n')).length⟩ := by
  induction cs using List.reverseRecOn with
  | nil => rfl
  | append_singleton cs c ih =>
      rw [advanceAll_append, ih, List.count_append, List.reverse_append]
      by_cases feed : c = '\n'
      · simp [advanceAll, advance, feed, Nat.add_assoc]
      · simp [advanceAll, advance, feed]

/-- The end of input has no spelling, and the mark that a statement goes on leads from `lineEnding`
to `plain` mode. -/
theorem Spelling.rules_kind (mode : Mode) (r : Spelling) (member : r ∈ rules mode) :
    r.kind ≠ .eof ∧ (r.kind = .other → mode = .lineEnding ∧ r.next = .plain) := by
  have all : (rules mode).all (fun r => decide (r.kind ≠ .eof ∧
      (r.kind = .other → mode = .lineEnding ∧ r.next = .plain))) = true := by
    cases mode <;> decide +kernel
  exact of_decide_eq_true (List.all_eq_true.mp all r member)

/-- In `lineEnding` mode there is always a rule that matches. -/
theorem Spelling.Fails.plain {mode : Mode} {word rest : List Char} (fails : Fails mode word rest) :
    mode = .plain := by
  cases mode with
  | plain => rfl
  | lineEnding =>
      have last : blank .other .empty ∈ rules .lineEnding := by simp [rules, lineEndingRules]
      exact absurd .empty (fails.none _ last [] List.nil_prefix)

namespace Scans

variable {mode : Mode} {start : Nat} {place : Position} {cs : List Char} {l : Lexeme}
  {ls : List Lexeme}

/-- The end of input comes last, and only there. -/
theorem ends (scans : Scans mode start place cs ls) :
    ∃ body, ls = body ++ [Lexeme.endOfInput (start + cs.length) (place.advanceAll cs)] ∧
      ∀ t, Lexeme.token t ∈ body → t.kind ≠ .eof := by
  induction scans with
  | finished => exact ⟨[], rfl, fun t member => absurd member List.not_mem_nil⟩
  | @token mode start place rule word rest ls _ wins _ ih =>
      obtain ⟨body, rfl, kinds⟩ := ih
      refine ⟨_ :: body, by rw [Position.advanceAll_append, List.length_append, Nat.add_assoc]; rfl,
        ?_⟩
      intro t member
      rcases List.mem_cons.mp member with same | later
      · cases same
        exact (rules_kind mode rule wins.mem).1
      · exact kinds t later
  | @unread mode start place word rest ls _ _ ih =>
      obtain ⟨body, rfl, kinds⟩ := ih
      refine ⟨_ :: body, by rw [Position.advanceAll_append, List.length_append, Nat.add_assoc]; rfl,
        ?_⟩
      intro t member
      rcases List.mem_cons.mp member with same | later
      · cases same
      · exact kinds t later

theorem positions (scans : Scans mode start place cs ls) :
    ls.flatMap Lexeme.positions = List.range' start cs.length := by
  induction scans with
  | finished => simp [Lexeme.positions, Lexeme.endOfInput, Lexeme.start, Lexeme.finish]
  | token _ _ _ ih | unread _ _ ih =>
      rw [List.flatMap_cons, ih, Lexeme.positions, Lexeme.start, Lexeme.finish,
        Nat.add_sub_cancel_left, List.length_append, List.range'_append_1]

theorem chained (scans : Scans mode start place cs ls) :
    ls.IsChain fun a b => a.finish = b.start := by
  induction scans with
  | finished => exact List.isChain_singleton _
  | token _ _ next ih | unread _ next ih =>
      refine List.isChain_cons.mpr ⟨fun b first => ?_, ih⟩
      obtain ⟨ls, rfl⟩ := List.head?_eq_some_iff.mp first
      exact next.here.1.symm

theorem slice (scans : Scans mode start place cs (l :: ls)) (more : ls ≠ []) :
    ∃ word rest, cs = word ++ rest ∧ l.text = .ofList word ∧ l.finish = start + word.length := by
  cases scans with
  | finished => exact absurd rfl more
  | token => exact ⟨_, _, rfl, rfl, rfl⟩
  | unread => exact ⟨_, _, rfl, rfl, rfl⟩

/-- Only the mark that a statement goes on takes no character. -/
theorem empty_other {t : Token} (scans : Scans mode start place cs (.token t :: ls))
    (kind : t.kind ≠ .eof) (empty : t.finish ≤ t.start) : t.kind = .other := by
  cases scans with
  | finished => exact absurd rfl kind
  | @token _ _ _ rule word rest _ _ wins _ =>
      have none : word = [] :=
        List.eq_nil_of_length_eq_zero (by change start + word.length ≤ start at empty; omega)
      rw [none] at wins
      exact (rules_nullable mode rule wins.mem ((Pattern.nullable_iff _).mpr wins.matched)).2.1

/-- From `plain` mode no such mark is reached but by a token with characters. -/
theorem filled_before_other {between after : List Lexeme} {b : Token} (kind : b.kind = .other)
    (scans : Scans .plain start place cs ls) (split : ls = between ++ .token b :: after) :
    ∃ t, .token t ∈ between ∧ t.start < t.finish := by
  induction between generalizing start place cs ls with
  | nil =>
      cases split
      cases scans with
      | finished => cases kind
      | token _ wins _ => cases ((rules_kind .plain _ wins.mem).2 kind).1
  | cons l between ih =>
      have later {t : Token} (member : .token t ∈ between) : .token t ∈ l :: between :=
        List.mem_cons_of_mem l member
      cases scans with
      | finished => cases between <;> cases split
      | @token _ _ _ rule word rest _ _ wins next =>
          obtain ⟨rfl, same⟩ := List.cons.inj split
          refine ⟨_, List.mem_cons_self, ?_⟩
          cases word with
          | nil =>
              cases (rules_nullable .plain rule wins.mem
                ((Pattern.nullable_iff _).mpr wins.matched)).1
          | cons c word => exact Nat.lt_add_of_pos_right (Nat.succ_pos _)
      | unread _ next =>
          obtain ⟨t, member, filled⟩ := ih next (List.cons.inj split).2
          exact ⟨t, later member, filled⟩

end Scans

/-- Reading ends with the end of input. The other lexemes lie side by side from the first character
to the last, each with its own slice of the text, and every lexeme knows the line and the column
where it begins. Only the mark that a statement goes on is empty, and a token with characters stands
between any two such marks. What is unread goes on to the character at which the last rule
failed. -/
theorem scan_tiles (text : String) :
    let cs := text.toList
    ∃ (body : List Lexeme) (last : Token), Lexeme.scan text = body ++ [.token last] ∧
      (last.kind = .eof ∧ last.start = cs.length ∧ ∀ t, .token t ∈ body → t.kind ≠ .eof) ∧
      body.flatMap Lexeme.positions = List.range cs.length ∧
      (Lexeme.scan text).IsChain (fun a b => a.finish = b.start) ∧
      (∀ l ∈ body, l.start ≤ l.finish ∧ l.text.toList = (cs.drop l.start).take
      (l.finish - l.start)) ∧
      (∀ l ∈ Lexeme.scan text, l.place.line = 1 + (cs.take l.start).count '\n' ∧
        l.place.column = ((cs.take l.start).reverse.takeWhile (· != '\n')).length) ∧
      (∀ t, .token t ∈ body → t.finish = t.start → t.kind = .other) ∧
      (∀ before between after a b, body = before ++ .token a :: between ++ .token b :: after →
        a.kind = .other → b.kind = .other → ∃ t, .token t ∈ between ∧ t.start < t.finish) ∧
      ∀ u, .unread u ∈ body → Fails .plain u.text.toList (cs.drop u.finish) := by
  intro cs
  obtain ⟨body, whole, kinds⟩ := (scan_scans text).ends
  rw [Nat.zero_add] at whole
  -- each lexeme is the first of those read from where it begins
  have from_first {l : Lexeme} (member : l ∈ body) : ∃ mode seen rest ls,
    cs = seen ++ rest ∧ ls ≠ [] ∧
      Scans mode seen.length (Position.start.advanceAll seen) rest (l :: ls) := by
    obtain ⟨before, after, rfl⟩ := List.append_of_mem member
    rw [List.append_assoc, List.cons_append] at whole
    obtain ⟨mode, seen, rest, same, scans⟩ := scan_reach whole (List.cons_ne_nil _ _)
    exact ⟨mode, seen, rest, _, same, by simp, scans⟩
  refine ⟨body, _, whole, ⟨rfl, rfl, kinds⟩, ?_, (scan_scans text).chained, fun l member => ?_,
    fun l member => ?_, fun t member empty => ?_,
    fun before between after a b split first second => ?_, fun u member => ?_⟩
  · have positions := (scan_scans text).positions
    rw [whole, List.flatMap_append] at positions
    simpa [Lexeme.positions, Lexeme.endOfInput, Lexeme.start, Lexeme.finish, List.range_eq_range']
      using positions
  · obtain ⟨_, seen, _, _, same, more, scans⟩ := from_first member
    obtain ⟨word, rest, rfl, own, finish⟩ := scans.slice more
    rw [finish, scans.here.1, own, same]
    simp
  · obtain ⟨before, after, split⟩ := List.append_of_mem member
    obtain ⟨mode, seen, rest, same, scans⟩ := scan_reach split (List.cons_ne_nil _ _)
    rw [scans.here.1, scans.here.2, Position.advanceAll_start, show cs = seen ++ rest from same,
      List.take_left]
    exact ⟨rfl, rfl⟩
  · obtain ⟨_, _, _, _, _, _, scans⟩ := from_first member
    exact scans.empty_other (kinds t member) empty.le
  · rw [split, List.append_assoc, List.append_assoc, List.cons_append] at whole
    obtain ⟨mode, seen, rest, _, scans⟩ := scan_reach whole (List.cons_ne_nil _ _)
    generalize tail : between ++ _ = ls at scans
    cases scans with
    | finished => cases first
    | token _ wins next =>
        rw [((rules_kind mode _ wins.mem).2 first).2] at next
        exact next.filled_before_other second tail.symm
  · obtain ⟨_, seen, _, _, same, _, scans⟩ := from_first member
    cases scans with
    | unread fails next =>
        rw [same]
        simpa [fails.plain] using fails.plain ▸ fails

end GoFlow
