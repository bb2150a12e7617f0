import GoFlow.Proofs.Matching
import GoFlow.Token.Scan

/-! What reading at one place finds, and the reading of a whole text as a relation that knows
nothing of fuel. The relation keeps for each lexeme why it was read: the rule that won, or that no
rule matches and how far one could have gone on. -/

namespace GoFlow

open Pattern

namespace Spelling

theorem mem_afterChar {c : Char} {live : List (Spelling × Pattern)} {y : Spelling × Pattern} :
    y ∈ afterChar c live ↔ ∃ x ∈ live, x.2.after c ≠ fail ∧ y = (x.1, x.2.after c) := by
  simp only [afterChar, List.mem_filterMap, Option.ite_none_left_eq_some, Option.some.injEq,
    isFail_iff]
  exact exists_congr fun x => and_congr_right fun _ => and_congr_right fun _ => eq_comm

theorem mem_afterChar_of_matches {c : Char} {live : List (Spelling × Pattern)}
    {x : Spelling × Pattern} (member : x ∈ live) {xs : List Char}
    (matched : (x.2.after c).Matches xs) : (x.1, x.2.after c) ∈ afterChar c live := by
  refine mem_afterChar.mpr ⟨x, member, ?_, rfl⟩
  intro failed
  rw [failed] at matched
  exact not_matches_fail matched

theorem not_accepts_fail (xs : List Char) : fail.accepts xs = false :=
  Bool.eq_false_iff.mpr fun h => not_matches_fail ((accepts_iff _ _).mp h)

/-- The rules that are dropped after a character would not have matched, so the first to match stays
the first. -/
theorem find?_afterChar (c : Char) (live : List (Spelling × Pattern)) (xs : List Char) :
    ((afterChar c live).find? fun x => x.2.accepts xs).map Prod.fst =
      (live.find? fun x => x.2.accepts (c :: xs)).map Prod.fst := by
  induction live with
  | nil => rfl
  | cons x live ih =>
      rw [List.find?_cons, accepts, afterChar, List.filterMap_cons]
      by_cases failed : x.2.after c = fail
      · simp only [failed, isFail, if_true, not_accepts_fail]
        exact ih
      · have on : (x.2.after c).isFail = false := Bool.eq_false_iff.mpr fun h =>
          failed ((isFail_iff _).mp h)
        simp only [on, Bool.false_eq_true, if_false, List.find?_cons]
        cases (x.2.after c).accepts xs with
        | true => rfl
        | false => exact ih

end Spelling

namespace Reading

open Spelling

/-- Of the live rules, `rule` is the first that matches the word, and none matches more of the
text. -/
structure Leads (live : List (Spelling × Pattern)) (rule : Spelling) (word rest : List Char) :
    Prop where
  first : (live.find? fun x => x.2.accepts word).map Prod.fst = some rule
  longest : ∀ x ∈ live, ∀ more, more ≠ [] → more <+: rest → ¬ x.2.Matches (word ++ more)

/-- No live rule matches a beginning of the text. -/
def Barren (live : List (Spelling × Pattern)) (cs : List Char) : Prop :=
  ∀ x ∈ live, ∀ word, word <+: cs → ¬ x.2.Matches word

variable {live : List (Spelling × Pattern)} {best : Option (Spelling × Nat)} {n : Nat} {c : Char}
  {cs : List Char}

theorem Barren.afterChar (barren : Barren (afterChar c live) cs) {x : Spelling × Pattern}
    (member : x ∈ live) {word : List Char} (initial : word <+: cs) : ¬ x.2.Matches (c :: word) := by
  intro matched
  rw [← matches_after] at matched
  exact barren _ (mem_afterChar_of_matches member matched) word initial matched

/-- What is found before anything more is read stands if no rule goes on to a match. -/
theorem step_stands (barren : ∀ x ∈ live, ∀ d word, d :: word <+: cs → ¬ x.2.Matches (d :: word)) :
    (∃ rule, Leads live rule [] cs ∧ go.step live best n = some (rule, n)) ∨
      Barren live cs ∧ go.step live best n = best := by
  have same : (fun x : Spelling × Pattern => x.2.accepts []) = (·.2.nullable) := rfl
  cases found : live.find? (·.2.nullable) with
  | some x =>
      refine .inl ⟨x.1,
        ⟨by rw [same, found]; rfl, fun y member more filled initial => ?_⟩, by rw [go.step, found]⟩
      cases more with
      | nil => exact absurd rfl filled
      | cons d word => exact barren y member d word initial
  | none =>
      refine .inr ⟨fun y member word initial => ?_, by rw [go.step, found]⟩
      cases word with
      | nil =>
          exact fun matched => List.find?_eq_none.mp found y member ((nullable_iff _).mpr matched)
      | cons d word => exact barren y member d word initial

/-- The longest match is found, and of several the first; what was found before stands only if there
is none. -/
theorem go_best (live : List (Spelling × Pattern)) (best : Option (Spelling × Nat)) (n : Nat)
    (cs : List Char) :
    (∃ rule word rest, cs = word ++ rest ∧ Leads live rule word rest ∧
      (go live best n cs).best = some (rule, n + word.length)) ∨
      Barren live cs ∧ (go live best n cs).best = best := by
  induction cs generalizing live best n with
  | nil =>
      rw [go]
      refine (step_stands fun x _ d word initial => ?_).imp (fun ⟨rule, leads, found⟩ => ?_) id
      · cases List.prefix_nil.mp initial
      · exact ⟨rule, [], [], rfl, leads, found⟩
  | cons c cs ih =>
      -- with no rule left the reading stops, as if it went on and found nothing
      have next : (∃ rule word rest, cs = word ++ rest ∧ Leads (afterChar c live) rule word rest ∧
          (go live best n (c :: cs)).best = some (rule, n + 1 + word.length)) ∨
          Barren (afterChar c live) cs ∧ (go live best n (c :: cs)).best = go.step live best n := by
        rw [go]
        cases alive : afterChar c live with
        | nil => exact .inr ⟨fun x member => absurd member List.not_mem_nil, rfl⟩
        | cons r rs => exact ih (r :: rs) (go.step live best n) (n + 1)
      rcases next with ⟨rule, word, rest, rfl, leads, found⟩ | ⟨barren, found⟩
      · refine .inl
          ⟨rule, c :: word, rest, rfl, ⟨?_, fun x member more filled initial matched => ?_⟩, ?_⟩
        · rw [← find?_afterChar, leads.first]
        · rw [List.cons_append, ← matches_after] at matched
          exact leads.longest _ (mem_afterChar_of_matches member matched) more filled
            initial matched
        · rw [found, List.length_cons, Nat.add_assoc, Nat.add_comm 1]
      · rw [found]
        refine (step_stands fun x member d word initial => ?_).imp
          (fun ⟨rule, leads, found⟩ => ?_) id
        · obtain ⟨rfl, shorter⟩ := List.cons_prefix_cons.mp initial
          exact barren.afterChar member shorter
        · exact ⟨rule, [], c :: cs, rfl, leads, found⟩

/-- Characters are read as long as some rule can go on with them. -/
theorem go_read (live : List (Spelling × Pattern)) (best : Option (Spelling × Nat)) (n : Nat)
    (cs : List Char) {samples : List Char} (lively : ∀ x ∈ live, x.2.live samples = true) :
    ∃ seen rest, cs = seen ++ rest ∧ (go live best n cs).read = n + seen.length ∧
      (seen = [] ∨ ∃ x ∈ live, x.2.Begins seen) ∧
      ∀ d more, rest = d :: more → ∀ x ∈ live, ¬ x.2.Begins (seen ++ [d]) := by
  induction cs generalizing live best n with
  | nil =>
      refine ⟨[], [], rfl, rfl, .inl rfl, ?_⟩
      rintro d more ⟨⟩
  | cons c cs ih =>
      rw [go]
      cases alive : afterChar c live with
      | nil =>
          refine ⟨[], c :: cs, rfl, rfl, .inl rfl, ?_⟩
          rintro d more ⟨⟩ x member begins
          obtain ⟨ys, matched⟩ := (begins_after x.2 c []).mpr begins
          have left := mem_afterChar_of_matches member matched
          rw [alive] at left
          cases left
      | cons r rs =>
          have next : ∀ y ∈ r :: rs, y.2.live samples = true := by
            intro y member
            rw [← alive, mem_afterChar] at member
            obtain ⟨x, member, on, rfl⟩ := member
            exact (live_after (lively x member) c).resolve_left on
          obtain ⟨seen, rest, rfl, count, hope, offends⟩ :=
            ih (r :: rs) (go.step live best n) (n + 1) next
          refine ⟨c :: seen, rest, rfl, ?_, .inr ?_, fun d more split x member begins => ?_⟩
          · rw [count, List.length_cons, Nat.add_assoc, Nat.add_comm 1]
          · -- whichever rule is left has the characters for a beginning
            have some : ∃ y ∈ r :: rs, y.2.Begins seen := by
              rcases hope with rfl | hope
              · exact ⟨r, List.mem_cons_self, live_begins (next r List.mem_cons_self)⟩
              · exact hope
            obtain ⟨y, member, begins⟩ := some
            rw [← alive, mem_afterChar] at member
            obtain ⟨x, member, _, rfl⟩ := member
            exact ⟨x, member, (begins_after x.2 c seen).mp begins⟩
          · rw [List.cons_append, ← begins_after] at begins
            obtain ⟨ys, matched⟩ := begins
            have left : (x.1, x.2.after c) ∈ r :: rs :=
              alive ▸ mem_afterChar_of_matches member matched
            exact offends d more split _ left ⟨ys, matched⟩

end Reading

namespace Spelling

/-- Of the rules of the mode, `rule` is the first that matches the word, and none matches more of
the text. -/
structure Wins (mode : Mode) (rule : Spelling) (word rest : List Char) : Prop where
  first : (rules mode).find? (fun r => r.pattern.accepts word) = some rule
  longest : ∀ r ∈ rules mode, ∀ more, more ≠ [] → more <+: rest → ¬ r.pattern.Matches (word ++ more)

/-- No rule of the mode matches a beginning of the text. All but the last character of the word can
begin a token; with the last one they cannot, unless the text ends there. -/
structure Fails (mode : Mode) (word rest : List Char) : Prop where
  none : ∀ r ∈ rules mode, ∀ xs, xs <+: word ++ rest → ¬ r.pattern.Matches xs
  filled : word ≠ []
  hope : ∃ r ∈ rules mode, r.pattern.Begins word.dropLast
  offends : rest = [] ∨ ∀ r ∈ rules mode, ¬ r.pattern.Begins word

theorem Wins.mem {mode : Mode} {rule : Spelling} {word rest : List Char}
    (wins : Wins mode rule word rest) :
    rule ∈ rules mode := List.mem_of_find?_eq_some wins.first

theorem Wins.matched {mode : Mode} {rule : Spelling} {word rest : List Char}
    (wins : Wins mode rule word rest) : rule.pattern.Matches word := by
  have accepted := List.find?_some wins.first
  exact (accepts_iff _ _).mp accepted

/-- Characters among which every class of a spelling has a member, those first that many classes
have. -/
def samples : List Char :=
  "01Uabcdefghijklmnopqrstuvwxyz_ /*=+-.;:<>&|\\\x22\x27\x60()[]\x7b\x7d,!%~^\n".toList

theorem rules_live (mode : Mode) (r : Spelling) (member : r ∈ rules mode) :
    r.pattern.live samples = true := by
  have all : (rules mode).all (fun r => r.pattern.live samples) = true := by
    cases mode <;> decide +kernel
  exact List.all_eq_true.mp all r member

/-- Only the last rule of `lineEnding` mode matches the empty text. -/
theorem rules_nullable (mode : Mode) (r : Spelling) (member : r ∈ rules mode)
    (nullable : r.pattern.nullable = true) :
    mode = .lineEnding ∧ r.kind = .other ∧ r.next = .plain := by
  have all : (rules mode).all (fun r => !r.pattern.nullable ||
      decide (mode = .lineEnding ∧ r.kind = .other ∧ r.next = .plain)) = true := by
    cases mode <;> decide +kernel
  simpa [nullable] using List.all_eq_true.mp all r member

end Spelling

namespace Reading

open Spelling

theorem leads_rules {mode : Mode} {rule : Spelling} {word rest : List Char} :
    Leads ((rules mode).map fun r => (r, r.pattern)) rule word rest ↔ Wins mode rule word rest := by
  constructor
  · rintro ⟨first, longest⟩
    rw [List.find?_map, Option.map_map] at first
    refine ⟨?_, fun r member => longest (r, r.pattern) (List.mem_map.mpr ⟨r, member, rfl⟩)⟩
    simpa [Function.comp_def] using first
  · rintro ⟨first, longest⟩
    refine ⟨?_, fun x member => ?_⟩
    · rw [List.find?_map, Option.map_map]
      simpa [Function.comp_def] using first
    · obtain ⟨r, listed, rfl⟩ := List.mem_map.mp member
      exact longest r listed

theorem ofText_best (mode : Mode) (cs : List Char) :
    (∃ rule word rest, cs = word ++ rest ∧ Wins mode rule word rest ∧
      (ofText mode cs).best = some (rule, word.length)) ∨
      (∀ r ∈ rules mode, ∀ xs, xs <+: cs → ¬ r.pattern.Matches xs) ∧
      (ofText mode cs).best = none := by
  rcases go_best ((rules mode).map fun r => (r, r.pattern)) none 0 cs with
    ⟨rule, word, rest, split, leads, found⟩ | ⟨barren, found⟩
  · exact .inl ⟨rule, word, rest, split, leads_rules.mp leads, by rw [ofText, found, Nat.zero_add]⟩
  · exact .inr ⟨fun r member => barren (r, r.pattern) (List.mem_map.mpr ⟨r, member, rfl⟩), found⟩

theorem mem_live {mode : Mode} {x : Spelling × Pattern}
    (member : x ∈ (rules mode).map fun r => (r, r.pattern)) :
    x.1 ∈ rules mode ∧ x.2 = x.1.pattern := by
  obtain ⟨r, listed, rfl⟩ := List.mem_map.mp member
  exact ⟨listed, rfl⟩

theorem exists_rule (mode : Mode) : ∃ r, r ∈ rules mode := by
  cases mode <;> exact ⟨_, List.mem_cons_self⟩

theorem ofText_fails {mode : Mode} {cs : List Char} (filled : cs ≠ [])
    (found : (ofText mode cs).best = none) :
    Fails mode (cs.take ((ofText mode cs).read + 1)) (cs.drop ((ofText mode cs).read + 1)) := by
  have none : ∀ r ∈ rules mode, ∀ xs, xs <+: cs → ¬ r.pattern.Matches xs := by
    rcases ofText_best mode cs with ⟨_, _, _, _, _, found'⟩ | ⟨none, _⟩
    · rw [found] at found'
      cases found'
    · exact none
  obtain ⟨seen, rest, rfl, count, hope, offends⟩ := go_read _ Option.none 0 cs fun x member =>
    (mem_live member).2 ▸ rules_live mode x.1 (mem_live member).1
  have hope : ∃ r ∈ rules mode, r.pattern.Begins seen := by
    rcases hope with rfl | ⟨x, member, begins⟩
    · obtain ⟨r, member⟩ := exists_rule mode
      exact ⟨r, member, live_begins (rules_live mode r member)⟩
    · exact ⟨x.1, (mem_live member).1, (mem_live member).2 ▸ begins⟩
  rw [show (ofText mode (seen ++ rest)).read = seen.length from count.trans (Nat.zero_add _)]
  cases rest with
  | nil =>
      rw [List.append_nil, List.take_of_length_le (Nat.le_succ _),
        List.drop_of_length_le (Nat.le_succ _)]
      rw [List.append_nil] at filled none
      obtain ⟨r, member, begins⟩ := hope
      obtain ⟨more, split⟩ := List.dropLast_prefix seen
      refine ⟨by rwa [List.append_nil], filled, ⟨r, member, ?_⟩, .inl rfl⟩
      rw [← split] at begins
      exact begins.of_append
  | cons d more =>
      rw [List.append_cons] at none ⊢
      rw [List.take_left' (by simp), List.drop_left' (by simp)]
      refine ⟨none, by simp, by rwa [List.dropLast_concat], .inr fun r member => ?_⟩
      exact offends d more rfl (r, r.pattern) (List.mem_map.mpr ⟨r, member, rfl⟩)

end Reading

namespace Lexeme

def text : Lexeme → String
  | .token t => t.text
  | .unread u => u.text

def place : Lexeme → Position
  | .token t => t.place
  | .unread u => u.place

end Lexeme

open Spelling

/-- The lexemes of a text that begins at a place, read in a mode. -/
inductive Scans : Mode → Nat → Position → List Char → List Lexeme → Prop
  | finished {mode : Mode} {start : Nat} {place : Position} :
      Scans mode start place [] [.endOfInput start place]
  | token {mode : Mode} {start : Nat} {place : Position} {rule : Spelling} {word rest : List Char}
      {ls : List Lexeme} (left : word ++ rest ≠ []) (wins : Wins mode rule word rest)
      (next : Scans rule.next (start + word.length) (place.advanceAll word) rest ls) :
      Scans mode start place (word ++ rest)
        (.token ⟨rule.kind, .ofList word, start, start + word.length, place, rule.hidden⟩ :: ls)
  | unread {mode : Mode} {start : Nat} {place : Position} {word rest : List Char} {ls : List Lexeme}
      (fails : Fails mode word rest)
      (next : Scans mode (start + word.length) (place.advanceAll word) rest ls) :
      Scans mode start place (word ++ rest)
      (.unread ⟨.ofList word, start, start + word.length, place⟩ :: ls)

/-- A token that takes no character leaves `lineEnding` mode, which counts as half a character. -/
def Mode.weight : Mode → Nat
  | .plain => 0
  | .lineEnding => 1

theorem Mode.weight_le (mode : Mode) : mode.weight ≤ 1 := by
  cases mode <;> decide

theorem Spelling.Wins.progress {mode : Mode} {rule : Spelling} {word rest : List Char}
    (wins : Wins mode rule word rest) :
    2 * rest.length + rule.next.weight < 2 * (word ++ rest).length + mode.weight := by
  rw [List.length_append]
  cases word with
  | nil =>
      obtain ⟨rfl, _, next⟩ := rules_nullable mode rule wins.mem ((nullable_iff _).mpr wins.matched)
      rw [next]
      simp [Mode.weight]
  | cons c word =>
      have := rule.next.weight_le
      rw [List.length_cons]
      omega

theorem scanFrom_scans (fuel : Nat) (mode : Mode) (start : Nat) (place : Position) (cs : List Char)
    (enough : 2 * cs.length + mode.weight ≤ fuel) :
    Scans mode start place cs (Lexeme.scanFrom fuel mode start place cs) := by
  induction fuel generalizing mode start place cs with
  | zero =>
      cases cs with
      | nil => exact .finished
      | cons c cs => exact absurd enough (by simp)
  | succ fuel ih =>
      cases cs with
      | nil => exact .finished
      | cons c cs =>
          rw [Lexeme.scanFrom]
          rcases Reading.ofText_best mode (c :: cs) with ⟨rule, word, rest, split, wins, found⟩ |
            ⟨_, found⟩
          · have progress := wins.progress
            rw [← split] at progress
            simp only [found]
            rw [split, List.take_left, List.drop_left]
            exact .token (split ▸ List.cons_ne_nil c cs) wins (ih _ _ _ _ (by omega))
          · have fails := Reading.ofText_fails (List.cons_ne_nil c cs) found
            simp only [found]
            generalize (Reading.ofText mode (c :: cs)).read = read at fails ⊢
            have shorter : ((c :: cs).drop (read + 1)).length + 1 ≤ (c :: cs).length := by
              rw [List.length_drop, List.length_cons]
              omega
            have scans : Scans mode start place _ _ := .unread fails (ih _ _ _ _ (by omega))
            rwa [List.take_append_drop] at scans

theorem scan_scans (text : String) : Scans .plain 0 .start text.toList (Lexeme.scan text) :=
  scanFrom_scans _ _ _ _ _ (by simp [Mode.weight])

theorem Position.advanceAll_append (p : Position) (xs ys : List Char) :
    p.advanceAll (xs ++ ys) = (p.advanceAll xs).advanceAll ys := List.foldl_append

namespace Scans

variable {mode : Mode} {start : Nat} {place : Position} {cs : List Char} {l : Lexeme}
  {ls : List Lexeme}

theorem here (scans : Scans mode start place cs (l :: ls)) : l.start = start ∧ l.place = place := by
  cases scans <;> exact ⟨rfl, rfl⟩

/-- Whatever lexemes have been read, the others are read from where they end. -/
theorem reach (scans : Scans mode start place cs ls) {before after : List Lexeme}
    (split : ls = before ++ after) (more : after ≠ []) : ∃ mode' seen rest, cs = seen ++ rest ∧
      Scans mode' (start + seen.length) (place.advanceAll seen) rest after := by
  induction before generalizing mode start place cs ls with
  | nil =>
      cases split
      exact ⟨mode, [], cs, rfl, scans⟩
  | cons l before ih =>
      have beyond {mode' : Mode} {word rest : List Char} {ls : List Lexeme}
        (same : ls = before ++ after)
          (next : Scans mode' (start + word.length) (place.advanceAll word) rest ls) :
          ∃ mode' seen left, word ++ rest = seen ++ left ∧
            Scans mode' (start + seen.length) (place.advanceAll seen) left after := by
        obtain ⟨mode', seen, left, rfl, reached⟩ := ih next same
        refine ⟨mode', word ++ seen, left, (List.append_assoc word seen left).symm, ?_⟩
        rwa [List.length_append, ← Nat.add_assoc, Position.advanceAll_append]
      cases scans with
      | finished => exact absurd (List.append_eq_nil_iff.mp (List.cons.inj split).2.symm).2 more
      | token _ _ next => exact beyond (List.cons.inj split).2 next
      | unread _ next => exact beyond (List.cons.inj split).2 next

end Scans

theorem scan_reach {text : String} {before after : List Lexeme}
    (split : Lexeme.scan text = before ++ after) (more : after ≠ []) :
    ∃ mode seen rest, text.toList = seen ++ rest ∧
      Scans mode seen.length (Position.start.advanceAll seen) rest after := by
  obtain ⟨mode, seen, rest, same, scans⟩ := (scan_scans text).reach split more
  exact ⟨mode, seen, rest, same, Nat.zero_add seen.length ▸ scans⟩

end GoFlow
