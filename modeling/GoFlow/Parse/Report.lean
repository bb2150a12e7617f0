import GoFlow.Grammar.Category
import GoFlow.Token.Basic
import GoFlow.Token.KindSet

/-!
What is wrong with a text, where, and in which words it is told.
-/

namespace GoFlow

inductive Problem where
  /-- No token begins here. -/
  | unread (text : String)
  | mismatched (found : String) (expected : KindSet)
  | extraneous (found : String) (expected : KindSet)
  | missing (expected : KindSet) (found : String)
  | noWay (text : String)
  /-- A closing bracket must come next for the category to end here. -/
  | noBracket (category : Category)
  /-- A suffix of the level does not belong to the category. -/
  | undue (category : Category) (level : Nat)
  deriving DecidableEq, Inhabited

namespace Problem

/-- Line breaks and tabs are shown as escapes. -/
def escapeChar (c : Char) : String :=
  if c = '\n' then "\\n" else if c = '\r' then "\\r" else if c = '\t' then "\\t" else c.toString

def quote (s : String) : String := "'" ++ String.join (s.toList.map escapeChar) ++ "'"

def message : Problem → String
  | unread text => "token recognition error at: " ++ quote text
  | mismatched found expected => "mismatched input " ++ quote found ++ " expecting " ++
      expected.display
  | extraneous found expected => "extraneous input " ++ quote found ++ " expecting " ++
      expected.display
  | missing expected found => "missing " ++ expected.display ++ " at " ++ quote found
  | noWay text => "no viable alternative at input " ++ quote text
  | noBracket c =>
      "rule " ++ c.name ++ " failed predicate: \x7bself.closingBracket()\x7d?"
  | undue c level =>
      "rule " ++ c.name ++ " failed predicate: \x7bself.precpred(self._ctx, " ++ toString level ++
        ")\x7d?"

/-- The parser, not the reader of tokens, found it. -/
def isSyntactic : Problem → Bool
  | unread _ => false
  | _ => true

end Problem

structure Report where
  place : Position
  problem : Problem
  deriving DecidableEq, Inhabited

namespace Report

def ofUnread (u : Unread) : Report := ⟨u.place, .unread u.text⟩

def message (r : Report) : String := r.problem.message

end Report

end GoFlow
