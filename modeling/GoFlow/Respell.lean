import GoFlow.Text.Replace

/-!
The receiver of calls in the actions of a grammar. One dialect names it `this` and negates with an
exclamation mark; the other names it `self` and negates with a word. Actions are respelled line by
line, negated receivers before the others.
-/

namespace GoFlow.Respell

def negated (line : List Char) : List Char :=
  Text.replaceAll "!this.".toList "not self.".toList line

def plain (line : List Char) : List Char := Text.replaceAll "this.".toList "self.".toList line

def line (l : List Char) : List Char := plain (negated l)

/-- The lines of a text respelled. -/
def lines (ls : List (List Char)) : List Char := ls.flatMap line

end GoFlow.Respell
