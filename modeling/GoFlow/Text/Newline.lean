/-!
Line ends. A text may end its lines with a line feed, a carriage return, or both in this order.
-/

namespace GoFlow.Text

def normalNewlines : List Char → List Char
  | '\r' :: '\n' :: cs => '\n' :: normalNewlines cs
  | '\r' :: cs => '\n' :: normalNewlines cs
  | c :: cs => c :: normalNewlines cs
  | [] => []

/-- The lines of a text, each with its line feed. -/
def lines : List Char → List (List Char)
  | [] => []
  | '\n' :: cs => ['\n'] :: lines cs
  | c :: cs => match lines cs with
    | l :: ls => (c :: l) :: ls
    | [] => [[c]]

def completeLines (cs : List Char) : List (List Char) :=
  (lines cs).filter fun l => l.getLast? == some '\n'

/-- The complete lines of a text that goes on. A carriage return at its end may yet be followed by a
line feed, so it ends no line. -/
def linesSoFar (cs : List Char) : List (List Char) :=
  let cs := if cs.getLast? = some '\r' then cs.dropLast else cs
  completeLines (normalNewlines cs)

end GoFlow.Text
