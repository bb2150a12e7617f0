import GoFlow.Pattern
import GoFlow.Text.Digit

/-!
Values in a DOT text. A name or a numeral that is no keyword, and a text in angle brackets, stand
as they are; all else is quoted. A quoted text keeps its backslashes, and each quote in it is
escaped unless it is escaped already.
-/

namespace GoFlow.Dot

open Pattern Text

def isNameStart (c : Char) : Bool := c.isAlpha || c == '_'

def isNameChar (c : Char) : Bool := c.isAlphanum || c == '_'

def namePattern : Pattern := seq (one isNameStart) (many (one isNameChar))

def numeralPattern : Pattern :=
  let digits := oneOrMore (one isDecimalDigit)
  seq (maybe (char '-'))
    (alt (seq (char '.') digits)
      (seq digits (maybe (seq (char '.') (many (one isDecimalDigit))))))

def keywords : List String := ["node", "edge", "graph", "digraph", "subgraph", "strict"]

/-- A text without the line break that may end it. -/
def dropFinalBreak (cs : List Char) : List Char :=
  match cs.getLast? with
  | some '\n' => cs.dropLast
  | _ => cs

/-- The value is a name or a numeral. One line break at its end is not held against it. -/
def isPlain (s : String) : Bool :=
  let p := alt namePattern numeralPattern
  (p.accepts s.toList || p.accepts (dropFinalBreak s.toList)) &&
    !keywords.contains (s.map Char.toLower)

/-- The value stands in angle brackets, with at most a line break after them. -/
def isBracketed (s : String) : Bool :=
  let cs := s.toList
  let closes (cs : List Char) : Bool := decide (2 ≤ cs.length) && cs.getLast? == some '>'
  cs.head? == some '<' && (closes cs || closes (dropFinalBreak cs))

/-- Escapes the quotes of a text, where `slashes` backslashes stand directly before it. Of an odd
number of backslashes before a quote the last one escapes it already. -/
def escapeFrom (slashes : Nat) : List Char → List Char
  | [] => List.replicate slashes '\\'
  | c :: cs =>
      if c = '\\' then escapeFrom (slashes + 1) cs
      else if c = '\x22' then
        List.replicate (slashes / 2 * 2) '\\' ++ '\\' :: '\x22' :: escapeFrom 0 cs
      else List.replicate slashes '\\' ++ c :: escapeFrom 0 cs

def escape (s : String) : String := String.ofList (escapeFrom 0 s.toList)

def quote (s : String) : String :=
  if isBracketed s || isPlain s then s else "\"" ++ escape s ++ "\""

def cutAtColon (s : String) : String × String :=
  let cs := s.toList
  (String.ofList (cs.takeWhile (· != ':')), String.ofList ((cs.dropWhile (· != ':')).drop 1))

/-- An end of an edge: a node, then a port and a direction if there are such. -/
def quoteEnd (s : String) : String :=
  let (node, rest) := cutAtColon s
  if rest.isEmpty then quote node
  else
    let (port, compass) := cutAtColon rest
    quote node ++ ":" ++ quote port ++ if compass.isEmpty then "" else ":" ++ compass

end GoFlow.Dot
