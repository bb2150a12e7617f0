import GoFlow.Parse.Report
import GoFlow.Token.Scan

/-!
The tokens that a parser sees. Tokens are read from the text only when they are asked for, so what
could not be read is reported when the visible token after it is.
-/

namespace GoFlow

/-- A visible token, its place among all tokens, and what could not be read since the one before. -/
structure Arrival where
  token : Token
  index : Nat
  unread : List Unread
  deriving Inhabited

structure Stream where
  arrivals : Array Arrival
  /-- Every token, hidden ones too. -/
  tokens : Array Token

namespace Stream

def arrivalsOf : List Lexeme → Nat → List Unread → List Arrival
  | [], _, _ => []
  | .unread u :: ls, index, pending => arrivalsOf ls index (pending ++ [u])
  | .token t :: ls, index, pending =>
      if t.hidden then arrivalsOf ls (index + 1) pending
      else ⟨t, index, pending⟩ :: arrivalsOf ls (index + 1) []

def ofLexemes (ls : List Lexeme) : Stream :=
  ⟨(arrivalsOf ls 0 []).toArray, (ls.filterMap Lexeme.token?).toArray⟩

def ofText (text : String) : Stream := ofLexemes (Lexeme.scan text)

def size (s : Stream) : Nat := s.arrivals.size

/-- The arrival at a place; the last one, the end of input, is met again at every later place. -/
def arrival (s : Stream) (i : Nat) : Arrival :=
  s.arrivals.getD (min i (s.arrivals.size - 1)) default

def token (s : Stream) (i : Nat) : Token := (s.arrival i).token

def kind (s : Stream) (i : Nat) : Kind := (s.token i).kind

/-- The text of all tokens from one arrival to another, hidden ones too, up to the end of input. -/
def textBetween (s : Stream) (first last : Nat) : String :=
  let a := (s.arrival first).index
  let b := (s.arrival last).index
  let span := ((s.tokens.toList.drop a).take (b + 1 - a)).takeWhile fun t => t.kind != .eof
  String.join (span.map Token.text)

def reportsBetween (s : Stream) (first last : Nat) : List Report :=
  ((s.arrivals.toList.drop first).take (last - first)).flatMap fun a =>
    a.unread.map Report.ofUnread

end Stream

end GoFlow
