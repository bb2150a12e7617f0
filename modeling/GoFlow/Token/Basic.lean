import GoFlow.Token.Kind

/-!
Tokens with their place in the text. A place is a line, counted from one, and a column, counted
from zero in code points; a span is given by its first code point and the one after its last.
-/

namespace GoFlow

structure Position where
  line : Nat
  column : Nat
  deriving DecidableEq, Repr, Inhabited

namespace Position

def start : Position := ⟨1, 0⟩

/-- Only a line feed ends a line. -/
def advance (p : Position) (c : Char) : Position :=
  if c = '\n' then ⟨p.line + 1, 0⟩ else ⟨p.line, p.column + 1⟩

def advanceAll (p : Position) (cs : List Char) : Position := cs.foldl advance p

end Position

structure Token where
  kind : Kind
  text : String
  start : Nat
  finish : Nat
  place : Position
  /-- A hidden token is kept in the stream, and no parser sees it. -/
  hidden : Bool
  deriving DecidableEq, Repr, Inhabited

/-- A stretch of text from which no token could be read: it ends with the character at which the
last rule failed, or at the end of the text. -/
structure Unread where
  text : String
  start : Nat
  finish : Nat
  place : Position
  deriving DecidableEq, Repr, Inhabited

inductive Lexeme where
  | token (t : Token)
  | unread (u : Unread)
  deriving DecidableEq, Repr, Inhabited

namespace Lexeme

def token? : Lexeme → Option Token
  | .token t => some t
  | .unread _ => none

def unread? : Lexeme → Option Unread
  | .token _ => none
  | .unread u => some u

def start : Lexeme → Nat
  | .token t => t.start
  | .unread u => u.start

def finish : Lexeme → Nat
  | .token t => t.finish
  | .unread u => u.finish

end Lexeme

end GoFlow
