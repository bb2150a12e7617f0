import GoFlow.Pattern
import GoFlow.Text.Digit
import GoFlow.Text.Quoted

/-!
The type of a literal, guessed from its text. An integer has the narrowest type whose range holds
it, though the largest value of a range is counted as one too many.
-/

namespace GoFlow

inductive LiteralType where
  | unknown
  | int8
  | int32
  | int64
  | float64
  | string
  deriving DecidableEq, Repr, Inhabited

namespace LiteralType

def name : LiteralType → String
  | unknown => ""
  | int8 => "int8"
  | int32 => "int32"
  | int64 => "int64"
  | float64 => "float64"
  | string => "string"

end LiteralType

/-- Why no type can be guessed. -/
inductive GuessError where
  | empty
  /-- A prefix for the base, and no digits. -/
  | noDigits (base : Nat) (text : String)
  /-- More digits than a decimal text may have. -/
  | tooLong (digits : Nat)
  deriving DecidableEq, Repr, Inhabited

namespace GuessError

def message : GuessError → String
  | empty => "string index out of range"
  | noDigits base text =>
      "invalid literal for int() with base " ++ toString base ++ ": " ++ Text.quoted text
  | tooLong digits =>
      "Exceeds the limit (4300 digits) for integer string conversion: value has " ++
        toString digits ++ " digits; use sys.set_int_max_str_digits() to increase the limit"

end GuessError

namespace Literal

open Pattern Text

/-- Digits, each of which an underscore may set apart from what is before it. -/
def spacedDigit (isDigit : Char → Bool) : Pattern := seq (maybe (char '_')) (one isDigit)

def digitRun (isDigit : Char → Bool) : Pattern := seq (one isDigit) (many (spacedDigit isDigit))

def decimalPattern : Pattern :=
  alt (char '0')
    (seq (one fun c => isDecimalDigit c && c != '0') (many (spacedDigit isDecimalDigit)))

def basedPattern (mark : String) (isDigit : Char → Bool) : Pattern :=
  allOf [char '0', anyOf mark, many (spacedDigit isDigit)]

def exponentPattern : Pattern :=
  allOf [anyOf "eE", maybe (anyOf "+-"), digitRun isDecimalDigit]

def decimalFloatPattern : Pattern :=
  alt (seq (digitRun isDecimalDigit)
      (alt (allOf [char '.', maybe (digitRun isDecimalDigit), maybe exponentPattern])
        exponentPattern))
    (allOf [char '.', digitRun isDecimalDigit, exponentPattern])

def hexFloatPattern : Pattern :=
  allOf [char '0', anyOf "xX", oneOrMore (spacedDigit isHexDigit),
    maybe (seq (char '.') (many (spacedDigit isHexDigit))), anyOf "pP", maybe (anyOf "+-"),
    digitRun isDecimalDigit]

/-- The base of an integer literal. -/
inductive Base where
  | binary
  | octal
  | decimal
  | hex
  deriving DecidableEq, Repr, Inhabited

namespace Base

def radix : Base → Nat
  | binary => 2
  | octal => 8
  | decimal => 10
  | hex => 16

def pattern : Base → Pattern
  | binary => basedPattern "bB" isBinaryDigit
  | octal => basedPattern "oO" isOctalDigit
  | decimal => decimalPattern
  | hex => basedPattern "xX" isHexDigit

/-- The digits of a literal in the base, underscores left out. -/
def digits (b : Base) (cs : List Char) : List Char :=
  (if b = decimal then cs else cs.drop 2).filter (· != '_')

end Base

def digitValue (c : Char) : Nat :=
  if isDecimalDigit c then c.toNat - '0'.toNat
  else if decide ('a' ≤ c) && decide (c ≤ 'f') then c.toNat - 'a'.toNat + 10
  else c.toNat - 'A'.toNat + 10

def valueOf (radix : Nat) (ds : List Char) : Nat :=
  ds.foldl (fun n d => n * radix + digitValue d) 0

/-- The base in which the text is an integer literal. -/
def base? (cs : List Char) : Option Base :=
  [Base.decimal, .binary, .octal, .hex].find? fun b => b.pattern.accepts cs

def integerType (n : Nat) : LiteralType :=
  if n < 127 then .int8 else if n < 2147483647 then .int32 else .int64

def maxDecimalDigits : Nat := 4300

def integerTypeOf (b : Base) (s : String) : Except GuessError LiteralType :=
  let ds := b.digits s.toList
  if ds.isEmpty then .error (.noDigits b.radix s)
  else if b = .decimal && decide (maxDecimalDigits < ds.length) then .error (.tooLong ds.length)
  else .ok (integerType (valueOf b.radix ds))

def isFloat (cs : List Char) : Bool :=
  decimalFloatPattern.accepts cs || hexFloatPattern.accepts cs

def isQuoted (cs : List Char) : Bool := cs.head? == some '\x22' && cs.getLast? == some '\x22'

/-- The type of a literal. Text in double quotes is a string, whatever stands between them. -/
def guess (s : String) : Except GuessError LiteralType := do
  let cs := s.toList
  if cs.isEmpty then throw .empty
  let integer ← match base? cs with
    | some b => integerTypeOf b s
    | none => pure .unknown
  if isQuoted cs then return .string
  if isFloat cs then return .float64
  return integer

end Literal

end GoFlow
