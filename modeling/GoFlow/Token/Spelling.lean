import GoFlow.Pattern
import GoFlow.Text.Digit
import GoFlow.Token.Kind

/-!
The spellings of Go tokens. There are two modes of reading. After a token that can end a statement
the reader is in `lineEnding` mode, where a line break, a semicolon or a comment that spans lines
is a statement terminator; everything else is read in `plain` mode, where line breaks are blank.
Of the rules of a mode the one that matches most text applies, and of several the first.
-/

namespace GoFlow

inductive Mode where
  | plain
  | lineEnding
  deriving DecidableEq, Repr, Inhabited

structure Spelling where
  kind : Kind
  pattern : Pattern
  hidden : Bool
  next : Mode

namespace Spelling

open Pattern Text

/-- Digits that may be set apart by single underscores. -/
def spaced (digit : Pattern) : Pattern := seq (maybe (char '_')) digit

def decimal : Pattern := one isDecimalDigit
def octal : Pattern := one isOctalDigit
def binary : Pattern := one isBinaryDigit
def hex : Pattern := one isHexDigit

def decimals : Pattern := seq decimal (many (spaced decimal))

def exponent : Pattern := allOf [anyOf "eE", maybe (anyOf "+-"), decimals]

def decimalInteger : Pattern :=
  alt (char '0') (seq (one fun c => isDecimalDigit c && c != '0') (many (spaced decimal)))

def binaryInteger : Pattern := allOf [char '0', anyOf "bB", oneOrMore (spaced binary)]

def octalInteger : Pattern := allOf [char '0', maybe (anyOf "oO"), oneOrMore (spaced octal)]

def hexInteger : Pattern := allOf [char '0', anyOf "xX", oneOrMore (spaced hex)]

def decimalFloat : Pattern :=
  alt (seq decimals (alt (allOf [char '.', maybe decimals, maybe exponent]) exponent))
    (allOf [char '.', decimals, maybe exponent])

def hexMantissa : Pattern :=
  alt (seq (oneOrMore (spaced hex)) (maybe (seq (char '.') (many (spaced hex)))))
    (allOf [char '.', hex, many (spaced hex)])

def hexFloat : Pattern :=
  allOf [char '0', anyOf "xX", hexMantissa, anyOf "pP", maybe (anyOf "+-"), decimals]

def float : Pattern := alt decimalFloat hexFloat

def imaginary : Pattern :=
  seq (firstOf [decimalInteger, binaryInteger, octalInteger, hexInteger, float]) (char 'i')

def octalByte : Pattern := seq (char '\\') (times 3 octal)
def hexByte : Pattern := seq (text "\\x") (times 2 hex)
def littleU : Pattern := seq (text "\\u") (times 4 hex)
def bigU : Pattern := seq (text "\\U") (times 8 hex)

def escape : Pattern :=
  firstOf [littleU, bigU, seq (char '\\') (anyOf "abfnrtv\\\x27\x22"), octalByte, hexByte]

def rune : Pattern :=
  allOf [char '\x27', firstOf [noneOf "\r\n\x27", littleU, bigU, escape, octalByte, hexByte],
    char '\x27']

def rawString : Pattern := allOf [char '\x60', many (noneOf "\x60"), char '\x60']

def interpretedString : Pattern :=
  allOf [char '\x22', many (alt (noneOf "\x22\\") escape), char '\x22']

def identifier : Pattern :=
  seq (one fun c => isLetter c || c == '_')
    (many (one fun c => isLetter c || c == '_' || isScriptDigit c))

def blanks : Pattern := oneOrMore (anyOf " \t")

def lineBreaks : Pattern := oneOrMore (anyOf "\r\n")

def lineComment : Pattern := seq (text "//") (many (noneOf "\r\n"))

/-- A comment up to its first closing mark. -/
def comment : Pattern :=
  allOf [text "/*", many (alt (noneOf "*") (seq (oneOrMore (char '*')) (noneOf "*/"))),
    oneOrMore (char '*'), char '/']

/-- A comment that stays on one line. -/
def shortComment : Pattern :=
  allOf [text "/*", many (alt (noneOf "*\r\n") (seq (oneOrMore (char '*')) (noneOf "*/\r\n"))),
    oneOrMore (char '*'), char '/']

/-- A token after which a statement goes on. -/
def inside (kind : Kind) (pattern : Pattern) : Spelling := ⟨kind, pattern, false, .plain⟩

/-- A token that can end a statement. -/
def ending (kind : Kind) (pattern : Pattern) : Spelling := ⟨kind, pattern, false, .lineEnding⟩

def blank (kind : Kind) (pattern : Pattern) : Spelling := ⟨kind, pattern, true, .plain⟩

/-- The token of a kind with one spelling. -/
def fixed (make : Kind → Pattern → Spelling) (k : Kind) : Spelling :=
  make k (text (k.spelling?.getD ""))

def plainRules : List Spelling :=
  [fixed ending .kwBreak, fixed inside .kwDefault, fixed inside .kwFunc, fixed inside .kwInterface,
   fixed inside .kwSelect, fixed inside .kwCase, fixed inside .kwDefer, fixed inside .kwGo,
   fixed inside .kwMap, fixed inside .kwStruct, fixed inside .kwChan, fixed inside .kwElse,
   fixed inside .kwGoto, fixed inside .kwPackage, fixed inside .kwSwitch, fixed inside .kwConst,
   fixed ending .kwFallthrough, fixed inside .kwIf, fixed inside .kwRange, fixed inside .kwType,
   fixed ending .kwContinue, fixed inside .kwFor, fixed inside .kwImport, fixed ending .kwReturn,
   fixed inside .kwVar, fixed ending .nilLit,
   ending .identifier identifier,
   fixed inside .lParen, fixed ending .rParen, fixed inside .lCurly, fixed ending .rCurly,
   fixed inside .lBracket, fixed ending .rBracket, fixed inside .assign, fixed inside .comma,
   fixed inside .semi, fixed inside .colon, fixed inside .dot, fixed ending .plusPlus,
   fixed ending .minusMinus, fixed inside .declareAssign, fixed inside .ellipsis,
   fixed inside .logicalOr, fixed inside .logicalAnd, fixed inside .equals, fixed inside .notEquals,
   fixed inside .less, fixed inside .lessOrEquals, fixed inside .greater,
   fixed inside .greaterOrEquals, fixed inside .bitOr, fixed inside .div, fixed inside .mod,
   fixed inside .lshift, fixed inside .rshift, fixed inside .bitClear, fixed inside .underlying,
   fixed inside .exclamation, fixed inside .plus, fixed inside .minus, fixed inside .caret,
   fixed inside .star, fixed inside .ampersand, fixed inside .receive,
   ending .decimalLit decimalInteger, ending .binaryLit binaryInteger,
   ending .octalLit octalInteger, ending .hexLit hexInteger, ending .floatLit float,
   inside .decimalFloatLit decimalFloat, inside .hexFloatLit hexFloat,
   ending .imaginaryLit imaginary, ending .runeLit rune,
   inside .byteValue (alt octalByte hexByte), inside .octalByteValue octalByte,
   inside .hexByteValue hexByte, inside .littleUValue littleU, inside .bigUValue bigU,
   ending .rawStringLit rawString, ending .interpretedStringLit interpretedString,
   blank .ws blanks, blank .comment comment, blank .terminator lineBreaks,
   blank .lineComment lineComment]

/-- The last rule matches the empty text: what stands here does not end the statement. -/
def lineEndingRules : List Spelling :=
  [⟨.wsLineEnd, blanks, true, .lineEnding⟩, ⟨.commentLineEnd, shortComment, true, .lineEnding⟩,
   ⟨.lineCommentLineEnd, lineComment, true, .lineEnding⟩,
   inside .eos (firstOf [lineBreaks, char ';', comment]), blank .other empty]

def rules : Mode → List Spelling
  | .plain => plainRules
  | .lineEnding => lineEndingRules

end Spelling

end GoFlow
