/-!
The kinds of Go tokens. Their order is the order in which a set of expected kinds is listed in a
message: the end of input first, then keywords, names, punctuation, operators, literals, and last
what a parser never sees.
-/

namespace GoFlow

inductive Kind where
  | eof | kwBreak | kwDefault | kwFunc | kwInterface | kwSelect | kwCase | kwDefer | kwGo | kwMap
  | kwStruct | kwChan | kwElse | kwGoto | kwPackage | kwSwitch | kwConst | kwFallthrough | kwIf
  | kwRange | kwType | kwContinue | kwFor | kwImport | kwReturn | kwVar | nilLit | identifier
  | lParen | rParen | lCurly | rCurly | lBracket | rBracket | assign | comma | semi | colon | dot
  | plusPlus | minusMinus | declareAssign | ellipsis | logicalOr | logicalAnd | equals
  | notEquals | less | lessOrEquals | greater | greaterOrEquals | bitOr | div | mod | lshift
  | rshift | bitClear | underlying | exclamation | plus | minus | caret | star | ampersand
  | receive | decimalLit | binaryLit | octalLit | hexLit | floatLit | decimalFloatLit
  | hexFloatLit | imaginaryLit | runeLit | byteValue | octalByteValue | hexByteValue
  | littleUValue | bigUValue | rawStringLit | interpretedStringLit | ws | comment | terminator
  | lineComment | wsLineEnd | commentLineEnd | lineCommentLineEnd | eos | other
  deriving DecidableEq, Repr, Hashable, Inhabited

namespace Kind

def all : List Kind :=
  [.eof, .kwBreak, .kwDefault, .kwFunc, .kwInterface, .kwSelect, .kwCase, .kwDefer, .kwGo,
  .kwMap, .kwStruct, .kwChan, .kwElse, .kwGoto, .kwPackage, .kwSwitch, .kwConst, .kwFallthrough,
  .kwIf, .kwRange, .kwType, .kwContinue, .kwFor, .kwImport, .kwReturn, .kwVar, .nilLit,
  .identifier, .lParen, .rParen, .lCurly, .rCurly, .lBracket, .rBracket, .assign, .comma, .semi,
  .colon, .dot, .plusPlus, .minusMinus, .declareAssign, .ellipsis, .logicalOr, .logicalAnd,
  .equals, .notEquals, .less, .lessOrEquals, .greater, .greaterOrEquals, .bitOr, .div, .mod,
  .lshift, .rshift, .bitClear, .underlying, .exclamation, .plus, .minus, .caret, .star,
  .ampersand, .receive, .decimalLit, .binaryLit, .octalLit, .hexLit, .floatLit, .decimalFloatLit,
  .hexFloatLit, .imaginaryLit, .runeLit, .byteValue, .octalByteValue, .hexByteValue,
  .littleUValue, .bigUValue, .rawStringLit, .interpretedStringLit, .ws, .comment, .terminator,
  .lineComment, .wsLineEnd, .commentLineEnd, .lineCommentLineEnd, .eos, .other]

def name : Kind → String
  | .eof => "EOF"
  | .kwBreak => "BREAK"
  | .kwDefault => "DEFAULT"
  | .kwFunc => "FUNC"
  | .kwInterface => "INTERFACE"
  | .kwSelect => "SELECT"
  | .kwCase => "CASE"
  | .kwDefer => "DEFER"
  | .kwGo => "GO"
  | .kwMap => "MAP"
  | .kwStruct => "STRUCT"
  | .kwChan => "CHAN"
  | .kwElse => "ELSE"
  | .kwGoto => "GOTO"
  | .kwPackage => "PACKAGE"
  | .kwSwitch => "SWITCH"
  | .kwConst => "CONST"
  | .kwFallthrough => "FALLTHROUGH"
  | .kwIf => "IF"
  | .kwRange => "RANGE"
  | .kwType => "TYPE"
  | .kwContinue => "CONTINUE"
  | .kwFor => "FOR"
  | .kwImport => "IMPORT"
  | .kwReturn => "RETURN"
  | .kwVar => "VAR"
  | .nilLit => "NIL_LIT"
  | .identifier => "IDENTIFIER"
  | .lParen => "L_PAREN"
  | .rParen => "R_PAREN"
  | .lCurly => "L_CURLY"
  | .rCurly => "R_CURLY"
  | .lBracket => "L_BRACKET"
  | .rBracket => "R_BRACKET"
  | .assign => "ASSIGN"
  | .comma => "COMMA"
  | .semi => "SEMI"
  | .colon => "COLON"
  | .dot => "DOT"
  | .plusPlus => "PLUS_PLUS"
  | .minusMinus => "MINUS_MINUS"
  | .declareAssign => "DECLARE_ASSIGN"
  | .ellipsis => "ELLIPSIS"
  | .logicalOr => "LOGICAL_OR"
  | .logicalAnd => "LOGICAL_AND"
  | .equals => "EQUALS"
  | .notEquals => "NOT_EQUALS"
  | .less => "LESS"
  | .lessOrEquals => "LESS_OR_EQUALS"
  | .greater => "GREATER"
  | .greaterOrEquals => "GREATER_OR_EQUALS"
  | .bitOr => "OR"
  | .div => "DIV"
  | .mod => "MOD"
  | .lshift => "LSHIFT"
  | .rshift => "RSHIFT"
  | .bitClear => "BIT_CLEAR"
  | .underlying => "UNDERLYING"
  | .exclamation => "EXCLAMATION"
  | .plus => "PLUS"
  | .minus => "MINUS"
  | .caret => "CARET"
  | .star => "STAR"
  | .ampersand => "AMPERSAND"
  | .receive => "RECEIVE"
  | .decimalLit => "DECIMAL_LIT"
  | .binaryLit => "BINARY_LIT"
  | .octalLit => "OCTAL_LIT"
  | .hexLit => "HEX_LIT"
  | .floatLit => "FLOAT_LIT"
  | .decimalFloatLit => "DECIMAL_FLOAT_LIT"
  | .hexFloatLit => "HEX_FLOAT_LIT"
  | .imaginaryLit => "IMAGINARY_LIT"
  | .runeLit => "RUNE_LIT"
  | .byteValue => "BYTE_VALUE"
  | .octalByteValue => "OCTAL_BYTE_VALUE"
  | .hexByteValue => "HEX_BYTE_VALUE"
  | .littleUValue => "LITTLE_U_VALUE"
  | .bigUValue => "BIG_U_VALUE"
  | .rawStringLit => "RAW_STRING_LIT"
  | .interpretedStringLit => "INTERPRETED_STRING_LIT"
  | .ws => "WS"
  | .comment => "COMMENT"
  | .terminator => "TERMINATOR"
  | .lineComment => "LINE_COMMENT"
  | .wsLineEnd => "WS_NLSEMI"
  | .commentLineEnd => "COMMENT_NLSEMI"
  | .lineCommentLineEnd => "LINE_COMMENT_NLSEMI"
  | .eos => "EOS"
  | .other => "OTHER"

/-- The one spelling of a kind that has only one. -/
def spelling? : Kind → Option String
  | .kwBreak => some "break"
  | .kwDefault => some "default"
  | .kwFunc => some "func"
  | .kwInterface => some "interface"
  | .kwSelect => some "select"
  | .kwCase => some "case"
  | .kwDefer => some "defer"
  | .kwGo => some "go"
  | .kwMap => some "map"
  | .kwStruct => some "struct"
  | .kwChan => some "chan"
  | .kwElse => some "else"
  | .kwGoto => some "goto"
  | .kwPackage => some "package"
  | .kwSwitch => some "switch"
  | .kwConst => some "const"
  | .kwFallthrough => some "fallthrough"
  | .kwIf => some "if"
  | .kwRange => some "range"
  | .kwType => some "type"
  | .kwContinue => some "continue"
  | .kwFor => some "for"
  | .kwImport => some "import"
  | .kwReturn => some "return"
  | .kwVar => some "var"
  | .nilLit => some "nil"
  | .lParen => some "("
  | .rParen => some ")"
  | .lCurly => some "\x7b"
  | .rCurly => some "\x7d"
  | .lBracket => some "["
  | .rBracket => some "]"
  | .assign => some "="
  | .comma => some ","
  | .semi => some ";"
  | .colon => some ":"
  | .dot => some "."
  | .plusPlus => some "++"
  | .minusMinus => some "--"
  | .declareAssign => some ":="
  | .ellipsis => some "..."
  | .logicalOr => some "||"
  | .logicalAnd => some "&&"
  | .equals => some "=="
  | .notEquals => some "!="
  | .less => some "<"
  | .lessOrEquals => some "<="
  | .greater => some ">"
  | .greaterOrEquals => some ">="
  | .bitOr => some "|"
  | .div => some "/"
  | .mod => some "%"
  | .lshift => some "<<"
  | .rshift => some ">>"
  | .bitClear => some "&^"
  | .underlying => some "~"
  | .exclamation => some "!"
  | .plus => some "+"
  | .minus => some "-"
  | .caret => some "^"
  | .star => some "*"
  | .ampersand => some "&"
  | .receive => some "<-"
  | _ => none

/-- How a message names a kind: its spelling in single quotes, or else its name. -/
def display (k : Kind) : String :=
  match k with
  | .eof => "<EOF>"
  | k => match k.spelling? with
    | some s => "'" ++ s ++ "'"
    | none => k.name

/-- How a message names a kind that was inserted. A kind without a spelling shows its name only
if it is listed after every kind that has one. -/
def displayInserted (k : Kind) : String :=
  match k with
  | .eof => "EOF"
  | .identifier => "<INVALID>"
  | k => k.display

def ofName? (s : String) : Option Kind := all.find? fun k => k.name == s

end Kind

end GoFlow
