import GoFlow.Text.Unprintable

/-!
Quoted texts, as messages show them. Single quotes are used unless the text holds a single quote and
no double one; backslashes and the quote in use are escaped, and characters without a visible form
are shown by number.
-/

namespace GoFlow.Text

/-- The hexadecimal digits of a number, padded with zeros to a width. -/
def hexDigits (width n : Nat) : String :=
  let ds := Nat.toDigits 16 n
  String.ofList (List.replicate (width - ds.length) '0' ++ ds)

def quotedChar (mark c : Char) : String :=
  if c = mark || c = '\\' then "\\" ++ c.toString
  else if c = '\n' then "\\n"
  else if c = '\r' then "\\r"
  else if c = '\t' then "\\t"
  else if isUnprintable c then
    let n := c.toNat
    if n < 0x100 then "\\x" ++ hexDigits 2 n
    else if n < 0x10000 then "\\u" ++ hexDigits 4 n
    else "\\U" ++ hexDigits 8 n
  else c.toString

def quoted (s : String) : String :=
  let cs := s.toList
  let mark := if cs.contains '\x27' && !cs.contains '\x22' then '\x22' else '\x27'
  mark.toString ++ String.join (cs.map (quotedChar mark)) ++ mark.toString

end GoFlow.Text
