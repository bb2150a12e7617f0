import GoFlow.Token.Basic
import GoFlow.Token.Spelling

/-!
Reading a text as lexemes, tokens and unread stretches, that lie side by side from the first
character to the end of input.
-/

namespace GoFlow

namespace Spelling

/-- The rules that may still match after the character `c`. -/
def afterChar (c : Char) (live : List (Spelling × Pattern)) : List (Spelling × Pattern) :=
  live.filterMap fun r =>
    let p := r.2.after c
    if p.isFail then none else some (r.1, p)

end Spelling

/-- What reading at one place found: the rule that matched most text, with the length of that
text, and how many characters were read before the last rule failed. -/
structure Reading where
  best : Option (Spelling × Nat)
  read : Nat

namespace Reading

def go (live : List (Spelling × Pattern)) (best : Option (Spelling × Nat)) (n : Nat) :
    List Char → Reading
  | [] => ⟨step n, n⟩
  | c :: cs =>
      match Spelling.afterChar c live with
      | [] => ⟨step n, n⟩
      | r :: rs => go (r :: rs) (step n) (n + 1) cs
where
  /-- The first rule that matches here is longer than any found before. -/
  step (n : Nat) : Option (Spelling × Nat) :=
    match live.find? (·.2.nullable) with
    | some r => some (r.1, n)
    | none => best

def ofText (mode : Mode) (cs : List Char) : Reading :=
  go ((Spelling.rules mode).map fun r => (r, r.pattern)) none 0 cs

end Reading

namespace Lexeme

def endOfInput (start : Nat) (place : Position) : Lexeme :=
  .token ⟨.eof, "<EOF>", start, start, place, false⟩

/-- The lexemes of the text `cs` that begins at `start`. A statement terminator is read only where
text is left, so the end of input follows the last lexeme in either mode. -/
def scanFrom : Nat → Mode → Nat → Position → List Char → List Lexeme
  | _, _, start, place, [] => [endOfInput start place]
  | 0, _, _, _, _ :: _ => []
  | fuel + 1, mode, start, place, c :: cs =>
      let reading := Reading.ofText mode (c :: cs)
      match reading.best with
      | some (rule, n) =>
          let word := (c :: cs).take n
          .token ⟨rule.kind, String.ofList word, start, start + n, place, rule.hidden⟩ ::
            scanFrom fuel rule.next (start + n) (place.advanceAll word) ((c :: cs).drop n)
      | none =>
          let word := (c :: cs).take (reading.read + 1)
          .unread ⟨String.ofList word, start, start + word.length, place⟩ ::
            scanFrom fuel mode (start + word.length) (place.advanceAll word)
              ((c :: cs).drop (reading.read + 1))

/-- Each lexeme takes a character, or leaves `lineEnding` mode by taking none, so twice the length
of the text is enough. -/
def scan (text : String) : List Lexeme :=
  let cs := text.toList
  scanFrom (2 * cs.length + 1) .plain 0 .start cs

end Lexeme

end GoFlow
