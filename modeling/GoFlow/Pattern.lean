/-!
Patterns over characters, matched by taking derivatives: `p.after c` matches what may follow `c`
in a text that `p` matches. Derivatives are built so that a pattern from which nothing can be
matched any more is `fail` itself, so "some rule may still match" is a test on the constructor.
-/

namespace GoFlow

inductive Pattern where
  | fail
  | empty
  | one (accepts : Char → Bool)
  | seq (p q : Pattern)
  | alt (p q : Pattern)
  | many (p : Pattern)

namespace Pattern

def nullable : Pattern → Bool
  | fail => false
  | empty => true
  | one _ => false
  | seq p q => p.nullable && q.nullable
  | alt p q => p.nullable || q.nullable
  | many _ => true

/-- Sequence that is `fail` when its first part is. -/
def andThen : Pattern → Pattern → Pattern
  | fail, _ => fail
  | empty, q => q
  | p, q => seq p q

/-- Choice that drops a failed side. -/
def orElse : Pattern → Pattern → Pattern
  | fail, q => q
  | p, fail => p
  | p, q => alt p q

/-- What may follow the character `c`. -/
def after (c : Char) : Pattern → Pattern
  | fail => fail
  | empty => fail
  | one accepts => if accepts c then empty else fail
  | seq p q =>
      if p.nullable then ((p.after c).andThen q).orElse (q.after c) else (p.after c).andThen q
  | alt p q => (p.after c).orElse (q.after c)
  | many p => (p.after c).andThen (many p)

def isFail : Pattern → Bool
  | fail => true
  | _ => false

/-- The whole text is matched. -/
def accepts (p : Pattern) : List Char → Bool
  | [] => p.nullable
  | c :: cs => (p.after c).accepts cs

def char (c : Char) : Pattern := one (· == c)

/-- One of the characters listed. -/
def anyOf (s : String) : Pattern := one fun c => s.toList.contains c

/-- Any character but those listed. -/
def noneOf (s : String) : Pattern := one fun c => !s.toList.contains c

def chars : List Char → Pattern
  | [] => empty
  | [c] => char c
  | c :: cs => seq (char c) (chars cs)

def text (s : String) : Pattern := chars s.toList

def maybe (p : Pattern) : Pattern := alt p empty

def oneOrMore (p : Pattern) : Pattern := seq p (many p)

def allOf : List Pattern → Pattern
  | [] => empty
  | [p] => p
  | p :: ps => seq p (allOf ps)

def firstOf : List Pattern → Pattern
  | [] => fail
  | [p] => p
  | p :: ps => alt p (firstOf ps)

def times : Nat → Pattern → Pattern
  | 0, _ => empty
  | 1, p => p
  | n + 1, p => seq p (times n p)

end Pattern

end GoFlow
