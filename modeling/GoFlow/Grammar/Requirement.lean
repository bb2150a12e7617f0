import GoFlow.Grammar.Productions

/-!
Requirements of the grammar: what must hold beside the tokens for a phrase to be read. They are
numbered through the whole grammar, category after category.
-/

namespace GoFlow

/-- What the requirements depend on. -/
structure Circumstances where
  bracketAhead : Bool
  /-- Suffixes below this level belong to the category around. -/
  level : Nat
  deriving Inhabited

def Kind.isClosing (k : Kind) : Bool := k == .rParen || k == .rCurly

def Circumstances.before (next : Kind) (level : Nat) : Circumstances := ⟨next.isClosing, level⟩

inductive Requirement where
  /-- A closing bracket comes next. -/
  | bracketAhead
  /-- Suffixes of the level belong to the category being read. -/
  | level (n : Nat)
  deriving DecidableEq, Repr, Inhabited

def Requirement.holds (here : Circumstances) : Requirement → Bool
  | .bracketAhead => here.bracketAhead
  | .level n => decide (here.level ≤ n)

namespace Phrase

mutual

def requirements : Phrase → List Requirement
  | token .. | oneOf .. | part .. => []
  | bracketAhead => [.bracketAhead]
  | seq ps | choice ps | maybe ps => requirementsAll ps
  | many p | oneOrMore p => p.requirements

def requirementsAll : List Phrase → List Requirement
  | [] => []
  | p :: ps => p.requirements ++ requirementsAll ps

end

end Phrase

namespace Category

def requirements (c : Category) : List Requirement :=
  match c.production with
  | .plain ps => Phrase.requirementsAll ps
  | .grown bases suffixes =>
      Phrase.requirementsAll bases ++
        suffixes.flatMap fun s => .level s.1 :: s.2.requirements

/-- The requirements of all categories in numbering order. -/
def allRequirements : List (Category × Requirement) :=
  all.flatMap fun c => c.requirements.map fun r => (c, r)

def requirement? (c : Category) (number : Nat) : Option Requirement :=
  match allRequirements[number]? with
  | some (d, r) => if d = c then some r else none
  | none => none

end Category

end GoFlow
