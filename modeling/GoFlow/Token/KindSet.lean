import GoFlow.Token.Kind

/-!
Sets of token kinds, one bit for each kind.
-/

namespace GoFlow

structure KindSet where
  bits : Nat
  deriving DecidableEq, Inhabited

namespace KindSet

def empty : KindSet := ⟨0⟩

def single (k : Kind) : KindSet := ⟨1 <<< k.ctorIdx⟩

def union (s t : KindSet) : KindSet := ⟨s.bits ||| t.bits⟩

def contains (s : KindSet) (k : Kind) : Bool := s.bits.testBit k.ctorIdx

def ofList (ks : List Kind) : KindSet := ks.foldl (fun s k => s.union (single k)) empty

/-- The members in listing order. -/
def toList (s : KindSet) : List Kind := Kind.all.filter s.contains

def isEmpty (s : KindSet) : Bool := s.bits == 0

def disjoint (s t : KindSet) : Bool := s.bits &&& t.bits == 0

/-- How a message lists the members. -/
def display (s : KindSet) : String :=
  match s.toList with
  | [k] => k.display
  | ks => "\x7b" ++ ", ".intercalate (ks.map Kind.display) ++ "\x7d"

end KindSet

end GoFlow
