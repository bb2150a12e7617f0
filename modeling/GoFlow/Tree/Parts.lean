import GoFlow.Tree.Walk

/-!
Parts of a node by name. The grammar tells which parts a category can have, and which of them more
than once.
-/

namespace GoFlow

/-- What a part is. -/
inductive PartName where
  | category (c : Category)
  | kind (k : Kind)
  deriving DecidableEq, Repr, Inhabited

namespace PartName

def name : PartName → String
  | category c => c.name
  | kind k => k.name

def isOf (p : PartName) : Tree → Bool
  | .leaf l => p == kind l.kind
  | .node h _ => p == category h.category

end PartName

/-- How often each part can occur, where two stands for more than once. -/
abbrev PartCounts := List (PartName × Nat)

namespace PartCounts

def count (m : PartCounts) (p : PartName) : Nat :=
  match m.find? fun e => e.1 == p with
  | some e => e.2
  | none => 0

def names (m : PartCounts) : List PartName := m.map Prod.fst

def combine (f : Nat → Nat → Nat) (m n : PartCounts) : PartCounts :=
  (m.names ++ n.names).eraseDups.map fun p => (p, f (m.count p) (n.count p))

def both (m n : PartCounts) : PartCounts := combine (· + ·) m n

def either (m n : PartCounts) : PartCounts := combine max m n

def repeated (m : PartCounts) : PartCounts := m.map fun e => (e.1, 2)

end PartCounts

namespace Phrase

mutual

def partCounts : Phrase → PartCounts
  | token _ k => [(.kind k, 1)]
  | oneOf _ ks => ks.map fun k => (.kind k, 1)
  | part _ c _ => [(.category c, 1)]
  | bracketAhead => []
  | seq ps => partCountsAll ps
  | choice ps | maybe ps => partCountsAny ps
  | many p | oneOrMore p => p.partCounts.repeated

def partCountsAll : List Phrase → PartCounts
  | [] => []
  | p :: ps => p.partCounts.both (partCountsAll ps)

def partCountsAny : List Phrase → PartCounts
  | [] => []
  | p :: ps => p.partCounts.either (partCountsAny ps)

end

end Phrase

/-- A part that a category can have. -/
structure PartSlot where
  part : PartName
  several : Bool
  deriving DecidableEq, Repr, Inhabited

namespace Category

def partCounts (c : Category) : PartCounts :=
  match c.production with
  | .plain ps => Phrase.partCountsAny ps
  | .grown bases suffixes =>
      Phrase.partCountsAny (bases ++ suffixes.map fun s => .seq [.part none c 0, s.2])

def slots (c : Category) : List PartSlot :=
  c.partCounts.map fun e => ⟨e.1, decide (1 < e.2)⟩

end Category

namespace PartName

def texts (p : PartName) (children : List Tree) : List String :=
  (children.filter p.isOf).map Tree.text

end PartName

end GoFlow
