import GoFlow.Grammar.Productions

/-!
The grammar as a network of nodes. Each category has an entry node and a final node; a path between
them spells a phrase of the category, where a `part` node stands for a path through another
category. A node is known by its number.
-/

namespace GoFlow

/-- Where a choice stands. It decides what is done about a token that none of the ways admits. -/
inductive Fork where
  /-- One of several phrases. -/
  | choice
  /-- A phrase that may be left out; the last way leaves it out. -/
  | maybe
  /-- A loop that may be left at once; the second way leaves it. -/
  | loop
  /-- A loop after a first round; the second way leaves it. -/
  | repeated
  /-- The loop over the suffixes of the category. -/
  | growth (category : Category)
  deriving DecidableEq, Repr, Inhabited

inductive Node where
  | token (label : Option Label) (kind : Kind) (next : Nat)
  | oneOf (label : Option Label) (kinds : List Kind) (next : Nat)
  | part (label : Option Label) (category : Category) (level : Nat) (next : Nat)
  | bracketAhead (next : Nat)
  /-- What was read of the category becomes the first part of a larger one, if suffixes of the
  level belong to it. -/
  | suffix (level : Nat) (next : Nat)
  | pass (next : Nat)
  | fork (kind : Fork) (ways : List Nat)
  /-- The start of a loop that is run at least once. -/
  | enter (next : Nat)
  /-- The end of a round of a loop that begins at `entry`. -/
  | again (entry : Nat)
  | final (category : Category)
  deriving Inhabited

namespace Phrase

def isSingle : Phrase → Bool
  | token .. | oneOf .. | part .. | bracketAhead => true
  | _ => false

mutual

/-- The phrase has a spelling that names no category. -/
def isFlat : Phrase → Bool
  | token .. | oneOf .. | bracketAhead | maybe _ | many _ => true
  | part .. => false
  | seq ps => allFlat ps
  | choice ps => anyFlat ps
  | oneOrMore p => p.isFlat

def allFlat : List Phrase → Bool
  | [] => true
  | p :: ps => p.isFlat && allFlat ps

def anyFlat : List Phrase → Bool
  | [] => false
  | p :: ps => p.isFlat || anyFlat ps

end

def endsSingle : Phrase → Bool
  | seq ps => match ps.getLast? with
    | some p => p.isSingle
    | none => false
  | p => p.isSingle

/-- An alternative that ends with a single node reaches the end of its group from that node if
nothing before it names a category; otherwise one node stands between. -/
def needsLink : Phrase → Bool
  | seq ps => (seq ps).endsSingle && !allFlat ps.dropLast
  | _ => false

end Phrase

abbrev Layout := StateM (Array Node)

namespace Layout

def put (n : Node) : Layout Nat := do
  let nodes ← get
  set (nodes.push n)
  return nodes.size

def replace (i : Nat) (n : Node) : Layout Unit := modify fun nodes => nodes.setIfInBounds i n

end Layout

namespace Phrase

open Layout

mutual

/-- Lays the nodes of a phrase that goes on at `next`, and gives its first node. -/
def lay : Phrase → Nat → Layout Nat
  | token label kind, next => put (.token label kind next)
  | oneOf label kinds, next => put (.oneOf label kinds next)
  | part label category level, next => put (.part label category level next)
  | bracketAhead, next => put (.bracketAhead next)
  | seq ps, next => laySeq ps next
  | choice ps, next => do
      let close ← put (.pass next)
      let ways ← layWays ps close
      put (.fork .choice ways)
  | maybe ps, next => do
      let close ← put (.pass next)
      let ways ← layWays ps close
      put (.fork .maybe (ways ++ [close]))
  | many p, next => do
      let leave ← put (.pass next)
      let entry ← put (.pass leave)
      let back ← put (.again entry)
      let close ← put (.pass back)
      let first ← layLinked p.needsLink p close
      let start ← put (.pass first)
      replace entry (.fork .loop [start, leave])
      return entry
  | oneOrMore p, next => do
      let leave ← put (.pass next)
      let back ← put (.pass leave)
      let close ← put (.pass back)
      let first ← layLinked p.needsLink p close
      let start ← put (.enter first)
      replace back (.fork .repeated [start, leave])
      return start

def laySeq : List Phrase → Nat → Layout Nat
  | [], next => return next
  | p :: ps, next => do
      let rest ← laySeq ps next
      p.lay rest

def layWays : List Phrase → Nat → Layout (List Nat)
  | [], _ => return []
  | p :: ps, close => do
      let first ← layLinked p.needsLink p close
      let ways ← layWays ps close
      return first :: ways

def layLinked : Bool → Phrase → Nat → Layout Nat
  | true, p, next => do
      let link ← put (.pass next)
      p.lay link
  | false, p, next => p.lay next

end

end Phrase

namespace Production

open Layout

def laySuffixes : List (Nat × Phrase) → Nat → Layout (List Nat)
  | [], _ => return []
  | (level, p) :: ps, close => do
      let body ← p.lay close
      let first ← put (.suffix level body)
      let ways ← laySuffixes ps close
      return first :: ways

/-- Lays the nodes of the category `c` between its first node, which is given back, and `final`. -/
def lay (c : Category) : Production → Nat → Layout Nat
  | plain [p], final => Phrase.layLinked p.endsSingle p final
  | plain ps, final => (Phrase.choice ps).lay final
  | grown bases suffixes, final => do
      let leave ← put (.pass final)
      let entry ← put (.pass leave)
      let back ← put (.again entry)
      let close ← put (.pass back)
      let ways ← laySuffixes suffixes close
      let start ← match ways with
        | [way] => put (.pass way)
        | _ => put (.fork .choice ways)
      replace entry (.fork (.growth c) [start, leave])
      (Phrase.choice bases).lay entry

end Production

/-- A place to which a part returns, and the level at which the part was named. -/
structure Return where
  node : Nat
  level : Nat
  deriving DecidableEq, Inhabited

structure Network where
  nodes : Array Node
  entries : Array Nat
  finals : Array Nat

namespace Network

open Layout

def layAll : List Category → Layout (List (Nat × Nat))
  | [] => return []
  | c :: cs => do
      let final ← put (.final c)
      let entry ← c.production.lay c final
      let rest ← layAll cs
      return (entry, final) :: rest

def ofProductions : Network :=
  let (ends, nodes) := (layAll Category.all).run #[]
  ⟨nodes, (ends.map Prod.fst).toArray, (ends.map Prod.snd).toArray⟩

def node (net : Network) (i : Nat) : Node := net.nodes.getD i (.pass i)

def entry (net : Network) (c : Category) : Nat := net.entries.getD c.number 0

def final (net : Network) (c : Category) : Nat := net.finals.getD c.number 0

def returns (net : Network) (c : Category) : List Return :=
  net.nodes.toList.filterMap fun n => match n with
    | .part _ d level next => if d = c then some ⟨next, level⟩ else none
    | _ => none

/-- The nodes of each category were laid together, from its final node up to the next one. -/
def isWithin (net : Network) (c : Category) (i : Nat) : Bool :=
  decide (net.final c < i) && decide (i < net.finals.getD (c.number + 1) net.nodes.size)

end Network

end GoFlow
