import GoFlow.Forecast.Stacks
import GoFlow.Grammar.Requirement
import Std.Data.HashMap

/-!
Configurations of a forecast: a node that the coming tokens may have led to, with the way by which
the fork was left, the stacks of places to return to, and the conditions met before the first token.
-/

namespace GoFlow

inductive Condition where
  /-- A closing bracket comes next, required at the node. -/
  | bracketAhead (node : Nat)
  /-- Suffixes of the level belong to the category being read. -/
  | level (n : Nat)
  deriving DecidableEq, Hashable, Repr, Inhabited

def Condition.holds (here : Circumstances) : Condition → Bool
  | .bracketAhead _ => here.bracketAhead
  | .level n => decide (here.level ≤ n)

def Condition.isLevel : Condition → Bool
  | .bracketAhead _ => false
  | .level _ => true

structure Config where
  node : Nat
  way : Nat
  /-- The number of the set of stacks. -/
  pending : Nat
  conditions : List Condition
  /-- The path has left the category of the fork. -/
  outside : Bool
  /-- The path left the category of the fork for a place where no suffix is due to it. -/
  kept : Bool
  deriving DecidableEq, Hashable, Inhabited

namespace Config

/-- Configurations of one key are merged. -/
structure Key where
  node : Nat
  way : Nat
  conditions : List Condition
  deriving DecidableEq, Hashable

def key (c : Config) : Key := ⟨c.node, c.way, c.conditions⟩

def holds (here : Circumstances) (c : Config) : Bool := c.conditions.all (·.holds here)

def require (c : Config) (k : Condition) : Config :=
  if c.conditions.contains k then c else { c with conditions := c.conditions ++ [k] }

end Config

/-- Configurations in the order in which their keys were first added. -/
structure ConfigSet where
  items : Array Config
  places : Std.HashMap Config.Key Nat
  deriving Inhabited

namespace ConfigSet

def empty : ConfigSet := ⟨#[], {}⟩

def add (set : ConfigSet) (c : Config) : StateM Stacks ConfigSet := do
  match set.places[c.key]? with
  | none => return ⟨set.items.push c, set.places.insert c.key set.items.size⟩
  | some i =>
      let pending ← Stacks.union (set.items.getD i c).pending c.pending
      return { set with items := set.items.modify i fun old =>
        { old with
          pending
          outside := old.outside || c.outside
          kept := old.kept || c.kept } }

def addAll (set : ConfigSet) (cs : List Config) : StateM Stacks ConfigSet := cs.foldlM add set

def ofArray (cs : Array Config) : StateM Stacks ConfigSet := empty.addAll cs.toList

def isEmpty (set : ConfigSet) : Bool := set.items.isEmpty

def ways (set : ConfigSet) : List Nat :=
  (set.items.toList.map Config.way).eraseDups

/-- The one way by which every configuration left the fork. -/
def onlyWay? (set : ConfigSet) : Option Nat :=
  match set.items[0]? with
  | none => none
  | some c => if set.items.all (fun d => d.way == c.way) then some c.way else none

end ConfigSet

end GoFlow
