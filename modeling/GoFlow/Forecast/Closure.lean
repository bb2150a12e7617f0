import GoFlow.Forecast.Config
import GoFlow.Grammar.Chart

/-!
The configurations reached without a token. A forecast knows the stack below the fork or does not:
in a local forecast a path that ends the category of the fork goes on at every place where such a
part may stand; in a full one it goes on where the parser itself will return to.
-/

namespace GoFlow

structure Fixture where
  chart : Chart
  here : Circumstances
  /-- The stack below the fork is known. -/
  full : Bool
  /-- The category whose suffixes the fork is about. -/
  growth : Option Category

structure Pending where
  config : Config
  /-- How many categories below that of the fork; negative once it has been left. -/
  depth : Int
  /-- Conditions met from here on are those of the fork. -/
  collecting : Bool
  /-- The step to this configuration could be repeated for ever, and is taken only once. -/
  once : Bool

namespace Pending

def reaching (p : Pending) (c : Config) : Pending := { p with config := c, once := false }

def toNode (p : Pending) (i : Nat) : Pending := p.reaching { p.config with node := i }

end Pending

namespace Fixture

/-- The paths that a condition lets through: in a full forecast it is decided at once, in a local
one it is kept with the configuration. -/
def underCondition (f : Fixture) (applies : Bool) (k : Condition) (c : Config) : List Config :=
  if applies then
    if f.full then (if k.holds f.here then [c] else []) else [c.require k]
  else [c]

/-- A suffix that a part of the same category has been asked to leave to the category around it is
not tried again on the way back. -/
def leavesSuffix (f : Fixture) (c : Category) (s : StackSet) : Bool :=
  let own := f.chart.ownReturnsOf c
  !s.hasBottom && !s.tops.isEmpty && s.tops.all fun t => own.contains t.1

def popped (p : Pending) (s : StackSet) : List Pending :=
  (s.tops.map fun t =>
    { p with
      config := { p.config with node := t.1, pending := t.2, kept := false }
      depth := p.depth - 1
      once := false }) ++
    if s.hasBottom then [p.reaching { p.config with pending := Stacks.bottom }] else []

/-- Where the end of a category leads in a local forecast with nothing left on the stack: to every
place where a part of the category may stand. -/
def followed (f : Fixture) (p : Pending) (d : Category) : List Pending :=
  (f.chart.returnsOf d).map fun r =>
    { p with
      config := { p.config with
        node := r.node
        outside := true
        kept := p.config.kept || (f.growth == some d && r.level == 0) }
      depth := p.depth - 1
      once := true }

/-- Where the token-free steps from a configuration lead. Past the end of input the end may be
taken again without a token. -/
def steps (f : Fixture) (pastEnd : Bool) (p : Pending) : StateM Stacks (List Pending) := do
  let c := p.config
  match f.chart.node c.node with
  | .token _ k next =>
      return if pastEnd && k == .eof then [{ p.toNode next with once := true }] else []
  | .oneOf .. => return []
  | .part _ d _ next =>
      let pending ← Stacks.push next c.pending
      return [{ p.reaching { c with node := f.chart.net.entry d, pending } with
        depth := if p.depth < 0 then p.depth else p.depth + 1 }]
  | .bracketAhead next =>
      return (f.underCondition p.collecting (.bracketAhead c.node) { c with node := next }).map
        p.reaching
  | .suffix level next =>
      return (f.underCondition (p.collecting && p.depth == 0) (.level level)
        { c with node := next }).map p.reaching
  | .pass next | .enter next | .again next => return [p.toNode next]
  | .fork (.growth d) ways =>
      let s := (← get).get c.pending
      return (if f.leavesSuffix d s then ways.drop 1 else ways).map p.toNode
  | .fork _ ways => return ways.map p.toNode
  | .final d =>
      if c.pending = Stacks.bottom then return if f.full then [] else f.followed p d
      else return popped p ((← get).get c.pending)

def isKept (f : Fixture) (c : Config) : Bool :=
  match f.chart.node c.node with
  | .token .. | .oneOf .. => true
  | .final d => c.pending == Stacks.bottom && (f.full || (f.chart.returnsOf d).isEmpty)
  | _ => false

/-- Follows the pending configurations in order, each to its end before the next. `taken` holds the
configurations reached by steps that are taken only once. -/
def close (f : Fixture) (pastEnd : Bool) :
    Nat → List Pending → Std.HashMap Config Unit → ConfigSet →
      StateM Stacks (Std.HashMap Config Unit × ConfigSet)
  | 0, _, taken, set => return (taken, set)
  | _, [], taken, set => return (taken, set)
  | fuel + 1, p :: ps, taken, set => do
      let mark := { p.config with outside := false }
      if p.once && taken.contains mark then f.close pastEnd fuel ps taken set
      else do
        let taken := if p.once then taken.insert mark () else taken
        let set ← if f.isKept p.config then set.add p.config else pure set
        let more ← f.steps pastEnd p
        f.close pastEnd fuel (more ++ ps) taken set

def closeFuel : Nat := 1000000

def start (f : Fixture) (ways : List Nat) (below : Nat) : StateM Stacks ConfigSet :=
  (ways.zipIdx 1).foldlM
    (fun set (node, way) => do
      let (_, set) ←
        f.close false closeFuel [⟨⟨node, way, below, [], false, false⟩, 0, true, false⟩] {} set
      return set)
    .empty

def closeAll (f : Fixture) (pastEnd : Bool) (set : ConfigSet) : StateM Stacks ConfigSet := do
  let (_, closed) ← set.items.toList.foldlM
    (fun (acc : Std.HashMap Config Unit × ConfigSet) c =>
      f.close pastEnd closeFuel [⟨c, 0, false, false⟩] acc.1 acc.2)
    ({}, .empty)
  return closed

end Fixture

end GoFlow
