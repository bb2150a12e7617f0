import GoFlow.Forecast.Closure

/-!
How tokens lead from configurations to others, and what can be told from a set of configurations. A
forecast that knows the stack goes on until one way is left; if several ways read the same text, the
first of them is taken.
-/

namespace GoFlow

inductive Verdict where
  | way (n : Nat)
  /-- No way admits the token at this place, counted from the fork. -/
  | dead (offset : Nat)
  deriving DecidableEq, Repr, Inhabited

structure Forecast where
  verdict : Verdict
  /-- How far past the fork's first token the forecast looked. -/
  looked : Nat
  deriving Repr, Inhabited

namespace Fixture

def isFinal (f : Fixture) (c : Config) : Bool :=
  match f.chart.node c.node with
  | .final _ => true
  | _ => false

def target? (f : Fixture) (k : Kind) (i : Nat) : Option Nat :=
  match f.chart.node i with
  | .token _ j next => if j == k then some next else none
  | .oneOf _ ks next => if ks.contains k then some next else none
  | _ => none

/-- The configurations after a token, if there are any. Past the end of input only those count
that have ended. -/
def reach (f : Fixture) (k : Kind) (set : ConfigSet) : StateM Stacks (Option ConfigSet) := do
  let ended := if f.full || k == .eof then set.items.filter f.isFinal else #[]
  let moved ← ConfigSet.ofArray (set.items.filterMap fun c =>
    (f.target? k c.node).map fun i => { c with node := i })
  let reached ←
    if ended.isEmpty && k != .eof && (moved.onlyWay?).isSome then pure moved
    else f.closeAll (k == .eof) moved
  let reached ←
    if k == .eof then ConfigSet.ofArray (reached.items.filter f.isFinal) else pure reached
  let reached ←
    if f.full && reached.items.any f.isFinal then pure reached else reached.addAll ended.toList
  return if reached.isEmpty then none else some reached

/-- The ways of the configurations that share a node and stacks, for each such pair. -/
def conflicts (set : ConfigSet) : List (List Nat) :=
  (set.items.foldl
    (fun (m : Std.HashMap (Nat × Nat) (List Nat)) c =>
      let old := m.getD (c.node, c.pending) []
      m.insert (c.node, c.pending) (if old.contains c.way then old else c.way :: old))
    {}).toList.map Prod.snd

def hasLoneNode (set : ConfigSet) : Bool :=
  (set.items.foldl
    (fun (m : Std.HashMap Nat (List Nat)) c =>
      let old := m.getD c.node []
      m.insert c.node (if old.contains c.way then old else c.way :: old))
    {}).toList.any fun e => e.2.length == 1

def least : List Nat → Nat
  | [] => 0
  | n :: ns => ns.foldl min n

/-- More tokens will not tell the ways apart without the stack. -/
def isStuck (f : Fixture) (set : ConfigSet) : Bool :=
  set.items.all f.isFinal ||
    (!hasLoneNode set && (conflicts set).any fun ways => decide (1 < ways.length))

/-- The one way that is least among those that share a node and stacks, everywhere. -/
def agreed? (set : ConfigSet) : Option Nat :=
  match ((conflicts set).map least).eraseDups with
  | [n] => some n
  | _ => none

def admitted (f : Fixture) (set : ConfigSet) : List Nat :=
  ((set.items.filter (·.holds f.here)).toList.map Config.way).eraseDups

/-- If no way admits the next token, the fork may still be left by one that ended its category;
those whose conditions hold come first. -/
def fallback? (f : Fixture) (known : Stacks) (set : ConfigSet) : Option Nat :=
  let ended (c : Config) : Bool :=
    c.outside || (f.isFinal c && (known.get c.pending).hasBottom)
  let ways (cs : Array Config) : List Nat := (cs.filter ended).toList.map Config.way
  match ways (set.items.filter (·.holds f.here)) with
  | n :: ns => some (least (n :: ns))
  | [] => match ways (set.items.filter fun c => !c.holds f.here) with
    | n :: ns => some (least (n :: ns))
    | [] => none

/-- Of the paths through a fork about suffixes, those through a suffix that is not due are dropped,
and those that leave the loop only to come back to the same suffix. -/
def dropUndue (f : Fixture) (set : ConfigSet) : StateM Stacks ConfigSet :=
  let due := set.items.filterMap fun c =>
    let (levels, rest) := c.conditions.partition Condition.isLevel
    if c.way == 1 && levels.all (·.holds f.here) then some { c with conditions := rest } else none
  let others := set.items.filter fun c =>
    c.way != 1 && (c.kept || !due.any (fun d => d.node == c.node && d.pending == c.pending))
  ConfigSet.ofArray (due ++ others)

def decideFull (f : Fixture) (kindAt : Nat → Kind) : Nat → ConfigSet → Nat → StateM Stacks Forecast
  | 0, _, i => return ⟨.dead i, i⟩
  | fuel + 1, set, i => do
      match ← f.reach (kindAt i) set with
      | none => match f.fallback? (← get) set with
        | some n => return ⟨.way n, i⟩
        | none => return ⟨.dead i, i⟩
      | some next => match next.onlyWay?.or (agreed? next) with
        | some n => return ⟨.way n, i⟩
        | none => f.decideFull kindAt fuel next (if kindAt i == .eof then i else i + 1)

def lookFully (f : Fixture) (ways : List Nat) (below : List Nat) (kindAt : Nat → Kind)
    (count : Nat) : StateM Stacks Forecast := do
  f.decideFull kindAt (count + 2) (← f.start ways (← Stacks.ofList below)) 0

end Fixture

end GoFlow
