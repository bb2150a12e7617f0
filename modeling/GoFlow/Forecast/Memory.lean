import GoFlow.Forecast.Decide

/-!
The forecast of a fork: the way that the coming tokens show. It is first made without knowing the
stack below the fork; where that leaves ways that cannot be told apart, it is made again with the
stack.

A forecast without the stack depends on nothing but the fork and the tokens. What it finds out is
remembered: the sets of configurations, known by number, and where tokens lead from them.
-/

namespace GoFlow

structure Prospect where
  set : ConfigSet
  onlyWay : Option Nat
  /-- More tokens will not tell the ways apart without the stack. -/
  isStuck : Bool
  deriving Inhabited

structure ForkMemory where
  sets : Stacks
  prospects : Array Prospect
  numbers : Std.HashMap (Array Config) Nat
  /-- Where a token leads from a prospect, both by number. -/
  edges : Std.HashMap (Nat × Nat) (Option Nat)
  deriving Inhabited

/-- What is remembered of all forks, by node and level. -/
abbrev Memory := Std.HashMap (Nat × Nat) ForkMemory

inductive LocalForecast where
  | done (forecast : Forecast)
  | stuck (looked : Nat)

namespace Fixture

def remember (f : Fixture) (set : ConfigSet) : StateM ForkMemory Nat := fun m =>
  match m.numbers[set.items]? with
  | some n => (n, m)
  | none =>
      let n := m.prospects.size
      let only := set.onlyWay?
      (n, { m with
        prospects := m.prospects.push ⟨set, only, only.isNone && f.isStuck set⟩
        numbers := m.numbers.insert set.items n })

/-- What is remembered at first: the set at the fork has number zero. -/
def firstMemory (f : Fixture) (ways : List Nat) : ForkMemory :=
  let (set, sets) := (do
    let start ← f.start ways Stacks.bottom
    if f.growth.isSome then f.dropUndue start else pure start : StateM Stacks ConfigSet).run
    (Stacks.new true)
  ((f.remember set).run ⟨sets, #[], {}, {}⟩).2

def prospect (n : Nat) : StateM ForkMemory Prospect := return (← get).prospects.getD n default

def advance (f : Fixture) (k : Kind) (n : Nat) : StateM ForkMemory (Option Nat) := do
  match (← get).edges[(n, k.ctorIdx)]? with
  | some next => return next
  | none => do
      let p ← prospect n
      let reached ← modifyGet fun m =>
        let (r, sets) := (f.reach k p.set).run m.sets
        (r, { m with sets })
      let next ← match reached with
        | some set => some <$> f.remember set
        | none => pure none
      modify fun m => { m with edges := m.edges.insert (n, k.ctorIdx) next }
      return next

def decideLocal (f : Fixture) (kindAt : Nat → Kind) :
    Nat → Nat → Nat → StateM ForkMemory LocalForecast
  | 0, _, i => return .done ⟨.dead i, i⟩
  | fuel + 1, n, i => do
      match ← f.advance (kindAt i) n with
      | none =>
          let m ← get
          match f.fallback? m.sets (← prospect n).set with
          | some way => return .done ⟨.way way, i⟩
          | none => return .done ⟨.dead i, i⟩
      | some next => do
          let p ← prospect next
          match p.onlyWay with
          | some way =>
              return if (f.admitted p.set).isEmpty then .done ⟨.dead 0, i⟩ else .done ⟨.way way, i⟩
          | none =>
            if p.isStuck then
              match f.admitted p.set with
              | [way] => return .done ⟨.way way, i⟩
              | _ => return .stuck i
            else f.decideLocal kindAt fuel next (if kindAt i == .eof then i else i + 1)

end Fixture

/-- The forecast of a fork with the given ways, and what is remembered after it. `below` are the
places that the parser will return to, the next first; `kindAt` gives the coming tokens, of which
there are fewer than `count`. -/
def Chart.forecast (chart : Chart) (memory : Memory) (node : Nat) (fork : Fork) (ways : List Nat)
    (here : Circumstances) (below : List Nat) (kindAt : Nat → Kind) (count : Nat) :
    Forecast × Memory :=
  let growth := match fork with
    | .growth c => some c
    | _ => none
  let known : Fixture := { chart, here, full := true, growth }
  let f : Fixture := { known with full := false }
  let key := (node, if growth.isSome then here.level else 0)
  let first := match memory[key]? with
    | some m => m
    | none => f.firstMemory ways
  let others := memory.erase key
  let (found, after) := (f.decideLocal kindAt (count + 2) 0 0).run first
  let memory := others.insert key after
  match found with
  | .done forecast => (forecast, memory)
  | .stuck looked =>
      let (forecast, _) := (known.lookFully ways below kindAt count).run (Stacks.new false)
      ({ forecast with looked := max looked forecast.looked }, memory)

end GoFlow
