import Std.Data.HashMap

/-!
Sets of stacks of return places. Each set is kept once and known by its number, so that equal sets
have equal numbers. The stacks of a set are grouped by their tops, in ascending order, each with the
number of the set of stacks below it, which is always smaller.
-/

namespace GoFlow

structure StackSet where
  /-- The empty stack belongs to the set. -/
  hasBottom : Bool
  tops : List (Nat × Nat)
  deriving DecidableEq, Hashable, Repr, Inhabited

structure Stacks where
  /-- The stacks below the entry are not known: the empty stack stands for every stack. -/
  unknownBelow : Bool
  sets : Array StackSet
  numbers : Std.HashMap StackSet Nat
  /-- The unions found so far. -/
  unions : Std.HashMap (Nat × Nat) Nat
  deriving Inhabited

namespace Stacks

/-- The number of the set that holds only the empty stack. -/
def bottom : Nat := 0

def new (unknownBelow : Bool) : Stacks :=
  let s : StackSet := ⟨true, []⟩
  ⟨unknownBelow, #[s], Std.HashMap.emptyWithCapacity.insert s bottom, {}⟩

def get (s : Stacks) (n : Nat) : StackSet := s.sets.getD n default

/-- The number of a set, which is kept if it is new. -/
def number (set : StackSet) : StateM Stacks Nat := fun s =>
  match s.numbers[set]? with
  | some n => (n, s)
  | none =>
      let n := s.sets.size
      (n, { s with sets := s.sets.push set, numbers := s.numbers.insert set n })

def push (top below : Nat) : StateM Stacks Nat := number ⟨false, [(top, below)]⟩

def ofList : List Nat → StateM Stacks Nat
  | [] => return bottom
  | r :: rs => do push r (← ofList rs)

/-- Adds a top to others. Where it is among them the sets below are combined. -/
def insertTop (combine : Nat → Nat → StateM Stacks Nat) (t : Nat × Nat) :
    List (Nat × Nat) → StateM Stacks (List (Nat × Nat))
  | [] => return [t]
  | u :: us =>
      if t.1 = u.1 then return (u.1, ← combine u.2 t.2) :: us
      else if t.1 < u.1 then return t :: u :: us
      else return u :: (← insertTop combine t us)

/-- The union of two sets by number. The sets below have smaller numbers. -/
def unionFrom : Nat → Nat → Nat → StateM Stacks Nat
  | 0, m, _ => return m
  | fuel + 1, m, n => do
      if m = n then return m
      let s ← MonadState.get
      match s.unions[(m, n)]? with
      | some k => return k
      | none => do
          let a := s.get m
          let b := s.get n
          let k ←
            if s.unknownBelow && (a.hasBottom || b.hasBottom) then pure bottom
            else do
              let tops ← b.tops.foldlM (fun ts t => insertTop (unionFrom fuel) t ts) a.tops
              number ⟨a.hasBottom || b.hasBottom, tops⟩
          modify fun s => { s with unions := s.unions.insert (m, n) k }
          return k

def union (m n : Nat) : StateM Stacks Nat := unionFrom (m + n + 1) m n

end Stacks

end GoFlow
