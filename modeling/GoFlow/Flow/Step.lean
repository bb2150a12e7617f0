import GoFlow.Flow.Hook

/-!
Single steps of a builder, and what each gives. A script of steps drives a builder without a text;
a step that is stopped leaves the builder as it was at that moment, and the next step goes on from
there.
-/

namespace GoFlow

inductive ItemStack where
  | operands
  | firsts
  | lasts
  | ends
  deriving DecidableEq, Repr, Inhabited

inductive LevelStack where
  | ifs
  | fors
  deriving DecidableEq, Repr, Inhabited

inductive Step where
  | newNode (kind content shape : String)
  | connect (tail head : Item) (manual : Bool) (attributes : List (String × String))
  | advance (x : Item)
  | assign (keyword op : String)
  | setLevel (n : Int)
  | setCount (n : Nat)
  | setHeld (s : String)
  | setTyped (b : Bool)
  | setNamesRead (b : Bool)
  | setValuesRead (b : Bool)
  | pushItem (stack : ItemStack) (x : Item)
  /-- Puts the item on the stack unless it is on top of it. -/
  | addItem (stack : ItemStack) (x : Item)
  | popItem (stack : ItemStack)
  | pushNode (name : String)
  | popNode
  | pushLevel (stack : LevelStack) (n : Int)
  | popLevel (stack : LevelStack)
  | pushBranches (b : Branches)
  | popBranches
  | hook (h : Hook) (children : List Tree)
  | walk (t : Tree)

/-- What a step gives. -/
inductive Outcome where
  | done
  | item (x : Item)
  | level (n : Int)
  | branches (b : Branches)
  deriving Inhabited

namespace ItemStack

def get (b : Builder) : ItemStack → List Item
  | operands => b.operands
  | firsts => b.firsts
  | lasts => b.lasts
  | ends => b.ends

def put (b : Builder) (xs : List Item) : ItemStack → Builder
  | operands => { b with operands := xs }
  | firsts => { b with firsts := xs }
  | lasts => { b with lasts := xs }
  | ends => { b with ends := xs }

end ItemStack

namespace Move

def popFrom (s : ItemStack) : Move Item := do
  match s.get (← get) with
  | x :: xs => modify fun b => s.put b xs; return x
  | [] => throw .emptyStack

def popNode : Move String := do
  match (← get).nodes.getLast? with
  | some n => modify fun b => { b with nodes := b.nodes.dropLast }; return n
  | none => throw .emptyStack

end Move

namespace Step

def run : Step → Move Outcome
  | newNode kind content shape => return .item (.name (← Move.newNode kind content shape))
  | connect tail head manual attributes => do
      Move.connect tail head manual attributes
      return .done
  | advance x => return .item (← Move.advance x)
  | assign keyword op => do
      Move.assign keyword op
      return .done
  | setLevel n => do
      modify fun b => { b with level := n }
      return .done
  | setCount n => do
      modify fun b => { b with count := n }
      return .done
  | setHeld s => do
      modify fun b => { b with held := s }
      return .done
  | setTyped v => do
      modify fun b => { b with typed := v }
      return .done
  | setNamesRead v => do
      modify fun b => { b with namesRead := v }
      return .done
  | setValuesRead v => do
      modify fun b => { b with valuesRead := v }
      return .done
  | pushItem s x => do
      modify fun b => s.put b (x :: s.get b)
      return .done
  | addItem s x => do
      modify fun b => s.put b (x.addTo (s.get b))
      return .done
  | popItem s => return .item (← Move.popFrom s)
  | pushNode n => do
      modify fun b => { b with nodes := b.nodes ++ [n] }
      return .done
  | popNode => return .item (.name (← Move.popNode))
  | pushLevel .ifs n => do
      modify fun b => { b with ifLevels := n :: b.ifLevels }
      return .done
  | pushLevel .fors n => do
      modify fun b => { b with forLevels := n :: b.forLevels }
      return .done
  | popLevel .ifs => return .level (← Move.popIfLevel)
  | popLevel .fors => return .level (← Move.popForLevel)
  | pushBranches v => do
      modify fun b => { b with ifs := v :: b.ifs }
      return .done
  | popBranches => return .branches (← Move.popIf)
  | hook h ts => do
      h.run ts
      return .done
  | walk t => do
      Move.followTree t
      return .done

end Step

/-- The statements of a builder that were not there before. -/
def Builder.added (before after : Builder) : List Dot.Statement :=
  after.graph.drop before.graph.length

end GoFlow
