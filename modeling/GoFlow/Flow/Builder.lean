import GoFlow.Dot.Statement
import GoFlow.Flow.Item

/-!
The state of a graph builder and its basic moves. A builder follows a walk through a tree; text of
statements is held back until the block it belongs to ends, and stacks remember where branches and
loops begin and end. Stacks are listed from the top.

There are two editions. They differ in how a node's kind and its connection are chosen, in where
the branches of a loop are attached, and in what a node's label shows.
-/

namespace GoFlow

inductive Edition where
  | early
  | late
  deriving DecidableEq, Repr, Inhabited

/-- The declaration being read. -/
inductive Phase where
  | none
  | constDecl
  | varDecl
  | assign
  deriving DecidableEq, Repr, Inhabited

inductive Branches where
  | thenOnly
  | thenElse
  deriving DecidableEq, Repr, Inhabited

structure Builder where
  edition : Edition
  phase : Phase := .none
  /-- A type has been read in the declaration. -/
  typed : Bool := false
  /-- Names, types and values of the declaration being read. -/
  operands : List Item := []
  /-- The text of the statements that belong to no node yet. -/
  held : String := ""
  namesRead : Bool := false
  valuesRead : Bool := false
  /-- How many blocks are open. -/
  level : Int := 0
  /-- The number of the last node. -/
  count : Nat := 0
  /-- The names of the nodes, the first one first. -/
  nodes : List String := []
  ifLevels : List Int := []
  firsts : List Item := []
  lasts : List Item := []
  /-- What the next node is to be connected with. -/
  ends : List Item := []
  ifs : List Branches := []
  forLevels : List Int := []
  breaks : List (List String) := []
  /-- The statements of the graph, the first one first. -/
  graph : List Dot.Statement := []
  /-- How often the graph was drawn, and its statements at that time. -/
  drawings : Nat := 0
  drawn : Option (List Dot.Statement) := .none

/-- A move of a builder. A move that is stopped keeps what it did before. -/
abbrev Move := ExceptT Mishap (StateM Builder)

namespace Builder

def new (edition : Edition) : Builder :=
  { edition, graph := if edition = .early then [.setting "splines" "polyline"] else [] }

def source (b : Builder) : String := Dot.render "cfg" b.graph

end Builder

namespace Move

def edition : Move Edition := return (← get).edition

def emit (s : Dot.Statement) : Move Unit := modify fun b => { b with graph := b.graph ++ [s] }

def draw : Move Unit :=
  modify fun b => { b with drawings := b.drawings + 1, drawn := some b.graph }

def popOperand : Move Item := do
  match (← get).operands with
  | x :: xs => modify fun b => { b with operands := xs }; return x
  | [] => throw .emptyStack

def pushOperand (x : Item) : Move Unit := modify fun b => { b with operands := x :: b.operands }

def popFirst : Move Item := do
  match (← get).firsts with
  | x :: xs => modify fun b => { b with firsts := xs }; return x
  | [] => throw .emptyStack

def addFirst (x : Item) : Move Unit := modify fun b => { b with firsts := x.addTo b.firsts }

def popLast : Move Item := do
  match (← get).lasts with
  | x :: xs => modify fun b => { b with lasts := xs }; return x
  | [] => throw .emptyStack

def addLast (x : Item) : Move Unit := modify fun b => { b with lasts := x.addTo b.lasts }

def dropLast (x : Item) : Move Unit := modify fun b => { b with lasts := b.lasts.erase x }

def popEnd : Move Item := do
  match (← get).ends with
  | x :: xs => modify fun b => { b with ends := xs }; return x
  | [] => throw .emptyStack

def pushEnd (x : Item) : Move Unit := modify fun b => { b with ends := x :: b.ends }

def popIf : Move Branches := do
  match (← get).ifs with
  | x :: xs => modify fun b => { b with ifs := xs }; return x
  | [] => throw .emptyStack

def popIfLevel : Move Int := do
  match (← get).ifLevels with
  | x :: xs => modify fun b => { b with ifLevels := xs }; return x
  | [] => throw .emptyStack

def popForLevel : Move Int := do
  match (← get).forLevels with
  | x :: xs => modify fun b => { b with forLevels := xs }; return x
  | [] => throw .emptyStack

def innermostIf : Move Branches := do
  match (← get).ifs with
  | x :: _ => return x
  | [] => throw .outOfRange

def lastNode : Move String := do
  match (← get).nodes.getLast? with
  | some n => return n
  | none => throw .outOfRange

def assignLine (keyword op : String) (type name value : Item) : String :=
  if keyword.isEmpty then name.shown ++ " " ++ op ++ " " ++ value.shown ++ " \n"
  else if type = .name "guess" then
    keyword ++ " " ++ name.shown ++ " = " ++ value.shown ++ " \n"
  else keyword ++ " " ++ name.shown ++ " " ++ type.shown ++ " = " ++ value.shown ++ " \n"

def assignFrom (keyword op : String) (names type : Item) : List Item → Nat → Move Unit
  | [], _ => return
  | value :: values, i => do
      let name ← (names.unit i : Except Mishap Item)
      modify fun b => { b with held := b.held ++ assignLine keyword op type name value }
      assignFrom keyword op names type values (i + 1)

/-- Holds back the lines of a declaration or an assignment, whose names, type and values are the
topmost operands. -/
def assign (keyword op : String) : Move Unit := do
  let values ← popOperand
  let type ← popOperand
  let names ← popOperand
  assignFrom keyword op names type values.units 0
  modify fun b => { b with namesRead := false, valuesRead := false }

def edge (tail head : Item) (attributes : List (String × String)) : Move Unit :=
  match tail.directed "s", head.directed "n" with
  | .name t, .name h => emit (.edge t h attributes)
  | _, _ => throw (.notAName "partition")

/-- Notes what the next node is to be connected with, unless it is noted already. A dummy node is
noted only beside a group. -/
def noteEnd (head : Item) : Move Unit := do
  match (← get).ends with
  | [] => pushEnd head
  | last :: _ =>
      if last.isGroup && !last.members.contains head then pushEnd head
      else if head ≠ last then
        match ← edition with
        | .early => pushEnd head
        | .late => if !(← (head.startsWith "d" : Except Mishap Bool)) then pushEnd head

mutual

/-- Connects each name of an entry with a node. Attributes are for a single edge. With `manual` the
ends are left alone; the early edition does so for a single edge only. -/
def connect (tail head : Item) (manual : Bool) (attributes : List (String × String)) : Move Unit :=
  match tail with
  | .name s => do
      edge (.name s) head attributes
      if !manual then noteEnd head
  | .group xs => do
      connectAll xs head manual
      if !manual then noteEnd head

def connectAll (tails : List Item) (head : Item) (manual : Bool) : Move Unit :=
  match tails with
  | [] => return
  | x :: xs => do
      connect x head (manual && (← edition) = .late) []
      connectAll xs head manual

end

def indexOf (name : String) : Move Nat := do
  match (← get).nodes.idxOf? name with
  | some i => return i
  | none => throw (.unknownNode name)

def nodeAt (i : Nat) : Move String := do
  match (← get).nodes[i]? with
  | some n => return n
  | none => throw .outOfRange

/-- The node made after a node; of a group, those after its first two members. -/
def advance : Item → Move Item
  | .name s => do
      let name := match ← edition with
        | .early => s
        | .late => String.ofList (s.toList.takeWhile (· != ':'))
      return .name (← nodeAt ((← indexOf name) + 1))
  | .group (x :: y :: _) => do
      let first ← advance x
      let second ← advance y
      return .group [first, second]
  | .group [x] => do
      let _ ← advance x
      throw .outOfRange
  | .group [] => throw .outOfRange

/-- The node made before a node; before the first one stands the last. -/
def nodeBefore (x : Item) : Move String := do
  let i ← indexOf (← (x.nodeName : Except Mishap String))
  match i with
  | 0 => lastNode
  | i + 1 => nodeAt i

def atIfLevel : Move Bool := do
  let b ← get
  return b.ifLevels.head? == some b.level

/-- The kind of a block: the first one of a then branch or of an else branch has a kind of its
own. -/
def blockKind : Move String := do
  let b ← get
  match b.nodes.getLast?, b.ifs with
  | some last, branches :: _ =>
      if ← ((Item.name last).startsWith "i" : Except Mishap Bool) then return "t"
      else
        match b.edition with
        | .early => return if branches = .thenElse then "e" else "b"
        | .late =>
            if (← atIfLevel) && branches = .thenElse then
              match b.lasts with
              | _ :: x :: _ =>
                  return if ← (x.startsWith "i" : Except Mishap Bool) then "e" else "b"
              | _ => return "b"
            else return "b"
  | _, _ => return "b"

/-- A block begins here that is not connected with what comes before it: `last` is the entry that
was on top of the lasts. -/
def beginsApart (last : Item) : Move Bool := do
  let b ← get
  match b.edition with
  | .early =>
      match b.ifLevels with
      | [] => return false
      | level :: _ =>
          if level = b.level then return true
          else last.startsWith "il"
  | .late =>
      let isThen ← (last.startsWith "i" : Except Mishap Bool)
      let isElse ←
        if ← atIfLevel then
          if (← innermostIf) = .thenElse then
            match b.ends with
            | _ :: x :: _ => (x.startsWith "i" : Except Mishap Bool)
            | _ => pure false
          else pure false
        else pure false
      let isLoop ←
        if b.forLevels.head? == some b.level then (last.startsWith "l" : Except Mishap Bool)
        else pure false
      return isThen || isElse || isLoop

/-- The kinds that take the text held back, if they have none of their own. -/
def holdsText (kind : String) : Bool := ["", "b", "t", "e", "bt", "te", "bte"].contains kind

/-- Makes a node of a kind and connects it with the ends before it. -/
def newNode (kind content shape : String) : Move String := do
  modify fun b => { b with count := b.count + 1 }
  let kind ← if kind = "b" then blockKind else pure kind
  let b ← get
  let name := kind ++ toString b.count
  let content := if content.isEmpty && holdsText kind then b.held else content
  modify fun b => { b with nodes := b.nodes ++ [name] }
  emit (.node name (if b.edition = .early then content ++ " " ++ name else content) shape)
  match b.lasts with
  | [] => pure ()
  | _ :: _ => do
      let last ← popLast
      if ← beginsApart last then
        addLast last
        pushEnd (.name name)
      else
        let tail ← popEnd
        connect tail (.name name) false []
      addLast (.name name)
  if b.edition = .late then draw
  return name

end Move

end GoFlow
