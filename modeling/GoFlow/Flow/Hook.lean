import GoFlow.Flow.Builder
import GoFlow.Tree.Walk

/-!
What a builder does when a walk enters or leaves a node. Only some categories matter to it.
-/

namespace GoFlow

inductive Hook where
  | enterFunction | leaveFunction | enterBlock | leaveBlock | enterConst | leaveConst | enterVar
  | leaveVar | enterAssignment | leaveNames | leaveType | leaveValues | enterIf | leaveIf
  | enterFor | leaveFor
  deriving DecidableEq, Repr, Inhabited

namespace Hook

def all : List Hook :=
  [enterFunction, leaveFunction, enterBlock, leaveBlock, enterConst, leaveConst, enterVar, leaveVar,
    enterAssignment, leaveNames, leaveType, leaveValues, enterIf, leaveIf, enterFor, leaveFor]

def name : Hook → String
  | enterFunction => "enterFunctionDecl"
  | leaveFunction => "exitFunctionDecl"
  | enterBlock => "enterBlock"
  | leaveBlock => "exitBlock"
  | enterConst => "enterConstSpec"
  | leaveConst => "exitConstSpec"
  | enterVar => "enterVarDecl"
  | leaveVar => "exitVarDecl"
  | enterAssignment => "enterAssignment"
  | leaveNames => "exitIdentifierList"
  | leaveType => "exitType_"
  | leaveValues => "exitExpressionList"
  | enterIf => "enterIfStmt"
  | leaveIf => "exitIfStmt"
  | enterFor => "enterForStmt"
  | leaveFor => "exitForStmt"

def ofName? (s : String) : Option Hook := all.find? fun h => h.name == s

def onEnter? : Category → Option Hook
  | .functionDecl => some enterFunction
  | .block => some enterBlock
  | .constSpec => some enterConst
  | .varDecl => some enterVar
  | .assignment => some enterAssignment
  | .ifStmt => some enterIf
  | .forStmt => some enterFor
  | _ => none

def onLeave? : Category → Option Hook
  | .functionDecl => some leaveFunction
  | .block => some leaveBlock
  | .constSpec => some leaveConst
  | .varDecl => some leaveVar
  | .identifierList => some leaveNames
  | .type => some leaveType
  | .expressionList => some leaveValues
  | .ifStmt => some leaveIf
  | .forStmt => some leaveFor
  | _ => none

/-- The children of a node that matters, with its hook. -/
def ofEvent? : Event → Option (Hook × List Tree)
  | .enter h ts => (onEnter? h.category).map fun k => (k, ts)
  | .leave h ts => (onLeave? h.category).map fun k => (k, ts)
  | .leaf _ => none

end Hook

namespace Move

def child (ts : List Tree) (i : Nat) (asked : String) : Except Mishap Tree :=
  if ts.isEmpty then .error .noParts
  else match ts[i]? with
    | some t => .ok t
    | none => .error (.noPart asked)

def childText (ts : List Tree) (i : Nat) : Except Mishap String :=
  (child ts i "getText").map Tree.text

/-- The texts of the items of a list that has the given children. -/
def items (ts : List Tree) : Item :=
  .group ((Tree.everySecond ts).map fun t => .name t.text)

def childItems (ts : List Tree) (i : Nat) : Except Mishap Item :=
  (child ts i "getChildCount").map fun t => items t.children

/-- The text of the first child of a node's first child. -/
def typeText (ts : List Tree) : Except Mishap String :=
  match ts with
  | [] => .error .noParts
  | .leaf _ :: _ => .error (.noPart "getText")
  | .node _ us :: _ => childText us 0

/-- Makes a block of the text held back, if there is any. -/
def flush : Move Unit := do
  if !(← get).held.isEmpty then
    let _ ← newNode "b" "" "box"
  modify fun b => { b with held := "" }

def setPhase (p : Phase) : Move Unit := modify fun b => { b with phase := p }

/-- Names, types and values of a declaration are noted as they are read. -/
def isDeclaring : Move Bool := return (← get).phase ≠ .none

def enterFunction (ts : List Tree) : Move Unit := do
  let node ← newNode "f" (← (childText ts 1 : Except Mishap String)) "box"
  pushEnd (.name node)

def leaveFunction (ts : List Tree) : Move Unit := do
  let _ ← newNode "b" ((← (childText ts 1 : Except Mishap String)) ++ " end") "box"

def enterBlock : Move Unit := do
  modify fun b => { b with level := b.level + 1 }
  let last := Item.name (← lastNode)
  if !(← (last.startsWith "f" : Except Mishap Bool)) then addFirst last
  addLast last

def leaveBlock : Move Unit := do
  modify fun b => { b with level := b.level - 1 }
  flush

def leaveDeclaration (keyword : String) : Move Unit := do
  assign keyword "="
  modify fun b => { b with phase := .none, typed := false }

def enterAssignment (ts : List Tree) : Move Unit := do
  let names ← (childItems ts 0 : Except Mishap Item)
  let op ← (childText ts 1 : Except Mishap String)
  let values ← (childItems ts 2 : Except Mishap Item)
  pushOperand names
  pushOperand (.name "guess")
  pushOperand values
  assign "" op

def leaveNames (ts : List Tree) : Move Unit := do
  if ← isDeclaring then
    if !(← get).namesRead then
      modify fun b => { b with namesRead := true }
      pushOperand (items ts)

def leaveType (ts : List Tree) : Move Unit := do
  if ← isDeclaring then
    pushOperand (.name (← (typeText ts : Except Mishap String)))
    modify fun b => { b with typed := true }

def leaveValues (ts : List Tree) : Move Unit := do
  if (← get).phase = .constDecl || (← get).phase = .varDecl then
    if (← get).valuesRead then
      let _ ← popOperand
    modify fun b => { b with valuesRead := true }
    if !(← get).typed then pushOperand (.name "guess")
    pushOperand (items ts)

def enterIf (ts : List Tree) : Move Unit := do
  flush
  let node ← newNode "if" (← (childText ts 1 : Except Mishap String)) "diamond"
  if (← edition) = .late then addFirst (.name node)
  modify fun b => { b with ifLevels := b.level :: b.ifLevels }
  if ts.length = 3 then modify fun b => { b with ifs := .thenOnly :: b.ifs }
  if ts.length = 5 then modify fun b => { b with ifs := .thenElse :: b.ifs }

def joinEnds : Item → Item → Item
  | .group xs, .group ys => .group (xs ++ ys)
  | .group xs, y => .group (xs ++ [y])
  | x, .group ys => .group (x :: ys)
  | x, y => .group [x, y]

/-- Takes off the last node of a branch, and an earlier note of the same. -/
def popBranchEnd : Move Item := do
  let x ← popLast
  dropLast x
  return x

/-- The first node of the then branch, and the if node before it. -/
def thenBranch : Move (Item × Item) := do
  match ← edition with
  | .late =>
      let ifNode ← popFirst
      return (ifNode, ← advance ifNode)
  | .early =>
      let first ← advance (← popFirst)
      return (.name "", first)

def leaveIfElse : Move Unit := do
  let elseFirst ← advance (← popFirst)
  let elseLast ← popLast
  let (ifNode, thenFirst) ← thenBranch
  let thenLast ← popBranchEnd
  let ifNode ← match ← edition with
    | .late => pure ifNode
    | .early => pure (.name (← nodeBefore thenFirst))
  connect ifNode thenFirst true [("label", "true"), ("headport", "n"), ("tailport", "w")]
  connect ifNode elseFirst true [("label", "false"), ("headport", "n"), ("tailport", "e")]
  addLast (.group [thenLast, elseLast])
  let _ ← popEnd
  let _ ← popEnd
  let _ ← popEnd
  pushEnd (joinEnds thenLast elseLast)

def leaveIfThen : Move Unit := do
  let thenFirst ← advance (← popFirst)
  let thenFirst ← match ← edition with
    | .late => advance (← popFirst)
    | .early => pure thenFirst
  let thenLast ← popBranchEnd
  let ifNode ← nodeBefore thenFirst
  connect (.name ifNode) thenFirst true [("label", "true")]
  let _ ← popEnd
  let _ ← popEnd
  pushEnd (.group [.name (ifNode ++ ":e"), thenLast])
  addLast thenLast

def leaveIf (ts : List Tree) : Move Unit := do
  if ts.length = 5 then leaveIfElse else leaveIfThen
  draw
  let _ ← popIf
  let _ ← popIfLevel

def enterFor (ts : List Tree) : Move Unit := do
  flush
  let condition ← (childText ts 1 : Except Mishap String)
  match ← edition with
  | .late => do
      let _ ← newNode "l" ("for " ++ condition) "egg"
      modify fun b =>
        { b with forLevels := (b.count : Int) :: b.forLevels, breaks := b.breaks ++ [[]] }
  | .early => do
      let _ ← newNode "l" condition "egg"

/-- The first node of a loop's body, its last one, and the loop node before it. -/
def loopBody : Move (Item × Item × String) := do
  let first ← advance (← popFirst)
  let last ← popBranchEnd
  return (first, last, ← nodeBefore first)

/-- Leads the end of a loop's body back to the loop. The ends of several branches are led through a
dummy node. -/
def closeLoop (last : Item) (loop : String) : Move Unit := do
  let ports := [("headport", "w"), ("tailport", "w")]
  if last.isGroup then
    modify fun b => { b with count := b.count + 1 }
    let dummy := Item.name ("d" ++ toString (← get).count)
    connect last dummy true []
    connect dummy (.name loop) true ports
  else connect last (.name loop) true ports

def leaveFor : Move Unit := do
  match ← edition with
  | .late =>
      let _ ← popForLevel
      let (first, last, loop) ← loopBody
      connect (.name loop) first true []
      closeLoop last loop
      let _ ← popEnd
      pushEnd (.name (loop ++ ":e"))
      draw
      addLast (.name (loop ++ ":e"))
      addFirst (.name loop)
  | .early =>
      let (first, last, loop) ← loopBody
      connect (.name loop) first true []
      connect last (.name loop) false [("headport", "e"), ("tailport", "e")]
      let _ ← popEnd
      let _ ← popEnd
      pushEnd (.group [.name (loop ++ ":w"), last])
      addLast (.name (loop ++ ":w"))

end Move

namespace Hook

open Move

def run : Hook → List Tree → Move Unit
  | enterFunction, ts => Move.enterFunction ts
  | leaveFunction, ts => Move.leaveFunction ts
  | enterBlock, _ => Move.enterBlock
  | leaveBlock, _ => Move.leaveBlock
  | enterConst, _ => setPhase .constDecl
  | leaveConst, _ => leaveDeclaration "const"
  | enterVar, _ => setPhase .varDecl
  | leaveVar, _ => leaveDeclaration "var"
  | enterAssignment, ts => Move.enterAssignment ts
  | leaveNames, ts => Move.leaveNames ts
  | leaveType, ts => Move.leaveType ts
  | leaveValues, ts => Move.leaveValues ts
  | enterIf, ts => Move.enterIf ts
  | leaveIf, ts => Move.leaveIf ts
  | enterFor, ts => Move.enterFor ts
  | leaveFor, _ => Move.leaveFor

end Hook

namespace Builder

/-- The builder after a move, and what the move gave or what stopped it. -/
def perform {α : Type} (b : Builder) (m : Move α) : Except Mishap α × Builder := m.run b

end Builder

structure Following where
  builder : Builder
  /-- The last hook that was begun. -/
  begun : Option Hook
  /-- What stopped the builder. -/
  mishap : Option Mishap
  /-- The hooks that were completed, each with the builder after it. -/
  trace : List (Hook × Builder)

namespace Following

/-- Follows the events until the builder is stopped. -/
def go (begun : Option Hook) (b : Builder) : List Event → Following
  | [] => ⟨b, begun, none, []⟩
  | e :: es =>
      match Hook.ofEvent? e with
      | none => go begun b es
      | some (h, ts) =>
          match b.perform (h.run ts) with
          | (.ok _, next) =>
              let rest := go (some h) next es
              { rest with trace := (h, next) :: rest.trace }
          | (.error m, next) => ⟨next, some h, some m, []⟩

end Following

def Builder.follow (b : Builder) (t : Tree) : Following := Following.go none b t.walk

/-- Follows the walk through a tree as a single move. -/
def Move.followTree (t : Tree) : Move Unit :=
  ExceptT.mk fun b =>
    let f := b.follow t
    (match f.mishap with
      | none => .ok ()
      | some m => .error m,
      f.builder)

end GoFlow
