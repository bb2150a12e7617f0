import GoFlow.Proofs.Source

/-! Sketches: what a builder of the late edition does with branches and loops, without texts for the
nodes and without a tree to walk. A node is a role and a number, a body is drawn by recursion on it,
and drawing gives no sketch where a stack runs out. -/

namespace GoFlow

/-- What a node is made for. -/
inductive Role where
  | entry
  | block
  /-- The first block of a then branch. -/
  | yes
  /-- The block of an else branch. -/
  | no
  | condition
  | loop
  | dummy
  deriving DecidableEq, Repr

structure Spot where
  role : Role
  number : Nat
  deriving DecidableEq, Repr

/-- A side of a node at which edges begin. -/
inductive Port where
  | south (s : Spot)
  | east (s : Spot)
  deriving DecidableEq, Repr

def Port.spot : Port → Spot
  | south s | east s => s

/-- Where something ends: at a port, or at several places side by side. -/
inductive Tip where
  | port (p : Port)
  | group (tips : List Tip)
  deriving Repr

inductive Stroke where
  | node (s : Spot) (text shape : String)
  | edge (tail : Port) (head : Spot) (attributes : List (String × String))
  deriving DecidableEq, Repr

namespace Tip

mutual

def decEq : (x y : Tip) → Decidable (x = y)
  | .port p, .port q => decidable_of_iff (p = q) (by simp)
  | .port _, .group _ => isFalse nofun
  | .group _, .port _ => isFalse nofun
  | .group xs, .group ys =>
      match decEqAll xs ys with
      | isTrue h => isTrue (by rw [h])
      | isFalse h => isFalse (by rintro ⟨⟩; exact h rfl)

def decEqAll : (xs ys : List Tip) → Decidable (xs = ys)
  | [], [] => isTrue rfl
  | [], _ :: _ => isFalse nofun
  | _ :: _, [] => isFalse nofun
  | x :: xs, y :: ys =>
      match decEq x y, decEqAll xs ys with
      | isTrue h, isTrue h' => isTrue (by rw [h, h'])
      | isFalse h, _ => isFalse (by rintro ⟨⟩; exact h rfl)
      | _, isFalse h => isFalse (by rintro ⟨⟩; exact h rfl)

end

instance : DecidableEq Tip := decEq

def spot (s : Spot) : Tip := .port (.south s)

mutual

def ports : Tip → List Port
  | .port p => [p]
  | .group xs => portsAll xs

def portsAll : List Tip → List Port
  | [] => []
  | x :: xs => x.ports ++ portsAll xs

end

def members : Tip → List Tip
  | .port _ => []
  | .group xs => xs

def hasRole (r : Role) : Tip → Bool
  | .port p => p.spot.role = r
  | .group _ => false

/-- Puts a tip on a stack unless it is on top of it, by itself or within a group. -/
def addTo (x : Tip) : List Tip → List Tip
  | [] => [x]
  | y :: ys => if y.members.contains x || y == x then y :: ys else x :: y :: ys

def join : Tip → Tip → Tip
  | .group xs, .group ys => .group (xs ++ ys)
  | .group xs, y => .group (xs ++ [y])
  | x, .group ys => .group (x :: ys)
  | x, y => .group [x, y]

end Tip

def Spot.addTo (s : Spot) : List Spot → List Spot
  | [] => [s]
  | t :: ts => if t = s then t :: ts else s :: t :: ts

structure Sketch where
  level : Int := 0
  count : Nat := 0
  held : String := ""
  nodes : List Spot := []
  /-- The levels of the open branches, with their kinds. -/
  branches : List (Int × Branches) := []
  loops : List Int := []
  firsts : List Spot := []
  lasts : List Tip := []
  ends : List Tip := []
  strokes : List Stroke := []

namespace Sketch

def next? (d : Sketch) (s : Spot) : Option Spot := d.nodes[d.nodes.idxOf s + 1]?

/-- An else branch is taken to begin here: its branch began at this level and has an else, and a
condition stands below the top of the ends. -/
def beginsElse (d : Sketch) : Bool :=
  match d.branches, d.ends with
  | (level, .thenElse) :: _, _ :: x :: _ => level == d.level && x.hasRole .condition
  | _, _ => false

/-- The node made next is not connected with what comes before it. -/
def apart (d : Sketch) (last : Tip) : Bool :=
  last.hasRole .condition || d.beginsElse ||
    (d.loops.head? == some d.level && last.hasRole .loop)

def blockRole (d : Sketch) : Role :=
  match d.nodes.getLast?, d.branches with
  | some s, (level, branches) :: _ =>
      if s.role = .condition then .yes
      else if level = d.level ∧ branches = .thenElse then
        match d.lasts with
        | _ :: x :: _ => if x.hasRole .condition then .no else .block
        | _ => .block
      else .block
  | _, _ => .block

/-- Connects a node just made with the ends before it, or leaves it apart. -/
def settle (s : Spot) (d : Sketch) : Option Sketch :=
  match d.lasts with
  | [] => some d
  | last :: lasts =>
      if d.apart last then
        some { d with lasts := .spot s :: last.addTo lasts, ends := .spot s :: d.ends }
      else
        match d.ends with
        | [] => none
        | tail :: ends =>
            some { d with
              lasts := .spot s :: lasts
              ends := .spot s :: ends
              strokes := d.strokes ++ tail.ports.map fun p => .edge p s [] }

theorem settle_first {d : Sketch} (s : Spot) (first : d.lasts = []) : d.settle s = some d := by
  rw [settle, first]

theorem settle_apart {d : Sketch} {last : Tip} {rest : List Tip} (s : Spot)
    (split : d.lasts = last :: rest) (left : d.apart last = true) :
    d.settle s =
      some { d with lasts := .spot s :: last.addTo rest, ends := .spot s :: d.ends } := by
  simp only [settle, split, left, if_true]

theorem settle_joined {d : Sketch} {last tail : Tip} {rest others : List Tip} (s : Spot)
    (split : d.lasts = last :: rest) (joined : d.apart last = false)
    (ends : d.ends = tail :: others) :
    d.settle s =
      some { d with
        lasts := .spot s :: rest
        ends := .spot s :: others
        strokes := d.strokes ++ tail.ports.map fun p => .edge p s [] } := by
  simp only [settle, split, joined, Bool.false_eq_true, if_false, ends]

theorem settle_stuck {d : Sketch} {last : Tip} {rest : List Tip} (s : Spot)
    (split : d.lasts = last :: rest) (joined : d.apart last = false) (ends : d.ends = []) :
    d.settle s = none := by
  simp only [settle, split, joined, Bool.false_eq_true, if_false, ends]

/-- A node more, not connected with anything. -/
def declare (role : Role) (text shape : String) (d : Sketch) : Sketch :=
  { d with
    count := d.count + 1
    nodes := d.nodes ++ [⟨role, d.count + 1⟩]
    strokes := d.strokes ++ [.node ⟨role, d.count + 1⟩ text shape] }

def place (role : Role) (text shape : String) (d : Sketch) : Option Sketch :=
  (d.declare role text shape).settle ⟨role, d.count + 1⟩

/-- Settling a node changes the lasts, the ends and the strokes only. -/
theorem settle_frame {d d' : Sketch} {s : Spot} (h : d.settle s = some d') :
    ∃ lasts ends strokes, d' = { d with lasts, ends, strokes } := by
  unfold settle at h
  split at h
  · cases h
    exact ⟨_, _, _, rfl⟩
  · split at h
    · cases h
      exact ⟨_, _, _, rfl⟩
    · split at h
      · cases h
      · cases h
        exact ⟨_, _, _, rfl⟩

theorem place_frame {d d' : Sketch} {role : Role} {text shape : String}
    (h : d.place role text shape = some d') :
    ∃ lasts ends strokes, d' = { d.declare role text shape with lasts, ends, strokes } :=
  settle_frame h

def hold (text : String) (d : Sketch) : Sketch := { d with held := d.held ++ text }

def flush (d : Sketch) : Option Sketch :=
  if d.held = "" then some d
  else (d.place d.blockRole d.held "box").map fun d => { d with held := "" }

def enterFunction (name : String) (d : Sketch) : Option Sketch :=
  (d.place .entry name "box").map fun d => { d with ends := .spot ⟨.entry, d.count⟩ :: d.ends }

def leaveFunction (name : String) (d : Sketch) : Option Sketch :=
  d.place d.blockRole (name ++ " end") "box"

def enterBlock (d : Sketch) : Option Sketch :=
  d.nodes.getLast?.map fun s =>
    { d with
      level := d.level + 1
      firsts := if s.role = .entry then d.firsts else s.addTo d.firsts
      lasts := (Tip.spot s).addTo d.lasts }

def leaveBlock (d : Sketch) : Option Sketch := { d with level := d.level - 1 }.flush

def enterIf (condition : String) (branches : Branches) (d : Sketch) : Option Sketch := do
  let d ← d.flush
  let d ← d.place .condition condition "diamond"
  return { d with
    firsts := Spot.addTo ⟨.condition, d.count⟩ d.firsts
    branches := (d.level, branches) :: d.branches }

def popFirst (d : Sketch) : Option (Spot × Sketch) :=
  match d.firsts with
  | s :: firsts => some (s, { d with firsts })
  | [] => none

def popLast (d : Sketch) : Option (Tip × Sketch) :=
  match d.lasts with
  | x :: lasts => some (x, { d with lasts })
  | [] => none

def popEnd (d : Sketch) : Option (Tip × Sketch) :=
  match d.ends with
  | x :: ends => some (x, { d with ends })
  | [] => none

theorem popFirst_eq_some {d d' : Sketch} {s : Spot} :
    d.popFirst = some (s, d') ↔ ∃ rest, d.firsts = s :: rest ∧ d' = { d with firsts := rest } := by
  unfold popFirst
  cases d.firsts <;> simp [eq_comm, and_assoc]

theorem popLast_eq_some {d d' : Sketch} {x : Tip} :
    d.popLast = some (x, d') ↔ ∃ rest, d.lasts = x :: rest ∧ d' = { d with lasts := rest } := by
  unfold popLast
  cases d.lasts <;> simp [eq_comm, and_assoc]

theorem popEnd_eq_some {d d' : Sketch} {x : Tip} :
    d.popEnd = some (x, d') ↔ ∃ rest, d.ends = x :: rest ∧ d' = { d with ends := rest } := by
  unfold popEnd
  cases d.ends <;> simp [eq_comm, and_assoc]

def popBranch (d : Sketch) : Option Sketch :=
  match d.branches with
  | _ :: branches => some { d with branches }
  | [] => none

def popLoop (d : Sketch) : Option Sketch :=
  match d.loops with
  | _ :: loops => some { d with loops }
  | [] => none

/-- The first nodes of both branches are those made after the two topmost firsts. -/
def leaveIfElse (d : Sketch) : Option Sketch := do
  let (n, d) ← d.popFirst
  let elseFirst ← d.next? n
  let (no, d) ← d.popLast
  let (c, d) ← d.popFirst
  let thenFirst ← d.next? c
  let (yes, d) ← d.popLast
  let d : Sketch := { d with
    lasts := (Tip.group [yes, no]).addTo (d.lasts.erase yes)
    strokes := d.strokes ++
      [.edge (.south c) thenFirst [("label", "true"), ("headport", "n"), ("tailport", "w")]] ++
      [.edge (.south c) elseFirst [("label", "false"), ("headport", "n"), ("tailport", "e")]] }
  let (_, d) ← d.popEnd
  let (_, d) ← d.popEnd
  let (_, d) ← d.popEnd
  return { d with ends := yes.join no :: d.ends }

/-- The topmost of the firsts is passed over here. -/
def leaveIfThen (d : Sketch) : Option Sketch := do
  let (n, d) ← d.popFirst
  let _ ← d.next? n
  let (c, d) ← d.popFirst
  let thenFirst ← d.next? c
  let (yes, d) ← d.popLast
  let d : Sketch := { d with
    lasts := d.lasts.erase yes
    strokes := d.strokes ++ [.edge (.south c) thenFirst [("label", "true")]] }
  let (_, d) ← d.popEnd
  let (_, d) ← d.popEnd
  return { d with ends := .group [.port (.east c), yes] :: d.ends, lasts := yes.addTo d.lasts }

def leaveIf (kind : Branches) (d : Sketch) : Option Sketch := do
  let d ← match kind with
    | .thenElse => d.leaveIfElse
    | .thenOnly => d.leaveIfThen
  d.popBranch

def enterFor (condition : String) (d : Sketch) : Option Sketch := do
  let d ← d.flush
  let d ← d.place .loop ("for " ++ condition) "egg"
  return { d with loops := (d.count : Int) :: d.loops }

/-- Leads the end of a loop's body back to the loop. -/
def closeLoop (last : Tip) (s : Spot) (d : Sketch) : Sketch :=
  let ports := [("headport", "w"), ("tailport", "w")]
  match last with
  | .port p => { d with strokes := d.strokes ++ [.edge p s ports] }
  | .group xs =>
      let dummy : Spot := ⟨.dummy, d.count + 1⟩
      { d with
        count := d.count + 1
        strokes := d.strokes ++ ((Tip.group xs).ports.map fun p => .edge p dummy []) ++
          [.edge (.south dummy) s ports] }

def leaveFor (d : Sketch) : Option Sketch := do
  let d ← d.popLoop
  let (s, d) ← d.popFirst
  let first ← d.next? s
  let (last, d) ← d.popLast
  let d := closeLoop last s { d with
    lasts := d.lasts.erase last
    strokes := d.strokes ++ [.edge (.south s) first []] }
  let (_, d) ← d.popEnd
  return { d with
    firsts := s.addTo d.firsts
    lasts := (Tip.port (.east s)).addTo d.lasts
    ends := .port (.east s) :: d.ends }

end Sketch

def Otherwise.branches : Otherwise → Branches
  | .nothing => .thenOnly
  | _ => .thenElse

mutual

def Body.draw : Body → Sketch → Option Sketch
  | .done, d => some d
  | .run text rest, d => rest.draw (d.hold text)
  | .branch condition yes no rest, d => do
      let d ← d.enterIf condition no.branches
      let d ← d.enterBlock
      let d ← yes.draw d
      let d ← d.leaveBlock
      let d ← no.draw d
      let d ← d.leaveIf no.branches
      rest.draw d
  | .loop condition body rest, d => do
      let d ← d.enterFor condition
      let d ← d.enterBlock
      let d ← body.draw d
      let d ← d.leaveBlock
      let d ← d.leaveFor
      rest.draw d

def Otherwise.draw : Otherwise → Sketch → Option Sketch
  | .nothing, d => some d
  | .block body, d => do
      let d ← d.enterBlock
      let d ← body.draw d
      d.leaveBlock
  | .elseIf condition yes no, d => do
      let d ← d.enterIf condition no.branches
      let d ← d.enterBlock
      let d ← yes.draw d
      let d ← d.leaveBlock
      let d ← no.draw d
      d.leaveIf no.branches

end

def Body.drawBlock (body : Body) (d : Sketch) : Option Sketch :=
  d.enterBlock.bind fun d => (body.draw d).bind fun d => d.leaveBlock

def drawIf (condition : String) (yes : Body) (no : Otherwise) (d : Sketch) : Option Sketch :=
  (d.enterIf condition no.branches).bind fun d => (yes.drawBlock d).bind fun d =>
    (no.draw d).bind fun d => d.leaveIf no.branches

def drawFor (condition : String) (body : Body) (d : Sketch) : Option Sketch :=
  (d.enterFor condition).bind fun d => (body.drawBlock d).bind fun d => d.leaveFor

theorem Body.draw_branch (condition : String) (yes rest : Body) (no : Otherwise) (d : Sketch) :
    (Body.branch condition yes no rest).draw d = (drawIf condition yes no d).bind rest.draw := by
  simp only [Body.draw, drawIf, Body.drawBlock, Option.bind_eq_bind, Option.bind_assoc]

theorem Body.draw_loop (condition : String) (body rest : Body) (d : Sketch) :
    (Body.loop condition body rest).draw d = (drawFor condition body d).bind rest.draw := by
  simp only [Body.draw, drawFor, Body.drawBlock, Option.bind_eq_bind, Option.bind_assoc]

theorem Otherwise.draw_block (body : Body) (d : Sketch) :
    (Otherwise.block body).draw d = body.drawBlock d := rfl

theorem Otherwise.draw_elseIf (condition : String) (yes : Body) (no : Otherwise) (d : Sketch) :
    (Otherwise.elseIf condition yes no).draw d = drawIf condition yes no d := by
  simp only [Otherwise.draw, drawIf, Body.drawBlock, Option.bind_eq_bind, Option.bind_assoc]

def Function.draw (f : Function) (d : Sketch) : Option Sketch := do
  let d ← d.enterFunction f.name
  let d ← f.body.drawBlock d
  d.leaveFunction f.name

def drawAll : List Function → Sketch → Option Sketch
  | [], d => some d
  | f :: fs, d => do
      let d ← f.draw d
      drawAll fs d

end GoFlow
