import GoFlow.Forecast.Memory
import GoFlow.Parse.Stream
import GoFlow.Tree.Basic

/-!
The parser: a machine that moves along the network with a frame for each category being read. A
token that does not fit is repaired on the spot by skipping it or by taking the expected one as
read; if neither helps, the category is given up and tokens are skipped until one that may follow
some category being read.
-/

namespace GoFlow

/-- A category being read. -/
structure Frame where
  category : Category
  /-- Suffixes below this level belong to the category around. -/
  level : Nat
  /-- Where to go on after it; the first frame has no such place. -/
  returnTo : Option Nat
  /-- The name under which the category around keeps its text. -/
  label : Option Label
  labels : List (Label × String)
  /-- The children read so far, the last one first. -/
  children : List Tree
  deriving Inhabited

namespace Frame

def tree (f : Frame) (fault : Option Fault) : Tree :=
  .node ⟨f.category, fault, f.labels⟩ f.children.reverse

def add (f : Frame) (t : Tree) : Frame := { f with children := t :: f.children }

def name (f : Frame) (label : Option Label) (text : String) : Frame :=
  match label with
  | some l => { f with labels := (l, text) :: f.labels.filter (fun e => e.1 != l) }
  | none => f

/-- What was read so far becomes the first child of the same category. -/
def wrap (f : Frame) : Frame := { f with labels := [], children := [f.tree none] }

end Frame

/-- Where the last category was given up: the token, and the nodes where it has happened since a
token was last matched. -/
structure LastFault where
  position : Nat
  nodes : List Nat
  deriving Inhabited

structure Machine where
  stream : Stream
  /-- The next token. -/
  position : Nat
  /-- How many visible tokens have been asked for. -/
  asked : Nat
  /-- The last report first. -/
  reports : List Report
  /-- The innermost category being read. -/
  top : Frame
  /-- The categories around it, from the inside out. -/
  outer : List Frame
  /-- The node to be visited. -/
  node : Nat
  /-- An error has been reported and no token matched since. -/
  recovering : Bool
  lastFault : Option LastFault
  /-- Kinds found to be of use after a round of a loop, beside those the grammar admits. -/
  widened : List (Nat × KindSet)
  /-- What forecasts have found out. -/
  memory : Memory

namespace Machine

def here (m : Machine) : Token := m.stream.token m.position

def kindAt (m : Machine) (offset : Nat) : Kind := m.stream.kind (m.position + offset)

def report (m : Machine) (t : Token) (p : Problem) : Machine :=
  { m with reports := ⟨t.place, p⟩ :: m.reports }

def ask (m : Machine) (count : Nat) : Machine :=
  if m.asked < count then
    { m with
      asked := count
      reports := (m.stream.reportsBetween m.asked count).reverse ++ m.reports }
  else m

def askAhead (m : Machine) (offset : Nat) : Machine := m.ask (m.position + offset + 1)

/-- Takes the next token into the tree. The end of input can be taken again and again. -/
def take (m : Machine) : Machine :=
  let t := m.here
  let leaf : Leaf := if m.recovering then .stray t else .token t
  let m := { m with top := m.top.add (.leaf leaf) }
  if t.kind = .eof then m else { m with position := m.position + 1 }.askAhead 0

/-- A token has matched. -/
def settle (m : Machine) : Machine := { m with recovering := false, lastFault := none }

def within (m : Machine) (i : Nat) : Ahead :=
  let a := Chart.go.within.ahead i
  match m.widened.find? fun w => w.1 == i with
  | some w => ⟨a.kinds.union w.2, a.silent⟩
  | none => a

/-- The kinds that may come after what `a` says, with the categories around ended in turn. -/
def climb (a : Ahead) : List Frame → KindSet
  | [] => if a.silent then a.kinds.union (.single .eof) else a.kinds
  | f :: fs =>
      if a.silent then
        match f.returnTo with
        | some r => a.kinds.union (climb (Chart.go.within.ahead r) fs)
        | none => a.kinds.union (.single .eof)
      else a.kinds

def expected (m : Machine) (i : Nat) : KindSet := climb (m.within i) (m.top :: m.outer)

/-- The kinds that may follow some category being read. -/
def follow (m : Machine) : KindSet :=
  (m.top :: m.outer).foldl
    (fun s f => match f.returnTo with
      | some r => s.union (Chart.go.within.ahead r).kinds
      | none => s)
    .empty

def skipUntil (kinds : KindSet) : Nat → Machine → Machine
  | 0, m => m
  | fuel + 1, m =>
      if m.here.kind = .eof || kinds.contains m.here.kind then m else skipUntil kinds fuel m.take

def skip (m : Machine) (kinds : KindSet) : Machine := skipUntil kinds m.stream.size m

def reportExtraneous (m : Machine) (i : Nat) : Machine :=
  if m.recovering then m
  else { m with recovering := true }.report m.here (.extraneous m.here.text (m.expected i))

def reportMissing (m : Machine) (i : Nat) : Machine :=
  if m.recovering then m
  else { m with recovering := true }.report m.here (.missing (m.expected i) m.here.text)

def dropOne? (m : Machine) (i : Nat) : Machine × Bool :=
  let m := m.askAhead 1
  if (m.expected i).contains (m.kindAt 1) then (((m.reportExtraneous i).take).settle, true)
  else (m, false)

inductive Stop where
  | noWay (first last : Nat)
  | mismatch
  | noBracket
  | undue (level : Nat)

namespace Stop

def fault : Stop → Fault
  | noWay .. => .noWay
  | mismatch => .mismatch
  | noBracket | undue _ => .condition

end Stop

/-- The text told of a fork that has no way is read to the end of the input first. -/
def tell (m : Machine) (i : Nat) : Stop → Machine
  | .noWay first last =>
      if m.stream.kind first = .eof then m.report (m.stream.token last) (.noWay "<EOF>")
      else
        let m := m.ask m.stream.size
        m.report (m.stream.token last) (.noWay (m.stream.textBetween first last))
  | .mismatch => m.report m.here (.mismatched m.here.text (m.expected i))
  | .noBracket => m.report m.here (.noBracket m.top.category)
  | .undue level => m.report m.here (.undue m.top.category level)

/-- Leaves the category being read, with its tree, for the place after it. The outermost category
is not left: the machine rests at its final node. -/
def leave (m : Machine) (fault : Option Fault) : Machine :=
  let t := m.top.tree fault
  match m.top.returnTo, m.outer with
  | some r, f :: fs =>
      { m with top := (f.add t).name m.top.label t.text, outer := fs, node := r }
  | _, _ => m

inductive Outcome where
  | running (m : Machine)
  | done (m : Machine) (t : Tree)

def finish (m : Machine) (fault : Option Fault) : Outcome :=
  match m.outer with
  | [] => .done m (m.top.tree fault)
  | _ :: _ => .running (m.leave fault)

/-- Gives up the category at a node: reports why, skips tokens, and leaves it. A token at which the
same node has already given up is skipped in any case. -/
def giveUp (m : Machine) (i : Nat) (stop : Stop) : Outcome :=
  let m := if m.recovering then m else { m with recovering := true }.tell i stop
  let m := match m.lastFault with
    | some l => if l.position == m.position && l.nodes.contains i then m.take else m
    | none => m
  let nodes := match m.lastFault with
    | some l => i :: l.nodes
    | none => [i]
  let m := { m with lastFault := some ⟨m.position, nodes⟩ }
  (m.skip m.follow).finish (some stop.fault)

/-- Before a fork: the next token must be of use there. At the start of a group it may be skipped;
after a round of a loop tokens are skipped until one that is. -/
def sync (m : Machine) (i : Nat) : Except Machine Machine :=
  let a := m.within i
  if m.recovering || a.kinds.contains m.here.kind || a.silent then .ok m
  else
    match Chart.go.node i with
    | .again _ | .fork .repeated _ =>
        let m := m.reportExtraneous i
        let extra := m.follow
        let kinds := (m.expected i).union extra
        let m := { m with widened := (i, kinds) :: m.widened.filter (fun w => w.1 != i) }
        .ok (m.skip kinds)
    | _ => match m.dropOne? i with
      | (m, true) => .ok m
      | (m, false) => .error m

def circumstances (m : Machine) : Circumstances :=
  .before m.here.kind m.top.level

def below (m : Machine) : List Nat := (m.top :: m.outer).filterMap Frame.returnTo

/-- The way to take at a fork: its number counted from one, or the reason why there is none. -/
def choose (m : Machine) (fork : Nat) (kind : Fork) (ways : List Nat) :
    Machine × Except Stop Nat :=
  match Chart.go.settledAt fork with
  | some kinds =>
      match kinds.findIdx? (·.contains m.here.kind) with
      | some n => (m, .ok (n + 1))
      | none =>
          if kind = .choice then (m, .error (.noWay m.position m.position))
          else (m, .ok ways.length)
  | none =>
      let (f, memory) := Chart.go.forecast m.memory fork kind ways m.circumstances m.below m.kindAt
        (m.stream.size - m.position)
      let m := { m with memory }.askAhead f.looked
      match f.verdict with
      | .way n => (m, .ok n)
      | .dead offset => (m, .error (.noWay m.position (m.position + offset)))

def branch (m : Machine) (i fork : Nat) (kind : Fork) (ways : List Nat) : Outcome :=
  match m.choose fork kind ways with
  | (m, .ok n) => .running { m with node := ways.getD (n - 1) fork }
  | (m, .error stop) => m.giveUp i stop

/-- A round of a loop that is run at least once begins after the node that enters it. -/
def skipEnter (m : Machine) : Machine :=
  match Chart.go.node m.node with
  | .enter next => { m with node := next }
  | _ => m

/-- Repairs a token that does not match at node `i`: whether the expected token is to be taken, or
taken as read. -/
inductive Repair where
  | taken (m : Machine)
  | inserted (m : Machine)
  | none (m : Machine)

def repair (m : Machine) (i next : Nat) : Repair :=
  match m.dropOne? i with
  | (m, true) => .taken m.take
  | (m, false) =>
      if (climb (Chart.go.within.ahead next) (m.top :: m.outer)).contains m.here.kind then
        .inserted (m.reportMissing i)
      else .none m

def withTop (m : Machine) (f : Frame → Frame) : Machine := { m with top := f m.top }

def matchToken (m : Machine) (i : Nat) (label : Option Label) (k : Kind) (next : Nat) : Outcome :=
  if m.here.kind = k then
    let text := m.here.text
    .running { (m.settle.take).withTop (·.name label text) with node := next }
  else
    match m.repair i next with
    | .taken m' =>
        let text := (m'.stream.token (m.position + 1)).text
        .running { m'.withTop (·.name label text) with node := next }
    | .inserted m =>
        let leaf : Leaf := .missing k
        .running
          { m.withTop (fun f => (f.add (.leaf leaf)).name label leaf.text) with node := next }
    | .none m => m.giveUp i .mismatch

/-- One token of any of the kinds. A token taken as read leaves no trace in the tree but its name;
the name is given to the token at hand before anything is repaired. -/
def matchOneOf (m : Machine) (i : Nat) (label : Option Label) (ks : List Kind) (next : Nat) :
    Outcome :=
  let m := m.withTop (·.name label m.here.text)
  if ks.contains m.here.kind then .running { m.settle.take with node := next }
  else
    match m.repair i next with
    | .taken m' =>
        let text := (m'.stream.token (m.position + 1)).text
        .running { m'.withTop (·.name label text) with node := next }
    | .inserted m =>
        let leaf : Leaf := .missing ((m.expected i).toList.headD .eof)
        .running { m.withTop (·.name label leaf.text) with node := next }
    | .none m => m.giveUp i .mismatch

def step (m : Machine) : Outcome :=
  let i := m.node
  match Chart.go.node i with
  | .token label k next => m.matchToken i label k next
  | .oneOf label ks next => m.matchOneOf i label ks next
  | .part label c level next =>
      .running { m with
        top := ⟨c, level, some next, label, [], []⟩
        outer := m.top :: m.outer
        node := Chart.go.net.entry c }
  | .bracketAhead next =>
      if m.circumstances.bracketAhead then .running { m with node := next }
      else m.giveUp i .noBracket
  | .suffix level next =>
      let m := m.withTop Frame.wrap
      if m.top.level ≤ level then .running { m with node := next } else m.giveUp i (.undue level)
  | .pass next => .running { m with node := next }
  | .enter next =>
      match m.sync i with
      | .ok m => .running { m with node := next }
      | .error m => m.giveUp i .mismatch
  | .fork kind ways =>
      match m.sync i with
      | .ok m => match m.branch i i kind ways with
        | .running m => .running (if kind = .repeated then m.skipEnter else m)
        | done => done
      | .error m => m.giveUp i .mismatch
  | .again entry =>
      match m.sync i with
      | .ok m => match Chart.go.node entry with
        | .fork kind ways => m.branch i entry kind ways
        | _ => .running { m with node := entry }
      | .error m => m.giveUp i .mismatch
  | .final _ => m.finish none

/-- Visits nodes until the whole text has been read, however many they are. A machine that went on
for ever would come to nothing. -/
def run (m : Machine) : Option (Machine × Tree) :=
  match m.step with
  | .done m t => some (m, t)
  | .running m => m |>.run
partial_fixpoint

end Machine

structure Parse where
  tree : Tree
  reports : List Report
  /-- The token after the text that was read, and its place among all tokens. -/
  next : Token
  nextIndex : Nat

namespace Parse

def ofStream (stream : Stream) (c : Category) (level : Nat) : Parse :=
  let m : Machine :=
    { stream, position := 0, asked := 0, reports := [], top := ⟨c, level, none, none, [], []⟩
      outer := [], node := Chart.go.net.entry c, recovering := false, lastFault := none
      widened := [], memory := {} }
  let m := m.askAhead 0
  let (m, tree) := m.run.getD (m, m.top.tree none)
  { tree, reports := m.reports.reverse, next := m.here
    nextIndex := (m.stream.arrival m.position).index }

def ofText (text : String) (c : Category) (level : Nat) : Parse :=
  ofStream (.ofText text) c level

end Parse

end GoFlow
