import GoFlow.Command
import GoFlow.Literal.Guess
import GoFlow.Respell.Files
import GoFlow.Tree.Parts
import GoFlow.Workload.Sample

/-!
Measures of the work done on sample texts. They depend on the texts alone and not on time.
-/

namespace GoFlow.Workload

def rootSize (p : Parse) : Nat := p.tree.children.length

def syntaxErrors (p : Parse) : Nat := (p.reports.filter fun r => r.problem.isSyntactic).length

def readProgram (text : String) : Parse := Parse.ofText text .sourceFile 0

structure ReadingMeasure where
  errors : Nat
  parts : Nat
  length : Nat

def reading (text : String) : ReadingMeasure :=
  let p := readProgram text
  ⟨syntaxErrors p, rootSize p, text.length⟩

/-- How many parts of a node are there. Those that may occur several times always count. -/
def partsPresent (c : Category) (children : List Tree) : Nat :=
  (c.slots.filter fun s => s.several || children.any s.part.isOf).length

def total (ns : List Nat) : Nat := ns.foldl (· + ·) 0

def partsMeasure (text : String) : Nat :=
  total ((readProgram text).tree.nodes.map fun n =>
    n.1.category.number + partsPresent n.1.category n.2)

structure GraphMeasure where
  nodes : Nat
  statements : Nat
  count : Nat

def building (edition : Edition) (n : Nat) : Except Mishap GraphMeasure :=
  let f := (Builder.new edition).follow (readProgram (sampleProgram n)).tree
  match f.mishap with
  | some m => .error m
  | none => .ok ⟨f.builder.nodes.length, f.builder.graph.length, f.builder.count⟩

/-- What a helper of a builder gives. -/
inductive HelperResult where
  | type (t : Except GuessError LiteralType)
  | directed (x : Item)
  | isTop (b : Bool)

def helperResults (n : Nat) : List HelperResult :=
  (cycled literals n).map (fun s => .type (Literal.guess s)) ++
    [.directed ((Item.name "b1").directed "s"), .directed ((Item.name "l2:e").directed "s"),
      .isTop ((Item.name "b1").isTop [.name "b1"]),
      .isTop ((Item.name "b1").isTop [.group [.name "b1", .name "t2"]]),
      .isTop ((Item.name "t2").isTop [.name "b1"]), .isTop ((Item.name "b1").isTop [])]

def allHelperResults (n : Nat) : List HelperResult := helperResults n ++ helperResults n

/-- How many moves there are to follow a walk or a visit: to enter and to leave each category and a
node of any, and to visit each category. -/
def followMoves : Nat := 2 * (Category.all.length + 1) + Category.all.length

def snippetsMeasure (n : Nat) : Nat :=
  total ((snippets n).map fun s => rootSize (Parse.ofText s.text s.category 0))

/-- The length of `n` sample grammars when respelled, but of one at least. -/
def respellingMeasure (n : Nat) : Nat :=
  total ((List.range (max n 1)).map fun i =>
    (Respell.lines (Text.lines (sampleGrammar i).toList)).length)

def commandRuns (n : Nat) : List CommandResult :=
  [Command.onText (sampleProgram n), Command.onText faultyProgram]

end GoFlow.Workload
