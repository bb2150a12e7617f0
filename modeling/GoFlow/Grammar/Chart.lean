import GoFlow.Grammar.Network
import GoFlow.Token.KindSet

/-!
The network with what can be told in advance of each node: the kinds of token that may come next,
and the forks at which the next token alone shows the way.
-/

namespace GoFlow

/-- What may come after a node: the kinds of the next token, and whether something else may come,
which a token cannot show. -/
structure Ahead where
  kinds : KindSet
  silent : Bool
  deriving DecidableEq, Inhabited

namespace Ahead

def none : Ahead := ⟨.empty, false⟩

def union (a b : Ahead) : Ahead := ⟨a.kinds.union b.kinds, a.silent || b.silent⟩

def unionAll (as : List Ahead) : Ahead := as.foldl union none

end Ahead

structure Survey where
  answers : Array Ahead
  deriving DecidableEq, Inhabited

namespace Survey

def ahead (survey : Survey) (i : Nat) : Ahead := survey.answers.getD i .none

/-- Answers every node once more from the answers so far. -/
def pass (answer : Survey → Node → Ahead) (nodes : Array Node) (survey : Survey) : Survey :=
  (List.range nodes.size).foldl
    (fun s i => ⟨s.answers.setIfInBounds i (answer s (nodes.getD i (.pass i)))⟩) survey

/-- Passes over the nodes until no answer changes, `fuel` times at most. -/
def settle (answer : Survey → Node → Ahead) (nodes : Array Node) : Nat → Survey → Survey
  | 0, survey => survey
  | fuel + 1, survey =>
      let next := pass answer nodes survey
      if next == survey then survey else settle answer nodes fuel next

def ofNodes (answer : Survey → Node → Ahead) (nodes : Array Node) : Survey :=
  settle answer nodes nodes.size ⟨Array.replicate nodes.size .none⟩

end Survey

namespace Network

/-- What may come next within the category of a node. Here the answer is silent if the category may
end first. -/
def withinStep (net : Network) (s : Survey) : Node → Ahead
  | .token _ k _ => ⟨.single k, false⟩
  | .oneOf _ ks _ => ⟨.ofList ks, false⟩
  | .part _ c _ next =>
      let first := s.ahead (net.entry c)
      if first.silent then ⟨first.kinds.union (s.ahead next).kinds, (s.ahead next).silent⟩
        else first
  | .bracketAhead next | .suffix _ next | .pass next | .enter next | .again next => s.ahead next
  | .fork _ ways => .unionAll (ways.map s.ahead)
  | .final _ => ⟨.empty, true⟩

def within (net : Network) : Survey := Survey.ofNodes net.withinStep net.nodes

/-- What may come next in any source text, past the end of a category too. Here the answer is
silent if a condition on the text or on the level of a suffix comes first. -/
def beyondStep (net : Network) (returns : Array (List Return)) (s : Survey) : Node → Ahead
  | .token _ k _ => ⟨.single k, false⟩
  | .oneOf _ ks _ => ⟨.ofList ks, false⟩
  | .part _ c _ _ => s.ahead (net.entry c)
  | .bracketAhead _ | .suffix _ _ => ⟨.empty, true⟩
  | .pass next | .enter next | .again next => s.ahead next
  | .fork _ ways => .unionAll (ways.map s.ahead)
  | .final c => .unionAll ((returns.getD c.number []).map fun r => s.ahead r.node)

def tellApart (seen : List Ahead) : Option (List KindSet) :=
  if seen.any (fun a => a.silent || a.kinds.isEmpty) then none
  else if (seen.map Ahead.kinds).Pairwise (fun a b => a.disjoint b = true) then
    some (seen.map Ahead.kinds)
  else none

def settledWays (beyond : Survey) : Node → Option (List KindSet)
  | .fork .repeated _ => none
  | .fork _ ways => tellApart (ways.map beyond.ahead)
  | _ => none

end Network

structure Chart where
  net : Network
  returns : Array (List Return)
  /-- The places inside a category to which a part of the same category returns. -/
  ownReturns : Array (List Nat)
  within : Survey
  settled : Array (Option (List KindSet))

namespace Chart

def ofNetwork (net : Network) : Chart :=
  let returns := (Category.all.map net.returns).toArray
  let beyond := Survey.ofNodes (net.beyondStep returns) net.nodes
  { net, returns
    ownReturns := (Category.all.map fun c =>
      ((net.returns c).map Return.node).filter (net.isWithin c)).toArray
    within := net.within
    settled := net.nodes.map (Network.settledWays beyond) }

def go : Chart := ofNetwork .ofProductions

def node (chart : Chart) (i : Nat) : Node := chart.net.node i

def returnsOf (chart : Chart) (c : Category) : List Return := chart.returns.getD c.number []

def ownReturnsOf (chart : Chart) (c : Category) : List Nat := chart.ownReturns.getD c.number []

def settledAt (chart : Chart) (i : Nat) : Option (List KindSet) := chart.settled.getD i none

end Chart

end GoFlow
