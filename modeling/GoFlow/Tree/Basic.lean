import GoFlow.Grammar.Phrase
import GoFlow.Token.Basic

/-!
Syntax trees. A tree keeps every token that was read, also those skipped in recovery, and stands
for tokens that were missing; a node remembers the fault that ended it, if one did.
-/

namespace GoFlow

/-- Why a category was given up. -/
inductive Fault where
  /-- No way of a fork admits the coming tokens. -/
  | noWay
  /-- A token is not one of those expected. -/
  | mismatch
  /-- A condition does not hold. -/
  | condition
  deriving DecidableEq, Repr, Inhabited

inductive Leaf where
  | token (t : Token)
  /-- A token skipped in recovery. -/
  | stray (t : Token)
  /-- A token that was missing and is taken as read. -/
  | missing (kind : Kind)
  deriving DecidableEq, Repr, Inhabited

namespace Leaf

def kind : Leaf → Kind
  | token t | stray t => t.kind
  | missing k => k

def text : Leaf → String
  | token t | stray t => t.text
  | missing k => "<missing " ++ k.displayInserted ++ ">"

/-- The leaf is a sign of an error. -/
def isError : Leaf → Bool
  | token _ => false
  | stray _ | missing _ => true

def token? : Leaf → Option Token
  | token t | stray t => some t
  | missing _ => none

end Leaf

/-- What a node is of, apart from its children. -/
structure Head where
  category : Category
  fault : Option Fault
  /-- The texts of the named parts. -/
  labels : List (Label × String)
  deriving DecidableEq, Repr, Inhabited

inductive Tree where
  | leaf (l : Leaf)
  | node (head : Head) (children : List Tree)
  deriving Repr

instance : Inhabited Tree := ⟨.leaf default⟩

namespace Tree

mutual

/-- The text of a tree is that of its leaves; hidden tokens are not in it. -/
def text : Tree → String
  | leaf l => l.text
  | node _ ts => textAll ts

def textAll : List Tree → String
  | [] => ""
  | t :: ts => t.text ++ textAll ts

end

mutual

def leaves : Tree → List Leaf
  | leaf l => [l]
  | node _ ts => leavesAll ts

def leavesAll : List Tree → List Leaf
  | [] => []
  | t :: ts => t.leaves ++ leavesAll ts

end

def children : Tree → List Tree
  | leaf _ => []
  | node _ ts => ts

def category? : Tree → Option Category
  | leaf _ => none
  | node h _ => some h.category

def isOf (c : Category) (t : Tree) : Bool := t.category? == some c

end Tree

end GoFlow
