import GoFlow.Tree.Basic
import GoFlow.Grammar.Productions

/-!
Walks through a tree, depth first. A walk of a finished tree enters a node, visits its children and
leaves the node. A walk that takes place while the tree is read does not yet know that a category
will become the first child of a larger one of the same category, so it has left it by then.
-/

namespace GoFlow

inductive Event where
  | enter (head : Head) (children : List Tree)
  | leave (head : Head) (children : List Tree)
  | leaf (l : Leaf)

namespace Event

def name : Event → String
  | enter h _ => "enter" ++ h.category.title
  | leave h _ => "exit" ++ h.category.title
  | leaf l => (if l.isError then "E " else "T ") ++ l.text

end Event

def Category.isGrown (c : Category) : Bool :=
  match c.production with
  | .grown .. => true
  | .plain _ => false

namespace Tree

mutual

def walk : Tree → List Event
  | leaf l => [.leaf l]
  | node h ts => .enter h ts :: (walkAll ts ++ [.leave h ts])

def walkAll : List Tree → List Event
  | [] => []
  | t :: ts => t.walk ++ walkAll ts

end

mutual

/-- The events of a tree while it is read. A token taken as read is no event. -/
def walkReading : Tree → List Event
  | leaf l => match l with
    | .missing _ => []
    | _ => [.leaf l]
  | node h [] => [.enter h [], .leave h []]
  | node h (t :: ts) =>
      if h.category.isGrown && t.isOf h.category then
        t.walkReading ++ .enter h (t :: ts) :: (walkReadingAll ts ++ [.leave h (t :: ts)])
      else .enter h (t :: ts) :: (t.walkReading ++ walkReadingAll ts ++ [.leave h (t :: ts)])

def walkReadingAll : List Tree → List Event
  | [] => []
  | t :: ts => t.walkReading ++ walkReadingAll ts

end

def nodes (t : Tree) : List (Head × List Tree) :=
  t.walk.filterMap fun e => match e with
    | .enter h ts => some (h, ts)
    | _ => none

mutual

/-- The value of a visit: that of the last child. -/
def lastText : Tree → Option String
  | leaf l => some ((if l.isError then "!" else "") ++ l.text)
  | node _ ts => lastTextAll none ts

def lastTextAll : Option String → List Tree → Option String
  | last, [] => last
  | _, t :: ts => lastTextAll t.lastText ts

end

mutual

/-- A tree written with brackets around the children of each node. -/
def outline : Tree → String
  | leaf l => "\"" ++ l.text ++ "\""
  | node _ [] => "\"\""
  | node _ (t :: ts) => "[" ++ t.outline ++ outlineRest ts ++ "]"

def outlineRest : List Tree → String
  | [] => ""
  | t :: ts => " " ++ t.outline ++ outlineRest ts

end

def everySecond {α : Type} : List α → List α
  | [] => []
  | [a] => [a]
  | a :: _ :: as => a :: everySecond as

/-- The texts of the items of a list, whose separators stand between them. -/
def itemTexts (t : Tree) : List String := (everySecond t.children).map text

end Tree

end GoFlow
