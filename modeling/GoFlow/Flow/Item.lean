import GoFlow.Text.Quoted

/-!
Entries of a builder's stacks: a name, or a group of entries that stand side by side.
-/

namespace GoFlow

inductive Item where
  | name (s : String)
  | group (items : List Item)
  deriving Repr

/-- What stops a builder. -/
inductive Mishap where
  /-- An entry is taken from a stack that has none. -/
  | emptyStack
  /-- A list is shorter than required. -/
  | outOfRange
  /-- A name is shorter than required. -/
  | shortName
  /-- No node has the name. -/
  | unknownNode (name : String)
  /-- A part of the tree is absent, of which something is asked. -/
  | noPart (asked : String)
  /-- A tree has no parts at all. -/
  | noParts
  /-- A group stands where a name is required, of which something is asked. -/
  | notAName (asked : String)
  deriving DecidableEq, Repr, Inhabited

namespace Mishap

def message : Mishap → String
  | emptyStack => "pop from empty list"
  | outOfRange => "list index out of range"
  | shortName => "string index out of range"
  | unknownNode n => Text.quoted n ++ " is not in list"
  | noPart asked => "'NoneType' object has no attribute '" ++ asked ++ "'"
  | noParts => "object of type 'NoneType' has no len()"
  | notAName asked => "'list' object has no attribute '" ++ asked ++ "'"

end Mishap

namespace Item

instance : Inhabited Item := ⟨.name ""⟩

mutual

def same : Item → Item → Bool
  | name s, name t => s == t
  | group xs, group ys => sameAll xs ys
  | _, _ => false

def sameAll : List Item → List Item → Bool
  | [], [] => true
  | x :: xs, y :: ys => x.same y && sameAll xs ys
  | _, _ => false

end

mutual

theorem same_iff : ∀ x y : Item, x.same y = true ↔ x = y
  | name s, name t => by simp [same]
  | name _, group _ => by simp [same]
  | group _, name _ => by simp [same]
  | group xs, group ys => by simp [same, sameAll_iff xs ys]

theorem sameAll_iff : ∀ xs ys : List Item, sameAll xs ys = true ↔ xs = ys
  | [], [] => by simp [sameAll]
  | [], _ :: _ => by simp [sameAll]
  | _ :: _, [] => by simp [sameAll]
  | x :: xs, y :: ys => by simp [sameAll, same_iff x y, sameAll_iff xs ys]

end

instance : DecidableEq Item := fun x y => decidable_of_iff _ (same_iff x y)

def isGroup : Item → Bool
  | name _ => false
  | group _ => true

def members : Item → List Item
  | name _ => []
  | group xs => xs

mutual

def quoted : Item → String
  | name s => Text.quoted s
  | group [] => "[]"
  | group (x :: xs) => "[" ++ x.quoted ++ quotedRest xs ++ "]"

def quotedRest : List Item → String
  | [] => ""
  | x :: xs => ", " ++ x.quoted ++ quotedRest xs

end

/-- The entry within a text: a name as it is, a group in brackets. -/
def shown : Item → String
  | name s => s
  | group xs => (group xs).quoted

/-- The members of a group, or the characters of a name. -/
def units : Item → List Item
  | name s => s.toList.map fun c => name c.toString
  | group xs => xs

def unit (x : Item) (i : Nat) : Except Mishap Item :=
  match x.units[i]? with
  | some u => .ok u
  | none => .error (if x.isGroup then .outOfRange else .shortName)

/-- The first unit is the name. -/
def startsWith (x : Item) (s : String) : Except Mishap Bool :=
  (x.unit 0).map (· == name s)

/-- The entry with a direction, unless it has one. -/
def directed (x : Item) (direction : String) : Item :=
  match x with
  | name s => if s.toList.contains ':' then name s else name (s ++ ":" ++ direction)
  | group xs =>
      if xs.contains (name ":") then group xs else name ((group xs).quoted ++ ":" ++ direction)

/-- The name up to its first colon. -/
def nodeName : Item → Except Mishap String
  | name s => .ok (String.ofList (s.toList.takeWhile (· != ':')))
  | group _ => .error (.notAName "split")

mutual

def names : Item → List String
  | name s => [s]
  | group xs => namesAll xs

def namesAll : List Item → List String
  | [] => []
  | x :: xs => x.names ++ namesAll xs

end

/-- The entry is on top of a stack, by itself or as a member of a group. -/
def isTop (x : Item) : List Item → Bool
  | [] => false
  | last :: _ => last.members.contains x || last == x

def addTo (x : Item) (stack : List Item) : List Item := if x.isTop stack then stack else x :: stack

end Item

end GoFlow
