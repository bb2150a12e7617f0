import GoFlow.Dot.Quoting

/-!
The statements of a graph and the DOT text they make up, one line for each.
-/

namespace GoFlow.Dot

inductive Statement where
  | setting (key value : String)
  | node (name label shape : String)
  | edge (tail head : String) (attributes : List (String × String))
  deriving DecidableEq, Repr, Inhabited

/-- Attributes are listed by name, the label first. -/
def attributeOrder (a b : String × String) : Bool :=
  a.1 == "label" || (b.1 != "label" && decide (a.1 ≤ b.1))

def assignment (a : String × String) : String := quote a.1 ++ "=" ++ quote a.2

namespace Statement

def line : Statement → String
  | setting key value => "\t" ++ assignment (key, value) ++ "\n"
  | node name label shape =>
      "\t" ++ quote name ++ " [label=" ++ quote label ++ " shape=" ++ quote shape ++ "]\n"
  | edge tail head attributes =>
      let list := " ".intercalate ((attributes.mergeSort attributeOrder).map assignment)
      "\t" ++ quoteEnd tail ++ " -> " ++ quoteEnd head ++
        (if attributes.isEmpty then "" else " [" ++ list ++ "]") ++ "\n"

end Statement

def render (name : String) (body : List Statement) : String :=
  "digraph " ++ quote name ++ " \x7b\n" ++ String.join (body.map Statement.line) ++ "\x7d\n"

end GoFlow.Dot
