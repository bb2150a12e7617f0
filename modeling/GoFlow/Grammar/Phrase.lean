import GoFlow.Grammar.Category
import GoFlow.Token.Kind

/-!
Phrases of a grammar in extended Backus-Naur form. A phrase may give a name to a token or to a part
it holds. A category is either a choice of phrases or is grown by suffixes: it begins with one of
its bases, and what has been read so far then becomes the first part of a larger one.
-/

namespace GoFlow

/-- Names that a phrase gives to its parts. -/
inductive Label where
  | packageName | importAlias | channel | unaryOp | mulOp | addOp | relOp | recvExpr | initStmt
  | postStmt | tag
  deriving DecidableEq, Repr, Inhabited

def Label.name : Label → String
  | .packageName => "packageName"
  | .importAlias => "alias"
  | .channel => "channel"
  | .unaryOp => "unary_op"
  | .mulOp => "mul_op"
  | .addOp => "add_op"
  | .relOp => "rel_op"
  | .recvExpr => "recvExpr"
  | .initStmt => "initStmt"
  | .postStmt => "postStmt"
  | .tag => "tag"

inductive Phrase where
  /-- One token of the kind. -/
  | token (label : Option Label) (kind : Kind)
  /-- One token of any of the kinds. -/
  | oneOf (label : Option Label) (kinds : List Kind)
  /-- A part of the category; suffixes below `level` are left to the phrase around it. -/
  | part (label : Option Label) (category : Category) (level : Nat)
  /-- Nothing, if a closing bracket comes next. -/
  | bracketAhead
  | seq (phrases : List Phrase)
  | choice (phrases : List Phrase)
  /-- One of the phrases, or nothing. -/
  | maybe (phrases : List Phrase)
  /-- The phrase, any number of times. -/
  | many (phrase : Phrase)
  /-- The phrase, at least once. -/
  | oneOrMore (phrase : Phrase)
  deriving Inhabited

inductive Production where
  | plain (alternatives : List Phrase)
  /-- The suffixes are given with their levels: one that binds tighter has a higher level. -/
  | grown (bases : List Phrase) (suffixes : List (Nat × Phrase))
  deriving Inhabited

end GoFlow
