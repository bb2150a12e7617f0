import GoFlow.Grammar.Category

/-!
Sample texts of a given size: programs made of small functions that branch and loop, and texts made
larger by repeating all but their first two lines.
-/

namespace GoFlow.Workload

def sampleHeader : String := "package main\n\nimport \"fmt\"\n\n"

/-- The function of a number. Branches, a loop and a single branch take turns. -/
def sampleFunction (i : Nat) : String :=
  match i % 3 with
  | 0 => "func f" ++ toString i ++ "() \x7b\n\tvar x int = 10\n\tvar y = \"error\"\n" ++
      "\tconst k int = 5\n\tx = 3\n\tif x > 0 \x7b\n" ++
      "\t\tif x == 10 \x7b\n\t\t\tx += 10\n\t\t\x7d else \x7b\n\t\t\tx -= 10\n\t\t\x7d\n\t\tx = 5\n"
      ++ "\t\tif x == 10 \x7b\n\t\t\tx += 10\n\t\t\x7d else \x7b\n\t\t\tx -= 10\n\t\t\x7d\n" ++
      "\t\x7d else \x7b\n\t\ty = \"ok\"\n\t\x7d\n\x7d\n"
  | 1 => "func g" ++ toString i ++ "() \x7b\n\tvar x int = 10\n\tx = 1\n\tfor cond \x7b\n" ++
      "\t\tx = 20\n\t\tif x == 10 \x7b\n\t\t\tx += 10\n\t\t\tx += 10\n\t\t\x7d else \x7b\n" ++
      "\t\t\tx -= 10\n\t\t\x7d\n\t\x7d\n\x7d\n"
  | _ => "func h" ++ toString i ++ "() \x7b\n\tvar x int = 10\n\tconst m = 1\n\tif x > 0 \x7b\n" ++
      "\t\tx = 1\n\t\x7d\n\tx = 2\n\x7d\n"

def sampleProgram (n : Nat) : String :=
  sampleHeader ++ String.join ((List.range n).map sampleFunction)

def afterLine : List Char → Option (List Char)
  | [] => none
  | '\n' :: cs => some cs
  | _ :: cs => afterLine cs

/-- A text with all but its first two lines repeated, `n` times in all. A text of fewer lines cannot
be repeated. -/
def enlarged (source : String) (n : Nat) : Option String :=
  if n ≤ 1 then some source
  else do
    let more ← afterLine (← afterLine source.toList)
    return source ++ String.join (List.replicate (n - 1) ("\n" ++ String.ofList more))

structure Snippet where
  category : Category
  text : String

def soleSnippets : List Snippet :=
  [⟨.sourceFile, "package p\n"⟩, ⟨.importDecl, "import \"fmt\""⟩, ⟨.constDecl, "const a = 1"⟩,
    ⟨.functionDecl, "func f() \x7b\x7d"⟩, ⟨.block, "\x7b\x7d"⟩]

def snippetLists : List (Category × List String) :=
  [(.expression, ["a + b*c", "x == 10 && !y", "f(1, 2)", "a || b"]),
    (.statement, ["x := 1", "return x, nil", "go f()", "defer g()"]),
    (.type, ["int", "[]string", "map[string]T", "List[int]"])]

/-- The first `n` of a list that begins anew when it ends. -/
def cycled {α : Type} (xs : List α) (n : Nat) : List α :=
  (List.range n).filterMap fun i => xs[i % xs.length]?

def snippets (n : Nat) : List Snippet :=
  soleSnippets ++ snippetLists.flatMap fun e => (cycled e.2 n).map fun s => ⟨e.1, s⟩

def literals : List String :=
  ["42", "0", "126", "127", "1000", "2147483646", "2147483647", "9_000", "0b1010", "0B1_1", "0o17",
    "0x1F", "0XFF_FF", "1.5", "1e10", ".5e3", "0x1p4", "\"text\"", "name", "'c'"]

def sampleGrammar (i : Nat) : String :=
  "grammar G" ++ toString i ++ ";\na : \x7bthis.open()\x7d? ID;\nb : \x7b!this.closed()\x7d? ID;\n"

def faultyProgram : String := "package main\nfunc f()\x7b if \x7d\n"

end GoFlow.Workload
