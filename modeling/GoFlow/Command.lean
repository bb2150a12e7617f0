import GoFlow.Flow.Hook
import GoFlow.Folder
import GoFlow.Parse.Machine
import GoFlow.Text.Newline

/-!
The command: it reads a Go file, tells whether its syntax is right, and draws its control flow
graph. The graph is drawn whatever the syntax.
-/

namespace GoFlow

inductive CommandError where
  | noArgument
  | file (e : FileError)
  | stuck (m : Mishap)
  deriving DecidableEq, Repr, Inhabited

def CommandError.message : CommandError → String
  | .noArgument => "list index out of range"
  | .file e => e.message
  | .stuck m => m.message

/-- What a command wrote and drew. -/
structure CommandResult where
  output : String := ""
  diagnostics : String := ""
  drawings : Nat := 0
  /-- The graph when it was last drawn. -/
  drawn : Option String := none
  error : Option CommandError := none

namespace Command

def verdict (reports : List Report) : String :=
  if reports.any fun r => r.problem.isSyntactic then "Some syntax errors are present\n" else "Ok\n"

def diagnostic (r : Report) : String :=
  "line " ++ toString r.place.line ++ ":" ++ toString r.place.column ++ " " ++ r.message ++ "\n"

def onText (text : String) : CommandResult :=
  let p := Parse.ofText text .sourceFile 0
  let f := (Builder.new .late).follow p.tree
  let b := match f.mishap with
    | none => (f.builder.perform Move.draw).2
    | some _ => f.builder
  { output := verdict p.reports
    diagnostics := String.join (p.reports.map diagnostic)
    drawings := b.drawings
    drawn := b.drawn.map (Dot.render "cfg")
    error := f.mishap.map .stuck }

def onBytes (bs : List UInt8) : CommandResult :=
  match Text.ofBytes bs with
  | .ok cs => onText (String.ofList (Text.normalNewlines cs))
  | .error f => { error := some (.file (.unreadable f)) }

/-- The command with its arguments. Only the first one counts. -/
def run (arguments : List String) (folder : Folder) : CommandResult :=
  match arguments with
  | [] => { error := some .noArgument }
  | path :: _ => match folder.find? path with
    | some f => onBytes f.bytes
    | none => { error := some (.file (.missing path)) }

end Command

end GoFlow
