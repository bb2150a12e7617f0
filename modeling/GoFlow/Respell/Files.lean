import GoFlow.Folder
import GoFlow.Respell
import GoFlow.Text.Newline

/-!
Respelling the files of a folder. A file is first put aside under a longer name, and its respelled
text takes its place. Files are read part by part while the respelled lines are written, so when a
part cannot be read the lines before it have been written already.
-/

namespace GoFlow

/-- What was done, in order, and what stopped it. -/
structure Respelling where
  folder : Folder
  notes : List String
  error : Option FileError

namespace Respell

def bytes (bs : List UInt8) : List UInt8 × Option Text.ByteFault :=
  let read := Text.readInParts bs
  let ls := match read.fault with
    | none => Text.lines (Text.normalNewlines read.chars)
    | some _ => Text.linesSoFar read.chars
  (Text.toBytes (String.ofList (lines ls)), read.fault)

def file (folder : Folder) (path : String) : Respelling :=
  let altering := "Altering " ++ path
  match folder.find? path with
  | none => ⟨folder, [altering], some (.missing path)⟩
  | some f =>
      let aside := (folder.erase path).put (path ++ ".bak") f.bytes
      let (respelled, fault) := bytes f.bytes
      let folder := aside.put path respelled
      match fault with
      | none => ⟨folder, [altering, "Writing ..."], none⟩
      | some e => ⟨folder, [altering], some (.unreadable e)⟩

/-- Files one after another, until one cannot be read. -/
def files (folder : Folder) : List String → Respelling
  | [] => ⟨folder, [], none⟩
  | path :: paths =>
      let first := file folder path
      match first.error with
      | some _ => first
      | none =>
          let rest := files first.folder paths
          { rest with notes := first.notes ++ rest.notes }

def isGrammar (name : String) : Bool :=
  ".g4".toList.isSuffixOf name.toList && name.toList.head? != some '.' && !name.toList.contains '/'

def grammarPaths (folder : Folder) : List String :=
  (folder.filter fun f => isGrammar f.name).map fun f => "./" ++ f.name

/-- Requests one after another: a path, or all grammars of the folder. -/
def requests (folder : Folder) : List (Option String) → Respelling
  | [] => ⟨folder, [], none⟩
  | request :: more =>
      let first := files folder (match request with
        | some path => [path]
        | none => grammarPaths folder)
      match first.error with
      | some _ => first
      | none =>
          let rest := requests first.folder more
          { rest with notes := first.notes ++ rest.notes }

end Respell

end GoFlow
