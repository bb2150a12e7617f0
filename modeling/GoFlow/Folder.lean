import GoFlow.Text.Bytes

/-!
Files of one folder, by name. A path may lead to a file through the folder itself; what is in other
folders is not known.
-/

namespace GoFlow

structure File where
  name : String
  bytes : List UInt8
  deriving DecidableEq, Repr, Inhabited

abbrev Folder := List File

inductive FileError where
  | missing (path : String)
  | unreadable (fault : Text.ByteFault)
  deriving DecidableEq, Repr, Inhabited

def FileError.message : FileError → String
  | .missing path => "[Errno 2] No such file or directory: " ++ Text.quoted path
  | .unreadable f => f.message

namespace Folder

/-- The name to which a path leads: steps that stay in the folder are left out. -/
def nameOf (path : String) : String :=
  let steps := (path.splitOn "/").filter fun s => s != "."
  match steps with
  | "" :: _ => path
  | _ => "/".intercalate (steps.filter fun s => s != "")

def find? (folder : Folder) (path : String) : Option File :=
  List.find? (fun f => f.name == nameOf path) folder

def erase (folder : Folder) (path : String) : Folder :=
  folder.filter fun f => f.name != nameOf path

/-- Puts a file into the folder in place of one with the same name. -/
def put (folder : Folder) (path : String) (bytes : List UInt8) : Folder :=
  folder.erase path ++ [⟨nameOf path, bytes⟩]

end Folder

end GoFlow
