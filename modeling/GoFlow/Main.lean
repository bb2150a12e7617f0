import GoFlow.Command

/-!
The command line. The last drawing is written as DOT text.
-/

def main (arguments : List String) : IO UInt32 := do
  let result ← match arguments with
    | path :: _ =>
        try
          let bytes ← IO.FS.readBinFile path
          pure (GoFlow.Command.run arguments [⟨GoFlow.Folder.nameOf path, bytes.toList⟩])
        catch _ => pure (GoFlow.Command.run arguments [])
    | [] => pure (GoFlow.Command.run [] [])
  IO.eprint result.diagnostics
  IO.print result.output
  match result.drawn with
  | some dot => IO.FS.writeFile "cfg.gv" dot
  | none => pure ()
  match result.error with
  | some e => do
      IO.eprintln e.message
      return 1
  | none => return 0
