import StackLang.Command.Run
/-!
The program on a real machine. The files that a command can ask for are copied into a workspace,
the command runs on that, and the files that it changed are written back. Other programs are not
started from here, so no tool is found.
-/

namespace StackLang.Main

/-- A file or directory of the machine, put into the workspace at the same place. -/
def load (w : Workspace) (place : Place) : IO Workspace := do
  let path := (← IO.currentDir) / placePath place
  if ← path.isDir then return w.addDirectory [] place
  if ← path.pathExists then
    try
      return w.addFile place (← IO.FS.readBinFile path).toList
    catch _ => return w
  return w

/-- Everything that a path can be about: what it names, and the configuration files on the way
up. -/
def loadAround (w : Workspace) (path : String) : IO Workspace := do
  let place := w.namedPlace path
  let w ← load w place.dropLast
  let w ← load w place
  (upward place).foldlM (fun w dir => load w (dir ++ [Config.fileName])) w

/-- The directory that the configuration chooses for the output of a source file. -/
def loadOutput (w : Workspace) (source : String) : IO Workspace :=
  match w.configFor (Path.dir source) with
  | .ok c => load w (w.namedPlace (c.outputPath source)).dropLast
  | .error _ => return w

/-- The paths that arguments may hold, also behind an equals sign. -/
def paths (args : List String) : List String :=
  "." :: args ++ args.map fun a => String.ofList ((a.toList.dropWhile (· ≠ '=')).drop 1)

def gather (args : List String) : IO Workspace := do
  let start : Workspace := { cwd := Path.cleanParts (← IO.currentDir).toString }
  let w ← (paths args).foldlM loadAround start
  args.foldlM loadOutput w

/-- Writes the files that differ between two workspaces. -/
def store (before after : Workspace) : IO Unit := do
  for (place, e) in after.entries.entries do
    match e with
    | .file bytes =>
      if before.get? place ≠ some e then
        IO.FS.writeBinFile (placePath place) ⟨bytes.toArray⟩
    | .directory => pure ()

end StackLang.Main

open StackLang in
/-- Runs a command and ends with its exit status. -/
def main (args : List String) : IO UInt32 := do
  let before ← Main.gather args
  let o := Command.run ⟨before, fun _ => none, "unknown"⟩ args
  Main.store before o.workspace
  (← IO.getStdout).write ⟨o.out.toArray⟩
  (← IO.getStderr).write ⟨o.err.toArray⟩
  return UInt32.ofNat o.status
