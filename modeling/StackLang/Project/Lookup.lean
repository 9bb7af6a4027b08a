import StackLang.Project.Config
import StackLang.Project.Workspace
/-!
The configuration of a project is found from a directory: the nearest one wins, whatever is in
it, and without one the usual settings hold.
-/

namespace StackLang

/-- A directory and all those above it, the nearest first. -/
def upward : Place → List Place
  | [] => [[]]
  | name :: rest => (upward rest).map (name :: ·) ++ [[]]

def placePath (place : Place) : String :=
  "/" ++ "/".intercalate place

/-- Settings that are refused, and the file that they stand in. -/
structure Config.Refusal where
  path : String
  problem : Config.Problem
  deriving DecidableEq

def Config.Refusal.message (r : Config.Refusal) : String :=
  r.problem.message r.path

/-- What a file system tells about paths: whether something is there, and the bytes of a file, if
they may be read. -/
structure Disk where
  /-- The directory in which relative paths begin. -/
  cwd : Place
  has : String → Bool
  read : String → Except FileError (List UInt8)

namespace Disk

def absolute (k : Disk) (path : String) : String :=
  Path.absolute (placePath k.cwd) path

/-- The place that a path names, without regard to what is there. -/
def namedPlace (k : Disk) (path : String) : Place :=
  Path.cleanParts (k.absolute path)

/-- Reads the configuration file of a directory. -/
def loadConfig (k : Disk) (dir : String) : Except Config.Refusal Config :=
  let path := Path.join dir Config.fileName
  let settings : Except Config.Problem Config :=
    match k.read path with
    | .error e => .error (.unreadable e.message)
    | .ok bytes =>
      match Text.exactText? bytes with
      | none => .error .malformed
      | some text => Config.parse text path
  settings.mapError (⟨path, ·⟩)

/-- Goes up from a directory until one has a configuration file, or until there is no other
directory above. -/
def searchConfig (k : Disk) (dir : String) : Except Config.Refusal Config :=
  if k.has (Path.join dir Config.fileName) then k.loadConfig dir
  else if Path.dir dir = dir then .ok .usual
  else k.searchConfig (Path.dir dir)
termination_by Path.size dir
decreasing_by exact Path.size_dir_lt ‹_›

def configFor (k : Disk) (dir : String) : Except Config.Refusal Config :=
  k.searchConfig (k.absolute dir)

end Disk

namespace Workspace

/-- A workspace in which every file may be read. -/
def disk (w : Workspace) : Disk :=
  { cwd := w.cwd, has := w.has, read := w.read }

def namedPlace (w : Workspace) (path : String) : Place :=
  w.disk.namedPlace path

def configFor (w : Workspace) (dir : String) : Except Config.Refusal Config :=
  w.disk.configFor dir

end Workspace

end StackLang
