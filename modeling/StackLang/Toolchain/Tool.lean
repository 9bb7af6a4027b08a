import StackLang.Project.Workspace
import StackLang.Text.Blank
import StackLang.Text.Quoted
/-!
Tools that other programs provide. A run of a tool reads and changes the workspace and ends with
a status; zero means that all went well.
-/

namespace StackLang

/-- What a run of a tool leaves behind. `output` is all that it printed, and `stdout` the part of
it that is not meant as a complaint. -/
structure ToolRun where
  workspace : Workspace
  status : Nat := 0
  stdout : String := ""
  output : String := ""

/-- A tool, given the workspace and its arguments. -/
abbrev Tool := Workspace → List String → ToolRun

/-- The tools that can be found by name. -/
abbrev Toolbox := String → Option Tool

/-- A tool that is to be run, and its arguments. -/
structure Launch where
  tool : String
  args : List String
  deriving DecidableEq, Repr

/-- Why a run of a tool counts as failed. -/
inductive ToolReason where
  | notFound (name : String)
  | notStarted (e : FileError)
  | status (n : Nat)
  deriving DecidableEq, Repr

def ToolReason.text : ToolReason → String
  | .notFound name => "exec: " ++ Text.quote name ++ ": executable file not found in $PATH"
  | .notStarted e => e.message
  | .status n => "exit status " ++ toString n

/-- A run of a tool that failed, and what it printed. -/
structure ToolFailure where
  tool : String
  reason : ToolReason
  output : String := ""
  deriving DecidableEq, Repr

def ToolFailure.message (f : ToolFailure) : String :=
  let head := f.tool ++ " failed: " ++ f.reason.text
  let details := Text.strip f.output
  if details = "" then head else head ++ "\n" ++ details

namespace Toolbox

/-- Starts a tool. A name with a slash in it is a path, and no file of a workspace can be
executed. -/
def start (box : Toolbox) (w : Workspace) (l : Launch) : Except ToolReason ToolRun :=
  match box l.tool with
  | some tool => .ok (tool w l.args)
  | none =>
    if l.tool.toList.contains '/' then
      match w.look l.tool with
      | .ok _ => .error (.notStarted ⟨.launching, l.tool, .denied⟩)
      | .error t => .error (.notStarted ⟨.launching, l.tool, t⟩)
    else .error (.notFound l.tool)

/-- Runs a tool, and gives the workspace after it. -/
def run (box : Toolbox) (w : Workspace) (l : Launch) : Except ToolFailure String × Workspace :=
  match box.start w l with
  | .error reason => (.error ⟨l.tool, reason, ""⟩, w)
  | .ok r =>
    if r.status = 0 then (.ok r.stdout, r.workspace)
    else (.error ⟨l.tool, .status r.status, r.output⟩, r.workspace)

end Toolbox

end StackLang
