import StackLang.Toolchain.Tool
/-!
Which tools can be run, and what they say of themselves.
-/

namespace StackLang

/-- What is known of a tool. A version that is cut short need not be a text. -/
structure ToolReport where
  name : String
  version : List UInt8 := []
  works : Bool := false
  deriving DecidableEq, Repr

/-- The argument that makes a tool tell its version. -/
def versionFlag (tool : String) : String :=
  if Path.base tool = "nasm" then "-v" else "--version"

/-- The most bytes of a version that are shown whole. -/
def versionLength : Nat := 60

/-- The version in a tool's output: its first line without the blanks around it. A long line is cut
and ends in three dots. -/
def versionOf (output : String) : List UInt8 :=
  let line := Text.bytesOf (Text.strip (String.ofList (output.toList.takeWhile (· ≠ '\n'))))
  if versionLength < line.length then line.take (versionLength - 3) ++ Text.bytesOf "..."
  else line

def Toolbox.inspect (box : Toolbox) (w : Workspace) (name : String) : ToolReport × Workspace :=
  match box.run w ⟨name, [versionFlag name]⟩ with
  | (.error _, after) => ({ name }, after)
  | (.ok output, after) => ({ name, version := versionOf output, works := true }, after)

/-- Asks tools for their versions, one after the other. -/
def Toolbox.survey (box : Toolbox) : Workspace → List String → List ToolReport × Workspace
  | w, [] => ([], w)
  | w, name :: rest =>
    let (status, w) := box.inspect w name
    let (others, w) := box.survey w rest
    (status :: others, w)

end StackLang
