import StackLang.Compile
import StackLang.Project.Config
import StackLang.Toolchain.Tool
/-!
Executables built from source files. The assembler and the linker do the last two steps; what they
need in between stands in a directory of its own, which is gone afterwards.
-/

namespace StackLang

/-- What a build is asked for. An empty text stands for the usual choice. -/
structure BuildSettings where
  source : String
  output : String := ""
  assembler : String := ""
  linker : String := ""
  keepAsm : Bool := false
  compile : CompileSettings := {}

/-- Why there is no executable. -/
inductive BuildFailure where
  | wrongEnding (source : String)
  | unreadable (e : FileError)
  | compile (f : Failure)
  | unwritable (e : FileError)
  | tool (f : ToolFailure)

def BuildFailure.message : BuildFailure → String
  | .wrongEnding source =>
    source ++ ": source file must have the " ++ Config.sourceEnding ++ " extension"
  | .unreadable e => "cannot read source: " ++ e.message
  | .compile f => f.message
  | .unwritable e => "cannot write assembly: " ++ e.message
  | .tool f => f.message

/-- How a build ended: the path of the assembly if that was kept, or the failure; the listings made
on the way, the tools that were run, and the workspace. -/
structure BuildReport where
  result : Except BuildFailure (Option String)
  listings : String := ""
  launches : List Launch := []
  workspace : Workspace

namespace BuildSettings

def executable (s : BuildSettings) : String :=
  if s.output = "" then Path.dropEnding s.source Config.sourceEnding else s.output

def keptAssembly (s : BuildSettings) : String :=
  s.executable ++ ".asm"

/-- How the names of directories for files made on the way begin. -/
def scratchStem : String := "stapel-"

/-- The directory for the files made on the way. No path that the tools write to leads through
it. -/
def scratch (s : BuildSettings) (w : Workspace) : String :=
  w.freshName scratchStem (Path.parts s.executable ++ Path.parts s.keptAssembly)

/-- The path of a file made on the way, by its ending. -/
def scratchFile (s : BuildSettings) (scratch ending : String) : String :=
  "/" ++ scratch ++ "/" ++ (Path.dropEnding (Path.base s.source) Config.sourceEnding ++ ending)

def assemblyPath (s : BuildSettings) (scratch : String) : String :=
  if s.keepAsm then s.keptAssembly else s.scratchFile scratch ".asm"

def objectPath (s : BuildSettings) (scratch : String) : String :=
  s.scratchFile scratch ".o"

def assembling (s : BuildSettings) (scratch : String) : Launch where
  tool := if s.assembler = "" then Config.usual.assembler else s.assembler
  args := ["-f", Target.objectFormat, "-o", s.objectPath scratch, s.assemblyPath scratch]

def linking (s : BuildSettings) (scratch : String) : Launch where
  tool := if s.linker = "" then Config.usual.linker else s.linker
  args := ["-o", s.executable, s.objectPath scratch]

/-- The workspace that the assembler finds: with the directory for the files made on the way, and
with the assembly. -/
def prepare (s : BuildSettings) (w : Workspace) (assembly : String) : Except FileError Workspace :=
  (w.put [s.scratch w] .directory).write (s.assemblyPath (s.scratch w)) (Text.bytesOf assembly)

end BuildSettings

def Toolbox.assemble (box : Toolbox) (w : Workspace) (s : BuildSettings) (assembly : String) :
    BuildReport :=
  let scratch := s.scratch w
  match s.prepare w assembly with
  | .error e => { result := .error (.unwritable e), workspace := w }
  | .ok ready =>
    let assembling := s.assembling scratch
    match box.run ready assembling with
    | (.error f, after) =>
      { result := .error (.tool f), launches := [assembling], workspace := after.remove [scratch] }
    | (.ok _, assembled) =>
      let linking := s.linking scratch
      let launches := [assembling, linking]
      match box.run assembled linking with
      | (.error f, after) =>
        { result := .error (.tool f), launches, workspace := after.remove [scratch] }
      | (.ok _, after) =>
        { result := .ok (if s.keepAsm then some s.keptAssembly else none), launches,
          workspace := after.remove [scratch] }

def Toolbox.build (box : Toolbox) (w : Workspace) (s : BuildSettings) : BuildReport :=
  if Path.ext s.source ≠ Config.sourceEnding then
    { result := .error (.wrongEnding s.source), workspace := w }
  else
    match w.read s.source with
    | .error e => { result := .error (.unreadable e), workspace := w }
    | .ok bytes =>
      match StackLang.compile s.compile s.source bytes with
      | (.error f, listings) => { result := .error (.compile f), listings, workspace := w }
      | (.ok c, listings) => { box.assemble w s c.assembly with listings }

end StackLang
