import StackLang.Command.Options
import StackLang.Listing.Cbor
import StackLang.Listing.Json
import StackLang.Listing.Tokens
import StackLang.Project.Lookup
import StackLang.Toolchain.Build
import StackLang.Toolchain.Survey
/-!
The command line: what the arguments ask for, and what comes of it. A command takes the workspace
and the tools as they are, and gives an exit status, what is printed, and the workspace after it.
-/

namespace StackLang.Command

def version : String := "0.1.0-dev"

/-- What a command finds. `madeWith` is the version of the language that the compiler was made
with. -/
structure Host where
  workspace : Workspace
  tools : Toolbox
  madeWith : String

/-- What comes of a command. -/
structure Outcome where
  status : Nat := 0
  out : List UInt8 := []
  err : List UInt8 := []
  workspace : Workspace

namespace Outcome

def print (o : Outcome) (s : String) : Outcome :=
  { o with out := o.out ++ Text.bytesOf s }

def printBytes (o : Outcome) (bytes : List UInt8) : Outcome :=
  { o with out := o.out ++ bytes }

def tell (o : Outcome) (s : String) : Outcome :=
  { o with err := o.err ++ Text.bytesOf s }

def exit (o : Outcome) (status : Nat) : Outcome :=
  { o with status }

/-- Ends with a message because something went wrong. -/
def fail (o : Outcome) (message : String) : Outcome :=
  (o.tell (message ++ "\n")).exit 1

/-- Ends with a message because of the arguments. -/
def misuse (o : Outcome) (message : String) : Outcome :=
  (o.tell message).exit 2

end Outcome

def usage : String :=
  "Stapel Compiler " ++ version ++ "\n\n" ++
  "Usage: stapel <command> [options]\n\n" ++
  "Commands:\n" ++
  "  build [options] <file.spl>  compile a program to an executable\n" ++
  "  doctor                      check the assembler and linker\n" ++
  "  lsp                         run the language server on stdio\n" ++
  "  version                     print version\n" ++
  "  help                        show this help\n\n" ++
  "Run 'stapel build -h' for build options.\n"

/-- A failure of compilation as it is printed. Diagnostics of the program that is compiled stand
for themselves. -/
def failureText (f : Failure) : String :=
  match f with
  | .source _ | .cycle _ | .generation .. => f.message
  | _ => "error: " ++ f.message

def buildFailureText (f : BuildFailure) : String :=
  match f with
  | .compile f => failureText f
  | .tool t => "toolchain error: " ++ t.message
  | _ => "error: " ++ f.message

/-- The source text that a path leads to. A directory can be opened but not read. -/
def openSource (w : Workspace) (path : String) : Except FileError Source.Scanner :=
  match w.openEntry path with
  | .error e => .error e
  | .ok (.file bytes) => .ok (.ofBytes path bytes)
  | .ok .directory => .ok (.unreadable path (Workspace.directoryError path).message)

def showTokens (w : Workspace) (path : String) : Outcome :=
  let o : Outcome := { workspace := w }
  match openSource w path with
  | .error e => o.fail ("error: " ++ e.message)
  | .ok scanner =>
    match scanner.table with
    | (table, none) => o.print table
    | (table, some e) => (o.print table).fail e.message

/-- The forms in which a program can be listed. -/
inductive ListingFormat where
  | outline
  | json
  | cbor
  deriving DecidableEq, Repr

def ListingFormat.ofName? (name : String) : Option ListingFormat :=
  if name = "text" then some .outline
  else if name = "json" then some .json
  else if name = "cbor" then some .cbor
  else none

def ListingFormat.list (f : ListingFormat) (p : Program) : List UInt8 :=
  match f with
  | .outline => Text.bytesOf p.outline
  | .json => (p.tree?.map fun t => Text.bytesOf (Json.document t)).getD []
  | .cbor => (p.tree?.map Cbor.render).getD []

def showProgram (w : Workspace) (format : ListingFormat) (path : String) : Outcome :=
  let o : Outcome := { workspace := w }
  match openSource w path with
  | .error e => o.fail ("error: " ++ e.message)
  | .ok scanner =>
    match scanner.all >>= fun tokens => (Source.parseTokens path tokens).result with
    | .error e => o.fail e.message
    | .ok p => o.printBytes (format.list p)

def showAssembly (w : Workspace) (s : CompileSettings) (path : String) : Outcome :=
  let o : Outcome := { workspace := w }
  match openSource w path with
  | .error e => o.fail ("error: " ++ e.message)
  | .ok scanner =>
    match scanner.all with
    | .error e => o.fail e.message
    | .ok tokens =>
      match compileLexemes s path tokens with
      | (.error f, listings) => (o.tell listings).fail (failureText f)
      | (.ok c, listings) => (o.tell listings).print c.assembly

/-- The settings of a compilation by configuration and options. -/
def compileSettings (c : Config) (o : Options) : CompileSettings where
  skipInline := o.noInline || !c.expandInlines
  passes := { listBefore := o.dumpBefore, listAfter := o.dumpAfter, verify := o.verify }
  target := c.target

/-- The settings of a build by configuration and options. -/
def buildSettings (c : Config) (o : Options) (path : String) : BuildSettings where
  source := path
  output := if o.output = "" then c.outputPath path else o.output
  assembler := c.assembler
  linker := c.linker
  keepAsm := o.keepAsm || c.keepAsm
  compile := compileSettings c o

def makeExecutable (h : Host) (s : BuildSettings) : Outcome :=
  let r := h.tools.build h.workspace s
  let o := ({ workspace := r.workspace } : Outcome).tell r.listings
  match r.result with
  | .error f => o.fail (buildFailureText f)
  | .ok none => o
  | .ok (some path) => o.tell ("assembly kept in " ++ path ++ "\n")

/-- Does what the options ask for with a source file. Of several wishes the first one counts:
tokens, program, assembly, executable. -/
def buildFile (h : Host) (o : Options) (format : ListingFormat) (path : String) : Outcome :=
  match h.workspace.configFor (Path.dir path) with
  | .error r => ({ workspace := h.workspace } : Outcome).fail ("error: " ++ r.message)
  | .ok c =>
    if o.emitTokens then showTokens h.workspace path
    else if o.emitAst then showProgram h.workspace format path
    else if o.emitAsm then showAssembly h.workspace (compileSettings c o) path
    else makeExecutable h (buildSettings c o path)

def build (h : Host) (args : List String) : Outcome :=
  let start : Outcome := { workspace := h.workspace }
  match readFlags {} args with
  | .error fault =>
    match fault.text? with
    | none => start.tell buildUsage
    | some text => start.misuse (text ++ "\n" ++ buildUsage)
  | .ok (o, [path]) =>
    match ListingFormat.ofName? o.astFormat with
    | some format => buildFile h o format path
    | none =>
      start.misuse ("error: unknown AST format " ++ Text.quote o.astFormat ++
        " (want text, json or cbor)\n")
  | .ok _ =>
    start.misuse ("error: expected exactly one input file\n" ++
      "usage: stapel build [options] <file.spl>\n")

def statusLine (s : ToolReport) : List UInt8 :=
  Text.bytesOf (padRight 8 (s.name ++ ":") ++ " ") ++ s.version ++
    Text.bytesOf (if s.works then " ✓\n" else " ✗ (not found)\n")

def doctor (h : Host) : Outcome :=
  let start := ({ workspace := h.workspace } : Outcome).print
    "Stapel Toolchain Doctor\n=======================\n\n"
  match h.workspace.configFor "." with
  | .error r => start.fail ("error: " ++ r.message)
  | .ok c =>
    let (statuses, after) := h.tools.survey h.workspace [c.assembler, c.linker]
    let o := ({ start with workspace := after }.print ("Go:      " ++ h.madeWith ++ " ✓\n")).print
      ("Target:  " ++ Target.platform ++ " " ++ Target.objectFormat ++ " ✓\n")
    let o := (o.printBytes (statuses.flatMap statusLine)).print "\n"
    if statuses.all ToolReport.works then o.print "All required tools available!\n"
    else
      (o.print ("Some required tools are missing.\n" ++
        "Install nasm and binutils, or set [build] assembler/linker in stapel.toml.\n")).exit 1

/-- What the arguments ask for. -/
inductive Request where
  | nothing
  | build (args : List String)
  | doctor
  | serve
  | version
  | help
  | unknown (word : String)
  deriving DecidableEq, Repr

def Request.ofArgs : List String → Request
  | [] => .nothing
  | word :: args =>
    if word = "build" then .build args
    else if word = "doctor" then .doctor
    else if word = "lsp" then .serve
    else if ["version", "-version", "--version"].contains word then .version
    else if ["help", "-h", "-help", "--help"].contains word then .help
    else .unknown word

/-- Does what the arguments ask for. Serving an editor needs a connection, which this command does
not have. -/
def run (h : Host) (args : List String) : Outcome :=
  let start : Outcome := { workspace := h.workspace }
  match Request.ofArgs args with
  | .nothing => start.misuse usage
  | .build args => build h args
  | .doctor => doctor h
  | .serve => start.fail "error: no connection"
  | .version =>
    start.print ("stapel version " ++ version ++ "\n" ++ "go version " ++ h.madeWith ++ "\n")
  | .help => start.print usage
  | .unknown word => start.misuse ("stapel: unknown command " ++ Text.quote word ++ "\n\n" ++ usage)

end StackLang.Command
