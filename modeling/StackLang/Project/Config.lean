import StackLang.Project.Path
import StackLang.Target.Generate
import StackLang.Toml.Document
/-!
Settings of a project, read from its configuration file. Keys match settings without regard to
case, a key that matches none is an error, and so is a value that cannot work.
-/

namespace StackLang

/-- The settings of a project. `path` is the file they were read from, empty for the usual ones. -/
structure Config where
  assembler : String := ""
  linker : String := ""
  output : String := ""
  keepAsm : Bool := false
  depth : Int := 0
  comments : Bool := false
  expandInlines : Bool := false
  verbosity : Int := 0
  path : String := ""
  deriving DecidableEq, Repr

namespace Config

def fileName : String := "stapel.toml"

def sourceEnding : String := ".spl"

/-- The settings of a project without a configuration file. -/
def usual : Config :=
  { assembler := "nasm", linker := "ld", depth := Target.defaultDepth, comments := true,
    expandInlines := true }

/-- Why settings are refused. -/
inductive Problem where
  | malformed
  | unknownKeys (keys : List Toml.Key)
  | depthNotPositive (n : Int)
  | depthTooLarge (n : Int)
  | noAssembler
  | noLinker
  | negativeVerbosity (n : Int)
  | unreadable (reason : String)
  deriving DecidableEq, Repr

def Problem.text : Problem → String
  | .malformed => "toml: malformed document"
  | .unknownKeys keys => "unknown keys: " ++ ", ".intercalate (keys.map Toml.showKey)
  | .depthNotPositive n => "codegen.return-stack-depth must be positive, got " ++ toString n
  | .depthTooLarge n =>
    "codegen.return-stack-depth must be at most " ++ toString Target.maxDepth ++ ", got " ++
      toString n
  | .noAssembler => "build.assembler must not be empty"
  | .noLinker => "build.linker must not be empty"
  | .negativeVerbosity n => "log.verbosity must not be negative, got " ++ toString n
  | .unreadable reason => reason

/-- A problem of the configuration file at a path. -/
def Problem.message (path : String) (p : Problem) : String :=
  match p with
  | .malformed => "parse error in " ++ path ++ ": " ++ p.text
  | .unreadable _ => "cannot read " ++ path ++ ": " ++ p.text
  | _ => path ++ ": " ++ p.text

/-- Settings that can work. -/
def check (c : Config) : Except Problem Unit :=
  if c.depth ≤ 0 then .error (.depthNotPositive c.depth)
  else if Target.maxDepth < c.depth then .error (.depthTooLarge c.depth)
  else if c.assembler = "" then .error .noAssembler
  else if c.linker = "" then .error .noLinker
  else if c.verbosity < 0 then .error (.negativeVerbosity c.verbosity)
  else .ok ()

/-- A letter without its case. Two letters outside ASCII are further cases of `k` and `s`. -/
def foldCase (c : Char) : Char :=
  if c.toNat = 0x212a then 'k'
  else if c.toNat = 0x17f then 's'
  else c.toLower

def sameName (a b : String) : Bool :=
  a.toList.map foldCase == b.toList.map foldCase

/-- How a value becomes a setting, if its type is right. -/
abbrev Setter := Toml.Value → Config → Option Config

def textSetter (f : String → Config → Config) : Setter
  | .text s, c => some (f s c)
  | _, _ => none

def flagSetter (f : Bool → Config → Config) : Setter
  | .boolean b, c => some (f b c)
  | _, _ => none

def numberSetter (f : Int → Config → Config) : Setter
  | .integer n, c => some (f n c)
  | _, _ => none

def settings : List (String × List (String × Setter)) :=
  [("build",
    [("assembler", textSetter fun s c => { c with assembler := s }),
     ("linker", textSetter fun s c => { c with linker := s }),
     ("output", textSetter fun s c => { c with output := s }),
     ("keep-asm", flagSetter fun b c => { c with keepAsm := b })]),
   ("codegen",
    [("return-stack-depth", numberSetter fun n c => { c with depth := n }),
     ("comments", flagSetter fun b c => { c with comments := b }),
     ("expand-inlines", flagSetter fun b c => { c with expandInlines := b })]),
   ("log",
    [("verbosity", numberSetter fun n c => { c with verbosity := n })])]

/-- What a name stands for: an exact match, or else one that differs in case only. -/
def find? {α : Type} (names : List (String × α)) (key : String) : Option α :=
  (names.lookup key).or ((names.find? fun e => sameName e.1 key).map Prod.snd)

/-- Settings with the entries of a table, and the keys that were understood. -/
def readTable? (table : String) (setters : List (String × Setter)) :
    Toml.Entries → Config × List Toml.Key → Option (Config × List Toml.Key)
  | [], acc => some acc
  | .mk key value :: rest, (c, known) =>
    match find? setters key with
    | none => readTable? table setters rest (c, known)
    | some set =>
      match set value c with
      | none => none
      | some c => readTable? table setters rest (c, [table, key] :: known)

/-- Settings with the tables of a document, and the keys that were understood. -/
def readTables? : Toml.Entries → Config × List Toml.Key → Option (Config × List Toml.Key)
  | [], acc => some acc
  | .mk key value :: rest, (c, known) =>
    match find? settings key with
    | none => readTables? rest (c, known)
    | some setters =>
      match value with
      | .table entries =>
        match readTable? key setters entries (c, [key] :: known) with
        | none => none
        | some acc => readTables? rest acc
      | _ => none

def parse (text path : String) : Except Problem Config :=
  match Toml.parse? text with
  | none => .error .malformed
  | some document =>
    match readTables? document.root (usual, []) with
    | none => .error .malformed
    | some (c, known) =>
      let unknown := document.keys.filter fun k => !known.contains k
      if unknown = [] then
        let c := { c with path }
        c.check.map fun _ => c
      else .error (.unknownKeys unknown)

/-- Where the executable of a source file goes: to the configured place, which counts from the
directory of the configuration file, or beside the source. -/
def outputPath (c : Config) (source : String) : String :=
  if c.output = "" then Path.dropEnding source sourceEnding
  else if c.path ≠ "" ∧ !Path.isAbs c.output then Path.join (Path.dir c.path) c.output
  else c.output

def target (c : Config) : Target.Settings :=
  { depth := c.depth, comments := c.comments }

end Config

end StackLang
