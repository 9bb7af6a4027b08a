import StackLang.Command.Integer
import StackLang.Text.Quoted
/-!
Options of the build command, and the flags that set them. Flags stand before the other
arguments; one or two dashes mean the same, and two dashes alone end the flags.
-/

namespace StackLang.Command

/-- What the build command can be asked for. -/
structure Options where
  astFormat : String := "text"
  dumpAfter : String := ""
  dumpBefore : String := ""
  emitAsm : Bool := false
  emitAst : Bool := false
  emitTokens : Bool := false
  keepAsm : Bool := false
  noInline : Bool := false
  output : String := ""
  verbosity : Option Int := none
  verify : Bool := false
  deriving DecidableEq, Repr

/-- What a flag sets. -/
inductive Setter where
  | switch (set : Bool → Options → Options)
  | text (set : String → Options → Options)
  | number (set : Int → Options → Options)

/-- A flag: its name, what it sets, what it is for, and the text that holds without it. -/
structure Flag where
  name : String
  setter : Setter
  purpose : String
  usual : String := ""

/-- The flags of the build command, in order of their names. -/
def flags : List Flag :=
  [{ name := "ast-format", setter := .text fun s o => { o with astFormat := s },
     purpose := "AST output format (text, json or cbor)", usual := "text" },
   { name := "dump-after", setter := .text fun s o => { o with dumpAfter := s },
     purpose := "Dump the program after pass (name or \"*\")" },
   { name := "dump-before", setter := .text fun s o => { o with dumpBefore := s },
     purpose := "Dump the program before pass (name or \"*\")" },
   { name := "emit-asm", setter := .switch fun b o => { o with emitAsm := b },
     purpose := "Output assembly instead of building" },
   { name := "emit-ast", setter := .switch fun b o => { o with emitAst := b },
     purpose := "Output AST" },
   { name := "emit-tokens", setter := .switch fun b o => { o with emitTokens := b },
     purpose := "Output token stream" },
   { name := "keep-asm", setter := .switch fun b o => { o with keepAsm := b },
     purpose := "Keep the assembly next to the executable" },
   { name := "no-inline", setter := .switch fun b o => { o with noInline := b },
     purpose := "Skip the inline pass; expand during generation" },
   { name := "o", setter := .text fun s o => { o with output := s },
     purpose := "Output executable (default: source path without .spl)" },
   { name := "v", setter := .number fun n o => { o with verbosity := some n },
     purpose := "Log verbosity (overrides stapel.toml)" },
   { name := "verify", setter := .switch fun b o => { o with verify := b },
     purpose := "Verify the program around each pass" }]

def flag? (name : String) : Option Flag :=
  flags.find? fun f => f.name = name

/-- What is wrong with the flags. A wish for help ends the reading too. -/
inductive FlagFault where
  | help
  | badForm (arg : String)
  | unknown (name : String)
  | valueMissing (name : String)
  | notSwitch (name value : String)
  | notNumber (name value : String) (fault : IntegerFault)
  deriving DecidableEq, Repr

/-- A fault in words; help has none. -/
def FlagFault.text? : FlagFault → Option String
  | .help => none
  | .badForm arg => some ("bad flag syntax: " ++ arg)
  | .unknown name => some ("flag provided but not defined: -" ++ name)
  | .valueMissing name => some ("flag needs an argument: -" ++ name)
  | .notSwitch name value =>
    some ("invalid boolean value " ++ Text.quote value ++ " for -" ++ name ++ ": parse error")
  | .notNumber name value fault =>
    some ("invalid value " ++ Text.quote value ++ " for flag -" ++ name ++ ": " ++ fault.text)

def truth? (s : String) : Option Bool :=
  if ["1", "t", "T", "TRUE", "true", "True"].contains s then some true
  else if ["0", "f", "F", "FALSE", "false", "False"].contains s then some false
  else none

/-- An argument by its form. -/
inductive Argument where
  | plain
  | endOfFlags
  | malformed
  | flag (name : String) (value : Option String)
  deriving DecidableEq, Repr

/-- A flag after its dashes: a name, and a value if there is an equals sign. -/
def Argument.ofBody (body : List Char) : Argument :=
  match body with
  | [] => .malformed
  | c :: _ =>
    if c = '-' ∨ c = '=' then .malformed
    else
      let name := String.ofList (body.takeWhile (· ≠ '='))
      match body.dropWhile (· ≠ '=') with
      | [] => .flag name none
      | _ :: value => .flag name (some (String.ofList value))

def Argument.ofText (arg : String) : Argument :=
  match arg.toList with
  | ['-', '-'] => .endOfFlags
  | ['-'] => .plain
  | '-' :: '-' :: body => .ofBody body
  | '-' :: body => .ofBody body
  | _ => .plain

def Flag.set (f : Flag) (value : String) (o : Options) : Except FlagFault Options :=
  match f.setter with
  | .text set => .ok (set value o)
  | .switch set =>
    match truth? value with
    | some b => .ok (set b o)
    | none => .error (.notSwitch f.name value)
  | .number set =>
    match integer value with
    | .ok n => .ok (set n o)
    | .error fault => .error (.notNumber f.name value fault)

def Flag.isSwitch (f : Flag) : Bool :=
  match f.setter with
  | .switch _ => true
  | _ => false

/-- The fault of a name that no flag has; two such names ask for help. -/
def unknownFlag (name : String) : FlagFault :=
  if name = "help" ∨ name = "h" then .help else .unknown name

/-- Reads flags, and gives the options and the arguments after the flags. A flag that needs a value
takes the next argument unless it comes with one. -/
def readFlags : Options → List String → Except FlagFault (Options × List String)
  | o, [] => .ok (o, [])
  | o, arg :: rest =>
    match Argument.ofText arg with
    | .plain => .ok (o, arg :: rest)
    | .endOfFlags => .ok (o, rest)
    | .malformed => .error (.badForm arg)
    | .flag name value =>
      match flag? name with
      | none => .error (unknownFlag name)
      | some f =>
        match value with
        | some v =>
          match f.set v o with
          | .error fault => .error fault
          | .ok o => readFlags o rest
        | none =>
          if f.isSwitch then
            match f.set "true" o with
            | .error fault => .error fault
            | .ok o => readFlags o rest
          else
            match rest with
            | [] => .error (.valueMissing name)
            | v :: rest =>
              match f.set v o with
              | .error fault => .error fault
              | .ok o => readFlags o rest

def Flag.heading (f : Flag) : String :=
  match f.setter with
  | .switch _ => "  -" ++ f.name
  | .text _ => "  -" ++ f.name ++ " string"
  | .number _ => "  -" ++ f.name ++ " int"

def Flag.help (f : Flag) : String :=
  let usual := if f.usual = "" then "" else " (default " ++ Text.quote f.usual ++ ")"
  f.heading ++ "\n    \t" ++ f.purpose ++ usual ++ "\n"

def buildUsage : String :=
  "Usage: stapel build [options] <file.spl>\n\nOptions:\n" ++ String.join (flags.map Flag.help)

end StackLang.Command
