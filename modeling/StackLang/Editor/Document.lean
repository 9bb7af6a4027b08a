import StackLang.Code.Walk
import StackLang.Compile
import StackLang.Editor.Uri
/-!
What an editor can be told about a source text: what is wrong with it, what it declares, and where
a name is declared and used. Navigation works on the declarations that were complete before the
first error.
-/

namespace StackLang

/-- A place between two characters of a document; lines and columns count from zero. -/
structure Caret where
  line : Nat
  character : Nat
  deriving DecidableEq, Repr

/-- A stretch of a document. -/
structure Range where
  first : Caret
  last : Caret
  deriving DecidableEq, Repr

/-- The stretch of `n` characters from a place on. -/
def Range.ofPos (p : Pos) (n : Nat) : Range :=
  if p.isValid then ⟨⟨p.line - 1, p.col - 1⟩, ⟨p.line - 1, p.col - 1 + n⟩⟩
  else ⟨⟨0, 0⟩, ⟨0, 0⟩⟩

/-- Whether a caret stands in or at the end of the `n` characters from a place on. -/
def Caret.isOn (c : Caret) (p : Pos) (n : Nat) : Bool :=
  let r := Range.ofPos p n
  p.isValid && c.line == r.first.line && decide (r.first.character ≤ c.character) &&
    decide (c.character ≤ r.last.character)

/-- A remark on a document. -/
structure Remark where
  range : Range
  message : String
  deriving DecidableEq, Repr

def Failure.pos : Failure → Pos
  | .source e => e.pos
  | .cycle c => c.pos
  | .generation pos _ => pos
  | _ => Pos.none

/-- A text without its beginning, if it begins so. -/
def dropStart (start s : String) : String :=
  let cs := s.toList
  let bs := start.toList
  if bs.isPrefixOf cs then String.ofList (cs.drop bs.length) else s

/-- A failure as a remark: one character is marked, and the message does not repeat the place. -/
def Remark.ofFailure (f : Failure) : Remark where
  range := .ofPos f.pos 1
  message := if f.pos.isValid then dropStart (f.pos.text ++ ": ") f.message else f.message

/-- An open document. There is no program if the text does not even divide into tokens. -/
structure Document where
  uri : String
  program : Option Program := none
  remarks : List Remark := []

/-- A stretch of a named document. -/
structure Location where
  uri : String
  range : Range
  deriving DecidableEq, Repr

/-- What an outline shows of a declaration. -/
inductive SymbolKind where
  | function
  | region
  deriving DecidableEq, Repr

/-- A declaration in an outline. -/
structure DocumentSymbol where
  name : String
  detail : String
  kind : SymbolKind
  range : Range
  deriving DecidableEq, Repr

namespace Decl

def symbolKind : Decl → SymbolKind
  | .proc _ => .function
  | .inline _ => .function
  | .memory _ => .region

def detail : Decl → String
  | .proc _ => "proc"
  | .inline _ => "inline"
  | .memory m => "memory, " ++ toString m.size.toInt ++ " bytes"

/-- The instructions of a declaration in a box; a memory region has none. -/
def boxedBody : Decl → String
  | .memory _ => ""
  | d => "\n\n```\n" ++ d.body.text ++ "\n```"

end Decl

def Node.use? : Node → Option (String × Pos)
  | .instr (.op p (.ident name)) => some (name, p)
  | _ => none

/-- The uses of names in a program, in the order in which they are written. -/
def Program.nameUses (p : Program) : List (String × Pos) :=
  (p.nodes fun _ => true).filterMap Node.use?

/-- The name under a caret, declared or used there. -/
def Program.nameAt? (p : Program) (c : Caret) : Option String :=
  let declared := p.decls.map fun d => (d.name, d.namePos)
  ((declared ++ p.nameUses).find? fun u => c.isOn u.2 u.1.length).map Prod.fst

namespace Document

def analyze (uri text : String) : Document :=
  let file := Uri.fileName uri
  match Source.tokenize file (Text.bytesOf text) with
  | .error e => { uri, remarks := [.ofFailure (.source e)] }
  | .ok tokens =>
    let remarks := match (compileLexemes {} file tokens).1 with
      | .ok _ => []
      | .error f => [.ofFailure f]
    { uri, program := some (Source.parseTokens file tokens).program, remarks }

/-- The stretch of a name that begins at a place. -/
def locate (d : Document) (name : String) (p : Pos) : Location :=
  ⟨d.uri, .ofPos p name.length⟩

def nameAt? (d : Document) (c : Caret) : Option String :=
  d.program.bind fun p => p.nameAt? c

def declAt? (d : Document) (c : Caret) : Option Decl := do
  let p ← d.program
  p.lookup (← p.nameAt? c)

def definition? (d : Document) (c : Caret) : Option Location :=
  (d.declAt? c).map fun decl => d.locate decl.name decl.namePos

/-- Where the name under a caret is used, in source order, and in front, if wanted, where it is
declared. -/
def references (d : Document) (c : Caret) (withDecl : Bool) : List Location :=
  match d.program with
  | none => []
  | some p =>
    match p.nameAt? c with
    | none => []
    | some name =>
      let declared := if withDecl then (d.definition? c).toList else []
      let used := p.nameUses.filter fun u => u.1 = name
      declared ++ used.map fun u => d.locate u.1 u.2

def symbols? (d : Document) : Option (List DocumentSymbol) :=
  d.program.map fun p => p.decls.map fun decl =>
    { name := decl.name, detail := decl.detail, kind := decl.symbolKind,
      range := .ofPos decl.namePos decl.name.length }

def hover? (d : Document) (c : Caret) : Option String :=
  (d.declAt? c).map fun decl =>
    "**" ++ decl.name ++ "** (" ++ decl.detail ++ ")" ++ decl.boxedBody

end Document

end StackLang
