import StackLang.Code.Basic
import StackLang.Source.Diagnostic
import StackLang.Table
/-!
Programs: declarations in order, and three maps that find them by name. Procedures, inlines and
memory regions share one name space. Every declaration has a serial number, so that two
declarations that look alike are still told apart.
-/

namespace StackLang

/-- A named block of instructions: a procedure or an inline. -/
structure Routine where
  serial : Nat := 0
  name : String
  pos : Pos
  namePos : Pos
  body : Block
  deriving DecidableEq

/-- A named region of memory. -/
structure Memory where
  serial : Nat := 0
  name : String
  pos : Pos
  namePos : Pos
  size : Int64
  deriving DecidableEq

/-- A declaration. -/
inductive Decl where
  | proc (r : Routine)
  | inline (r : Routine)
  | memory (m : Memory)
  deriving DecidableEq

namespace Decl

def name : Decl → String
  | .proc r => r.name
  | .inline r => r.name
  | .memory m => m.name

/-- The place of the word that begins the declaration. -/
def pos : Decl → Pos
  | .proc r => r.pos
  | .inline r => r.pos
  | .memory m => m.pos

def namePos : Decl → Pos
  | .proc r => r.namePos
  | .inline r => r.namePos
  | .memory m => m.namePos

def serial : Decl → Nat
  | .proc r => r.serial
  | .inline r => r.serial
  | .memory m => m.serial

/-- The declaration with another serial number. -/
def withSerial (d : Decl) (n : Nat) : Decl :=
  match d with
  | .proc r => .proc { r with serial := n }
  | .inline r => .inline { r with serial := n }
  | .memory m => .memory { m with serial := n }

/-- The body, which a memory region does not have. -/
def body : Decl → Block
  | .proc r => r.body
  | .inline r => r.body
  | .memory _ => .absent

/-- The word for the kind of declaration in listings. -/
def kind : Decl → String
  | .proc _ => "ProcDecl"
  | .inline _ => "InlineDecl"
  | .memory _ => "MemoryDecl"

end Decl

/-- A program: the declarations in order, the maps that find them, and the next serial number. -/
structure Program where
  file : String
  decls : List Decl := []
  procs : Table String Routine := .empty
  inlines : Table String Routine := .empty
  memories : Table String Memory := .empty
  nextSerial : Nat := 0

namespace Program

/-- The declaration found under a name: a procedure before an inline before a memory region. -/
def lookup (p : Program) (name : String) : Option Decl :=
  ((p.procs.get? name).map .proc).or
    (((p.inlines.get? name).map .inline).or ((p.memories.get? name).map .memory))

def entry? (p : Program) : Option Routine :=
  p.procs.get? Source.entryPoint

def procDecls (p : Program) : List Routine :=
  p.decls.filterMap fun
    | .proc r => some r
    | _ => none

def inlineList (p : Program) : List Routine :=
  p.decls.filterMap fun
    | .inline r => some r
    | _ => none

def memoryDecls (p : Program) : List Memory :=
  p.decls.filterMap fun
    | .memory m => some m
    | _ => none

/-- Why a declaration cannot be added: its name is taken. -/
def nameTaken? (p : Program) (name : String) (pos : Pos) : Option Source.Error :=
  (p.lookup name).map fun earlier => ⟨pos, .redeclared name earlier.pos⟩

/-- The program with a declaration in the map of its kind, under a name of choice, and under a new
serial number. -/
def register (p : Program) (key : String) (d : Decl) : Program :=
  let p' := { p with nextSerial := p.nextSerial + 1 }
  match d.withSerial p.nextSerial with
  | .proc r => { p' with procs := p.procs.put key r }
  | .inline r => { p' with inlines := p.inlines.put key r }
  | .memory m => { p' with memories := p.memories.put key m }

/-- The program with a declaration at the end of the list that no map knows. -/
def append (p : Program) (d : Decl) : Program :=
  { p with decls := p.decls ++ [d.withSerial p.nextSerial], nextSerial := p.nextSerial + 1 }

/-- The program with a declaration added, in the list and under its name. -/
def insert (p : Program) (d : Decl) : Program :=
  { p.register d.name d with decls := p.decls ++ [d.withSerial p.nextSerial] }

def declare (p : Program) (d : Decl) : Except Source.Error Program :=
  match p.nameTaken? d.name d.pos with
  | some e => .error e
  | none => .ok (p.insert d)

/-- The program without a name in its maps. The declaration list stays. -/
def unregister (p : Program) (name : String) : Program :=
  { p with
    procs := p.procs.erase name
    inlines := p.inlines.erase name
    memories := p.memories.erase name }

/-- Puts a procedure in the place of another one, wherever that is held. -/
def replaceProc (p : Program) (old new : Routine) : Program :=
  let swap (r : Routine) : Routine := if r = old then new else r
  { p with
    decls := p.decls.map fun
      | .proc r => .proc (swap r)
      | d => d
    procs := p.procs.map swap }

/-- Puts an inline in the place of another one, wherever that is held. -/
def replaceInline (p : Program) (old new : Routine) : Program :=
  let swap (r : Routine) : Routine := if r = old then new else r
  { p with
    decls := p.decls.map fun
      | .inline r => .inline (swap r)
      | d => d
    inlines := p.inlines.map swap }

/-- Puts a memory region in the place of another one, wherever that is held. -/
def replaceMemory (p : Program) (old new : Memory) : Program :=
  let swap (m : Memory) : Memory := if m = old then new else m
  { p with
    decls := p.decls.map fun
      | .memory m => .memory (swap m)
      | d => d
    memories := p.memories.map swap }

/-- Gives the procedure found under a name another body, or else the inline. -/
def setBody (p : Program) (name : String) (body : Block) : Program :=
  match p.procs.get? name, p.inlines.get? name with
  | some r, _ => p.replaceProc r { r with body }
  | none, some r => p.replaceInline r { r with body }
  | none, none => p

/-- Gives the memory region found under a name another size. -/
def setSize (p : Program) (name : String) (size : Int64) : Program :=
  match p.memories.get? name with
  | some m => p.replaceMemory m { m with size }
  | none => p

/-- Changes the bodies of the listed procedures. -/
def mapProcBodies (f : Block → Block) (p : Program) : Program :=
  p.procDecls.foldl (fun p r => p.replaceProc r { r with body := f r.body }) p

/-- The procedure or else the inline found under a name. -/
def routine? (p : Program) (name : String) : Option Routine :=
  (p.procs.get? name).or (p.inlines.get? name)

end Program

end StackLang
