import StackLang.Inline.Cycle
import StackLang.Target.Runtime
/-!
Instructions turned into assembly. Labels are numbered and strings interned in the order in which
they are met: procedures in the order of their declaration, and each body from left to right. The
name of an inline is replaced by the assembly of its body.
-/

namespace StackLang.Target

open Line

/-- Why an instruction has no assembly. -/
inductive Cause where
  | noEntry
  | badOperator (t : Token)
  | loadWidth (w : Int)
  | storeWidth (w : Int)
  | unknownName (name : String)
  deriving DecidableEq, Repr

def Cause.text : Cause → String
  | .noEntry => "no procedure named " ++ Source.entryPoint
  | .badOperator t => t.text ++ " is not an infix operator"
  | .loadWidth w => "unsupported load width " ++ toString w
  | .storeWidth w => "unsupported store width " ++ toString w
  | .unknownName name => "unknown identifier " ++ name

/-- A diagnostic of the generator. It names a place only if there is one. -/
def generationMessage (pos : Pos) (what : String) : String :=
  (if pos.isValid then pos.text ++ ": " else "") ++ "generation error: " ++ what

/-- Why generation stops: an instruction without assembly, a cycle among inlines, or a program
that no parser gives, with a procedure that has no body or a system call that needs more values
than there are registers. -/
inductive Fault where
  | refused (pos : Pos) (cause : Cause)
  | cycle (c : Cycle)
  | absentBody
  | registers
  deriving DecidableEq, Repr

/-- What a procedure is lowered with. -/
structure Context where
  program : Program
  depth : Int
  comments : Bool
  proc : String

def Context.note (ctx : Context) (text : String) : List Line :=
  if ctx.comments then [.comment text] else []

/-- What has been numbered so far: how many labels, and the interned strings. -/
structure Pool where
  labels : Nat := 0
  strings : List String := []
  deriving DecidableEq, Repr

/-- Computations that number labels and intern strings, and may stop. -/
abbrev Lowering := StateT Pool (Except Fault)

def freshLabel : Lowering Symbol := fun s =>
  .ok (.label s.labels, { s with labels := s.labels + 1 })

/-- The number of a string, which is interned the first time it is met. -/
def internString (value : String) : Lowering Nat := fun s =>
  if s.strings.contains value then .ok (s.strings.idxOf value, s)
  else .ok (s.strings.length, { s with strings := s.strings ++ [value] })

def stop {α : Type} (f : Fault) : Lowering α := fun _ =>
  .error f

def pop (r : Reg) : Line :=
  inst (.unary .pop r)

def push (r : Reg) : Line :=
  inst (.push (.reg r))

/-- Puts a number on the stack. Only numbers of 32 bits can be pushed as they are. -/
def pushNumber (v : Int64) : List Line :=
  if Int32.minValue.toInt ≤ v.toInt ∧ v.toInt ≤ Int32.maxValue.toInt then
    [inst (.push (.imm v.toInt))]
  else [mov .rax (.imm v.toInt), push .rax]

/-- Leaves one in `rax` if the comparison of `rax` with `rbx` holds, else zero. -/
def compare (c : Cond) : List Line :=
  [both .cmp .rax .rbx, inst (.set c .rax),
   inst (.binary .movzx (.reg .rax) (.part .rax .byte))]

/-- Leaves in `rax` the logical value of `rax` and `rbx`, each taken as true unless zero. -/
def logical (op : Binary) : List Line :=
  [inst (.binary .cmp (.reg .rax) (.imm 0)), inst (.set .ne .rax),
   inst (.binary .cmp (.reg .rbx) (.imm 0)), inst (.set .ne .rbx),
   inst (.binary op (.part .rax .byte) (.part .rbx .byte)),
   inst (.binary .movzx (.reg .rax) (.part .rax .byte))]

/-- Combines the left operand in `rax` with the right one in `rbx`, into `rax`. -/
def combine : Operator → List Line
  | .add => [both .add .rax .rbx]
  | .sub => [both .sub .rax .rbx]
  | .mul => [both .imul .rax .rbx]
  | .div => [inst (.nullary .cqo), inst (.unary .idiv .rbx)]
  | .rem => [inst (.nullary .cqo), inst (.unary .idiv .rbx), both .mov .rax .rdx]
  | .eql => compare .e
  | .neq => compare .ne
  | .lss => compare .l
  | .leq => compare .le
  | .gtr => compare .g
  | .geq => compare .ge
  | .both => logical .band
  | .either => logical .bor

/-- Applies an operator to the two values on top of the stack; the upper one is the right
operand. -/
def operatorLines (o : Operator) : List Line :=
  [pop .rbx, pop .rax] ++ combine o ++ [push .rax]

/-- Reads a value of a width from the address in `rax` into `rbx`, the rest being zero. -/
def readLine? (w : Int) : Option Line :=
  if w = 1 then some (inst (.binary .movzx (.reg .rbx) (.sized .byte (.reg .rax))))
  else if w = 2 then some (inst (.binary .movzx (.reg .rbx) (.sized .word (.reg .rax))))
  else if w = 4 then some (inst (.binary .mov (.part .rbx .dword) (.sized .dword (.reg .rax))))
  else if w = 8 then some (inst (.binary .mov (.reg .rbx) (.sized .qword (.reg .rax))))
  else none

/-- Writes the low part of `rbx`, of a width, to the address in `rax`. -/
def writeLine? (w : Int) : Option Line :=
  if w = 1 then some (inst (.binary .mov (.sized .byte (.reg .rax)) (.part .rbx .byte)))
  else if w = 2 then some (inst (.binary .mov (.sized .word (.reg .rax)) (.part .rbx .word)))
  else if w = 4 then some (inst (.binary .mov (.sized .dword (.reg .rax)) (.part .rbx .dword)))
  else if w = 8 then some (inst (.binary .mov (.sized .qword (.reg .rax)) (.reg .rbx)))
  else none

/-- The registers that take the values of a system call, its number first. -/
def argumentRegs : List Reg :=
  [.rax, .rdi, .rsi, .rdx, .r10, .r8, .r9]

/-- Leaves the procedure. The entry procedure ends the process; any other one takes the top of the
return stack, which must not be empty. -/
def returnLines (proc : String) : List Line :=
  if proc = Source.entryPoint then
    [mov .rax (.imm sysExit), both .xor .rdi .rdi, inst (.nullary .syscall)]
  else
    [both .test .r13 .r13, inst (.jumpIf .z .stackUnderflow),
     mov .rdx (.mem (.symbolSlot .returnStack .r13)),
     inst (.unary .dec .r13), inst (.jumpReg .rdx)]

/-- Enters a procedure. The address after the jump goes on the return stack unless that is
full. -/
def callLines (depth : Int) (name : String) (back : Symbol) : List Line :=
  [inst (.binary .cmp (.reg .r13) (.imm depth)), inst (.jumpIf .ae .stackOverflow),
   inst (.unary .inc .r13), inst (.leaRel .rax back),
   inst (.binary .mov (.mem (.symbolSlot .returnStack .r13)) (.reg .rax)),
   inst (.jump (.proc name)), label back]

/-- Takes a condition from the stack and jumps if it is zero. -/
def jumpIfZero (target : Symbol) : List Line :=
  [pop .rax, both .test .rax .rax, inst (.jumpIf .z target)]

/-- The assembly of an instruction that has no parts and is no name. -/
def opLines (ctx : Context) (pos : Pos) : Op → Lowering (List Line)
  | .pushInt v => pure (pushNumber v)
  | .pushStr value _ => do
    let i ← internString value
    return [inst (.push (.imm (Text.bytesOf value).length)), inst (.push (.symbol (.string i)))]
  | .binary (.operator o) => pure (operatorLines o)
  | .binary t => stop (.refused pos (.badOperator t))
  | .pop => pure [pop .rax]
  | .dup => pure [pop .rax, push .rax, push .rax]
  | .swap => pure [pop .rax, pop .rbx, push .rax, push .rbx]
  | .over => pure [pop .rax, pop .rbx, push .rbx, push .rax, push .rbx]
  | .rot => pure [pop .rcx, pop .rbx, pop .rax, push .rbx, push .rcx, push .rax]
  | .pick => pure [pop .rax, mov .rbx (.mem (.slot .rsp .rax)), push .rbx]
  | .put => pure [pop .rdi, inst (.call .printInt)]
  | .size => pure [mov .rax (.mem (.symbol .stackOrigin)), both .sub .rax .rsp,
      inst (.binary .shr (.reg .rax) (.imm 3)), push .rax]
  | .ret => pure (returnLines ctx.proc)
  | .load w =>
    match readLine? w with
    | some line => pure [pop .rax, line, push .rbx]
    | none => stop (.refused pos (.loadWidth w))
  | .store w =>
    match writeLine? w with
    | some line => pure [pop .rbx, pop .rax, line]
    | none => stop (.refused pos (.storeWidth w))
  | .syscall n =>
    if n ≤ argumentRegs.length then
      pure ((argumentRegs.take n.toNat).map pop ++ [inst (.nullary .syscall), push .rax])
    else stop .registers
  | .ident name => stop (.refused pos (.unknownName name))

/-- How the body of an inline used at a place is lowered. -/
abbrev Splice := Routine → Pos → Lowering (List Line)

/-- The assembly of a name: the body of an inline, the address of a memory region, or a call. -/
def nameLines (ctx : Context) (splice : Splice) (pos : Pos) (name : String) :
    Lowering (List Line) :=
  match ctx.program.inlines.get? name with
  | some d => splice d pos
  | none =>
    let note := ctx.note (Op.ident name).text
    if ctx.program.memories.contains name then
      pure (note ++ [inst (.push (.symbol (.memory name)))])
    else if ctx.program.procs.contains name then do
      let back ← freshLabel
      return note ++ callLines ctx.depth name back
    else stop (.refused pos (.unknownName name))

mutual

/-- The assembly of an instruction. The end of a conditional has its lowest label, and each arm
the next one. -/
def instrLines (ctx : Context) (splice : Splice) : Instr → Lowering (List Line)
  | .op p (.ident name) => nameLines ctx splice p name
  | .op p o => do
    let lines ← opLines ctx p o
    return ctx.note o.text ++ lines
  | .branch _ c b es o => do
    let last ← freshLabel
    let next ← freshLabel
    let cond ← blockLines ctx splice c
    let body ← blockLines ctx splice b
    let arms ← armLines ctx splice last es
    let otherwise ← match o with
      | .absent => pure []
      | .mk _ xs => do
        let lines ← listLines ctx splice xs
        pure (ctx.note "else" ++ lines)
    return ctx.note "if" ++ cond ++ jumpIfZero next ++ body ++
      [inst (.jump last), label next] ++ arms ++ otherwise ++ [label last]
  | .loop _ c b => do
    let first ← freshLabel
    let last ← freshLabel
    let cond ← blockLines ctx splice c
    let body ← blockLines ctx splice b
    return ctx.note "while" ++ [label first] ++ cond ++ jumpIfZero last ++ body ++
      [inst (.jump first), label last]

def blockLines (ctx : Context) (splice : Splice) : Block → Lowering (List Line)
  | .absent => pure []
  | .mk _ xs => listLines ctx splice xs

def listLines (ctx : Context) (splice : Splice) : List Instr → Lowering (List Line)
  | [] => pure []
  | x :: xs => do
    let first ← instrLines ctx splice x
    let rest ← listLines ctx splice xs
    return first ++ rest

/-- The assembly of the further arms of a conditional that ends at a label. -/
def armLines (ctx : Context) (splice : Splice) (last : Symbol) :
    List Arm → Lowering (List Line)
  | [] => pure []
  | .mk _ c b :: rest => do
    let next ← freshLabel
    let cond ← blockLines ctx splice c
    let body ← blockLines ctx splice b
    let others ← armLines ctx splice last rest
    return ctx.note "elif" ++ cond ++ jumpIfZero next ++ body ++
      [inst (.jump last), label next] ++ others

end

/-- The assembly of an inline used at a place, below the inlines of the path `active`. The number
bounds the length of the path; names on it differ, so it never runs out. -/
def inlineLines (ctx : Context) : Nat → List String → Splice
  | 0, active, _, pos => stop (.cycle ⟨pos, active⟩)
  | fuel + 1, active, d, pos =>
    if active.contains d.name then stop (.cycle ⟨pos, active.dropWhile (· != d.name)⟩)
    else blockLines ctx (inlineLines ctx fuel (active ++ [d.name])) d.body

/-- The assembly of a procedure. One that does not end by leaving gets an end that does. -/
def procLines (p : Program) (depth : Int) (comments : Bool) (r : Routine) :
    Lowering (List Line) := do
  let ctx : Context := { program := p, depth, comments, proc := r.name }
  match r.body with
  | .absent => stop .absentBody
  | body => do
    let lines ← blockLines ctx (inlineLines ctx (p.inlines.size + 1) []) body
    return label (.proc r.name) :: lines ++
      (if body.lastIsReturn then [] else returnLines r.name) ++ [blank]

def procsLines (p : Program) (depth : Int) (comments : Bool) :
    List Routine → Lowering (List Line)
  | [] => pure []
  | r :: rest => do
    let first ← procLines p depth comments r
    let others ← procsLines p depth comments rest
    return first ++ others

end StackLang.Target
