import Mathlib.Logic.Relation
import StackLang.Proofs.Machine.Ram
import StackLang.Target.Lowering
/-!
The meaning of the instructions that the generator emits. A program is a list of lines, and the
instruction pointer counts lines.
-/

namespace StackLang.Target

/-- What a comparison leaves for the instructions that depend on it. -/
structure Flags where
  zero : Bool
  sign : Bool
  carry : Bool
  overflow : Bool

/-- The flags of a difference. -/
def Flags.compare (a b : Word) : Flags where
  zero := a = b
  sign := (a - b).toInt < 0
  carry := a.toNat < b.toNat
  overflow := (a - b).toInt ≠ a.toInt - b.toInt

/-- The flags of a value. -/
def Flags.test (a : Word) : Flags where
  zero := a = 0
  sign := a.toInt < 0
  carry := false
  overflow := false

def Flags.holds (f : Flags) : Cond → Bool
  | .e | .z => f.zero
  | .ne | .nz => !f.zero
  | .l => f.sign != f.overflow
  | .le => f.zero || f.sign != f.overflow
  | .g => !f.zero && f.sign == f.overflow
  | .ge => f.sign == f.overflow
  | .ae => !f.carry
  | .ns => !f.sign

/-- The processor between two instructions. The flags are those of the last comparison, unless
another instruction has changed them since. -/
structure Processor where
  pc : Nat
  regs : Reg → Word
  flags : Option Flags
  ram : Ram
  trace : List Event

/-- What the program does not decide: where its data and its lines stand in memory, what the system
answers to the calls one after another, and what becomes of the processor when the printing routine
is called. -/
structure Platform where
  place : Symbol → Word
  code : Nat → Word
  kernel : Nat → List Word → Ram → Response
  print : Processor → Processor

/-- What an instruction does: it leaves the processor in a state, or it ends the process. -/
inductive Move where
  | runs (m : Processor)
  | exits (status : Word) (trace : List Event)

/-- The number of bytes of a size. -/
def Size.bytes : Size → Nat
  | .byte => 1
  | .word => 2
  | .dword => 4
  | .qword => 8

/-- The low part of a word. -/
def Size.low (s : Size) (v : Word) : Word :=
  BitVec.ofNat 64 (v.toNat % 256 ^ s.bytes)

/-- A register after its low part is written. Parts of four bytes clear what is above them. -/
def Size.merge (s : Size) (old v : Word) : Word :=
  match s with
  | .byte | .word =>
    BitVec.ofNat 64 (old.toNat / 256 ^ s.bytes * 256 ^ s.bytes + v.toNat % 256 ^ s.bytes)
  | .dword | .qword => s.low v

/-- The size that an operand has by itself. -/
def Operand.size? : Operand → Option Size
  | .reg _ => some .qword
  | .part _ s => some s
  | .sized s _ => some s
  | _ => none

/-- Whether a number can stand in an instruction that extends 32 bits to a word. -/
def fits32 (n : Int) : Bool :=
  -2 ^ 31 ≤ n && n < 2 ^ 31

/-- Operands whose number, if they are one, has 32 bits. -/
def Operand.short : Operand → Bool
  | .imm n => fits32 n
  | _ => true

/-- The line that a symbol labels. -/
def labelLine? (prog : List Line) (s : Symbol) : Option Nat :=
  prog.findIdx? (· = .label s)

namespace Processor

def set (m : Processor) (r : Reg) (v : Word) : Processor :=
  { m with regs := fun x => if x = r then v else m.regs x }

/-- The processor at the next line. -/
def next (m : Processor) : Processor :=
  { m with pc := m.pc + 1 }

/-- The processor after an instruction that changes the flags and is not compared with. -/
def mixed (m : Processor) : Processor :=
  { m with flags := none }

def compared (m : Processor) (f : Flags) : Processor :=
  { m with flags := some f }

def withRam (m : Processor) (ram : Ram) : Processor :=
  { m with ram }

/-- The processor with a word on its stack. -/
def pushed (m : Processor) (v : Word) : Processor :=
  (m.set .rsp (m.regs .rsp - 8)).withRam (m.ram.putWord (m.regs .rsp - 8) v)

/-- The processor with the top of its stack in a register. -/
def popped (m : Processor) (r : Reg) : Processor :=
  (m.set .rsp (m.regs .rsp + 8)).set r (m.ram.word (m.regs .rsp))

variable (w : Platform) (prog : List Line) (m : Processor)

def address : Address → Word
  | .reg r => m.regs r
  | .below r n => m.regs r - BitVec.ofNat 64 n
  | .slot base index => m.regs base + m.regs index * 8
  | .symbol s => w.place s
  | .symbolSlot s index => w.place s + m.regs index * 8

/-- The value of an operand of a size, the rest being zero. -/
def read (size : Size) : Operand → Word
  | .reg r => size.low (m.regs r)
  | .part r _ => size.low (m.regs r)
  | .imm n => size.low (BitVec.ofInt 64 n)
  | .char c => BitVec.ofNat 64 c.toNat
  | .symbol s => w.place s
  | .mem a => BitVec.ofNat 64 (m.ram.load (m.address w a) size.bytes)
  | .sized _ a => BitVec.ofNat 64 (m.ram.load (m.address w a) size.bytes)

def write (size : Size) (v : Word) : Operand → Option Processor
  | .reg r => some (m.set r v)
  | .part r s => some (m.set r (s.merge (m.regs r) v))
  | .mem a => some (m.withRam (m.ram.store (m.address w a) size.bytes v.toNat))
  | .sized _ a => some (m.withRam (m.ram.store (m.address w a) size.bytes v.toNat))
  | _ => none

/-- Moves a value, which may have 64 bits if it is written out. -/
def move (target source : Operand) : Option Processor := do
  let size ← target.size?.or source.size?
  m.write w size (m.read w size source) target

def moveExtended (target source : Operand) : Option Processor := do
  let size ← source.size?
  m.write w .qword (m.read w size source) target

def combine (f : Word → Word → Word) (target source : Operand) : Option Processor := do
  let size ← target.size?.or source.size?
  if source.short then
    (m.write w size (f (m.read w size target) (m.read w size source)) target).map mixed
  else none

/-- Compares whole words. -/
def comparison (f : Word → Word → Flags) (target source : Operand) : Option Processor :=
  if target.size? = some .qword ∧ source.short then
    some (m.compared (f (m.read w .qword target) (m.read w .qword source)))
  else none

def binary : Binary → Operand → Operand → Option Processor
  | .mov => m.move w
  | .movzx => m.moveExtended w
  | .add => m.combine w (· + ·)
  | .sub => m.combine w (· - ·)
  | .imul => m.combine w (· * ·)
  | .band => m.combine w (· &&& ·)
  | .bor => m.combine w (· ||| ·)
  | .xor => m.combine w (· ^^^ ·)
  | .shr => m.combine w fun a b => a >>> (b.toNat % 64)
  | .cmp => m.comparison w Flags.compare
  | .test => m.comparison w fun a b => Flags.test (a &&& b)

/-- Divides the unsigned number in `rdx` and `rax`. A quotient that does not fit is a fault. -/
def divide (divisor : Word) : Option Processor :=
  let dividend := (m.regs .rdx).toNat * 2 ^ 64 + (m.regs .rax).toNat
  let d := divisor.toNat
  if d = 0 ∨ 2 ^ 64 ≤ dividend / d then none
  else some ((m.set .rax (BitVec.ofNat 64 (dividend / d))).set .rdx
    (BitVec.ofNat 64 (dividend % d))).mixed

/-- Divides the signed number in `rdx` and `rax`, towards zero. A quotient that does not fit is a
fault. -/
def divideSigned (divisor : Word) : Option Processor :=
  let dividend := (m.regs .rdx).toInt * 2 ^ 64 + (m.regs .rax).toNat
  let d := divisor.toInt
  let quotient := dividend.tdiv d
  if d = 0 ∨ quotient < -2 ^ 63 ∨ 2 ^ 63 ≤ quotient then none
  else some ((m.set .rax (BitVec.ofInt 64 quotient)).set .rdx
    (BitVec.ofInt 64 (dividend.tmod d))).mixed

def unary : Unary → Reg → Option Processor
  | .pop, r => some (m.popped r)
  | .neg, r => some (m.set r (-m.regs r)).mixed
  | .inc, r => some (m.set r (m.regs r + 1)).mixed
  | .dec, r => some (m.set r (m.regs r - 1)).mixed
  | .div, r => m.divide (m.regs r)
  | .idiv, r => m.divideSigned (m.regs r)

/-- What is pushed: a register, a number of 32 bits, or an address below the middle of 32 bits. -/
def pushValue? : Operand → Option Word
  | .reg r => some (m.regs r)
  | .imm n => if fits32 n then some (BitVec.ofInt 64 n) else none
  | .symbol s => if (w.place s).toNat < 2 ^ 31 then some (w.place s) else none
  | _ => none

/-- The effect of an instruction that goes on to the next one. -/
def effect : Inst → Option Processor
  | .binary op target source => m.binary w op target source
  | .unary op r => m.unary op r
  | .nullary .cqo => some (m.set .rdx (if (m.regs .rax).toInt < 0 then -1 else 0))
  | .nullary .leave => some ((m.set .rsp (m.regs .rbp)).popped .rbp)
  | .push source => (m.pushValue? w source).map m.pushed
  | .lea r a => some (m.set r (m.address w a))
  | .leaRel r s => some (m.set r ((labelLine? prog s).elim (w.place s) w.code))
  | .set c r =>
    m.flags.map fun f => m.set r (Size.byte.merge (m.regs r) (if f.holds c then 1 else 0))
  | _ => none

def jumpTo (target : Option Nat) : Option Move :=
  target.map fun i => .runs { m with pc := i }

/-- The line at an address. -/
def lineAt? (a : Word) : Option Nat :=
  (List.range prog.length).find? fun i => w.code i = a

/-- A system call. The values are those of the argument registers, and the address of the next
instruction is left in `rcx`. -/
def syscall : Move :=
  let values := argumentRegs.map m.regs
  match w.kernel m.trace.length values m.ram with
  | .exits status => .exits status m.trace
  | .returns value writes =>
    .runs { ((m.set .rcx (w.code (m.pc + 1))).set .rax value).mixed with
      ram := m.ram.patch writes
      trace := m.trace ++ [.syscall values m.ram]
      pc := m.pc + 1 }

/-- One instruction. Nothing follows where it is a fault or does not exist. -/
def exec : Inst → Option Move
  | .nullary .syscall => some (m.syscall w)
  | .nullary .ret =>
    ({ m with regs := (m.set .rsp (m.regs .rsp + 8)).regs } : Processor).jumpTo
      (lineAt? w prog (m.ram.word (m.regs .rsp)))
  | .jump s => m.jumpTo (labelLine? prog s)
  | .jumpReg r => m.jumpTo (lineAt? w prog (m.regs r))
  | .jumpIf c s => do
    let f ← m.flags
    if f.holds c then m.jumpTo (labelLine? prog s) else return .runs m.next
  | .call .printInt => some (.runs (w.print m))
  | i => (m.effect w prog i).map fun m => .runs m.next

/-- One line. Labels and comments do nothing. -/
def step : Option Move :=
  match prog[m.pc]? with
  | some (.inst i) => m.exec w prog i
  | some (.label _) | some .blank | some (.comment _) | some (.remark _) => some (.runs m.next)
  | _ => none

/-- Some lines one after another. -/
def Reaches (w : Platform) (prog : List Line) : Processor → Processor → Prop :=
  Relation.ReflTransGen fun m m' => m.step w prog = some (.runs m')

end Processor

end StackLang.Target
