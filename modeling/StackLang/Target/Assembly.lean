import StackLang.Target.Symbol
/-!
Assembly for the x86-64 processor, in the notation of the NASM assembler: a list of lines, each of
them structured, with their text apart.
-/

namespace StackLang.Target

/-- The registers in use. -/
inductive Reg where
  | rax | rbx | rcx | rdx | rsi | rdi | rbp | rsp | r8 | r9 | r10 | r13
  deriving DecidableEq, Repr

/-- Sizes of operands. -/
inductive Size where
  | byte | word | dword | qword
  deriving DecidableEq, Repr

def Size.text : Size → String
  | .byte => "byte"
  | .word => "word"
  | .dword => "dword"
  | .qword => "qword"

/-- The four names of a register that is called by a letter. -/
def lettered (letter : String) : Size → String
  | .byte => letter ++ "l"
  | .word => letter ++ "x"
  | .dword => "e" ++ letter ++ "x"
  | .qword => "r" ++ letter ++ "x"

/-- The four names of a register that is called by an abbreviation. -/
def pointed (stem : String) : Size → String
  | .byte => stem ++ "l"
  | .word => stem
  | .dword => "e" ++ stem
  | .qword => "r" ++ stem

/-- The four names of a register that is called by a number. -/
def numbered (stem : String) : Size → String
  | .byte => stem ++ "b"
  | .word => stem ++ "w"
  | .dword => stem ++ "d"
  | .qword => stem

/-- The name of the low part of a register of a given size. -/
def Reg.part : Reg → Size → String
  | .rax => lettered "a"
  | .rbx => lettered "b"
  | .rcx => lettered "c"
  | .rdx => lettered "d"
  | .rsi => pointed "si"
  | .rdi => pointed "di"
  | .rbp => pointed "bp"
  | .rsp => pointed "sp"
  | .r8 => numbered "r8"
  | .r9 => numbered "r9"
  | .r10 => numbered "r10"
  | .r13 => numbered "r13"

def Reg.text (r : Reg) : String :=
  r.part .qword

def wordSize : Nat := 8

/-- Places in memory. An index counts slots of the stack. -/
inductive Address where
  | reg (r : Reg)
  | below (r : Reg) (bytes : Nat)
  | slot (base index : Reg)
  | symbol (s : Symbol)
  | symbolSlot (s : Symbol) (index : Reg)
  deriving DecidableEq, Repr

def Address.text : Address → String
  | .reg r => "[" ++ r.text ++ "]"
  | .below r n => "[" ++ r.text ++ " - " ++ toString n ++ "]"
  | .slot base index => "[" ++ base.text ++ " + " ++ index.text ++ "*" ++ toString wordSize ++ "]"
  | .symbol s => "[" ++ s.text ++ "]"
  | .symbolSlot s index => "[" ++ s.text ++ " + " ++ index.text ++ "*" ++ toString wordSize ++ "]"

/-- What an instruction works on. A place in memory may say how many bytes it stands for. -/
inductive Operand where
  | reg (r : Reg)
  | part (r : Reg) (s : Size)
  | imm (n : Int)
  | char (c : Char)
  | symbol (s : Symbol)
  | mem (a : Address)
  | sized (s : Size) (a : Address)
  deriving DecidableEq, Repr

def Operand.text : Operand → String
  | .reg r => r.text
  | .part r s => r.part s
  | .imm n => toString n
  | .char c => "'" ++ c.toString ++ "'"
  | .symbol s => s.text
  | .mem a => a.text
  | .sized s a => s.text ++ " " ++ a.text

/-- Instructions with a target and a source. -/
inductive Binary where
  | mov | movzx | add | sub | imul | band | bor | xor | cmp | test | shr
  deriving DecidableEq, Repr

/-- The mnemonic of an instruction with two operands. -/
def Binary.text : Binary → String
  | .mov => "mov"
  | .movzx => "movzx"
  | .add => "add"
  | .sub => "sub"
  | .imul => "imul"
  | .band => "and"
  | .bor => "or"
  | .xor => "xor"
  | .cmp => "cmp"
  | .test => "test"
  | .shr => "shr"

/-- Instructions with one register. -/
inductive Unary where
  | pop | neg | inc | dec | div | idiv
  deriving DecidableEq, Repr

/-- The mnemonic of an instruction with one register. -/
def Unary.text : Unary → String
  | .pop => "pop"
  | .neg => "neg"
  | .inc => "inc"
  | .dec => "dec"
  | .div => "div"
  | .idiv => "idiv"

/-- Instructions without operands. -/
inductive Nullary where
  | cqo | syscall | leave | ret
  deriving DecidableEq, Repr

/-- The mnemonic of an instruction without operands. -/
def Nullary.text : Nullary → String
  | .cqo => "cqo"
  | .syscall => "syscall"
  | .leave => "leave"
  | .ret => "ret"

/-- Outcomes of a comparison. -/
inductive Cond where
  | e | ne | l | le | g | ge | ae | z | nz | ns
  deriving DecidableEq, Repr

/-- The ending of a mnemonic that depends on a comparison. -/
def Cond.text : Cond → String
  | .e => "e"
  | .ne => "ne"
  | .l => "l"
  | .le => "le"
  | .g => "g"
  | .ge => "ge"
  | .ae => "ae"
  | .z => "z"
  | .nz => "nz"
  | .ns => "ns"

/-- Instructions of the processor. -/
inductive Inst where
  | binary (op : Binary) (target source : Operand)
  | unary (op : Unary) (r : Reg)
  | nullary (op : Nullary)
  | push (source : Operand)
  | lea (r : Reg) (a : Address)
  | leaRel (r : Reg) (s : Symbol)
  | set (c : Cond) (r : Reg)
  | jump (s : Symbol)
  | jumpReg (r : Reg)
  | jumpIf (c : Cond) (s : Symbol)
  | call (s : Symbol)
  deriving DecidableEq, Repr

def Inst.text : Inst → String
  | .binary op target source => op.text ++ " " ++ target.text ++ ", " ++ source.text
  | .unary op r => op.text ++ " " ++ r.text
  | .nullary op => op.text
  | .push source => "push " ++ source.text
  | .lea r a => "lea " ++ r.text ++ ", " ++ a.text
  | .leaRel r s => "lea " ++ r.text ++ ", [rel " ++ s.text ++ "]"
  | .set c r => "set" ++ c.text ++ " " ++ r.part .byte
  | .jump s => "jmp " ++ s.text
  | .jumpReg r => "jmp " ++ r.text
  | .jumpIf c s => "j" ++ c.text ++ " " ++ s.text
  | .call s => "call " ++ s.text

def dataByte (b : UInt8) : String :=
  "0x" ++ String.ofList (Text.hexByte b)

/-- Bytes of data as they are written, with a final zero if asked for. -/
def dataBytes (bytes : List UInt8) (terminated : Bool) : String :=
  ",".intercalate (bytes.map dataByte ++ if terminated then ["0"] else [])

/-- Lines of assembly. -/
inductive Line where
  | blank
  | remark (text : String)
  | comment (text : String)
  | bits (n : Nat)
  | global (s : Symbol)
  | sectionStart (name : String)
  | label (s : Symbol)
  | inst (i : Inst)
  | reserve (s : Symbol) (size : Int)
  | word (s : Symbol)
  | words (s : Symbol) (count : Int)
  | data (s : Symbol) (bytes : List UInt8) (terminated : Bool)
  | length (s measured : Symbol)
  deriving DecidableEq, Repr

/-- A line as it is written, without its line feed. Instructions and the comments among them are
indented. -/
def Line.text : Line → String
  | .blank => ""
  | .remark t => "; " ++ t
  | .comment t => "    ; " ++ t
  | .bits n => "BITS " ++ toString n
  | .global s => "global " ++ s.text
  | .sectionStart name => "section " ++ name
  | .label s => s.text ++ ":"
  | .inst i => "    " ++ i.text
  | .reserve s size => s.text ++ ": resb " ++ toString size
  | .word s => s.text ++ ": dq 0"
  | .words s count => s.text ++ ": times " ++ toString count ++ " dq 0"
  | .data s bytes terminated => s.text ++ ": db " ++ dataBytes bytes terminated
  | .length s measured => s.text ++ " equ $ - " ++ measured.text

def renderLines (lines : List Line) : String :=
  String.join (lines.map fun l => l.text ++ "\n")

end StackLang.Target
