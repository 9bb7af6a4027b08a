import StackLang.Program
import StackLang.Target.Assembly
/-!
The fixed part of the generated assembly: the head of the file, the printing routine, the two
routines that report a bad return stack, the start of the program, and its data.

The data stack is the stack of the machine. Return addresses have a stack of their own: register
`r13` holds the index of its top entry, and entry zero stays unused, so that index zero means that
it is empty.
-/

namespace StackLang.Target

open Line Inst

def sysWrite : Int := 1

def sysExit : Int := 60

def stdoutFile : Int := 1

def stderrFile : Int := 2

/-- A move between registers or into a register. -/
def mov (r : Reg) (source : Operand) : Line :=
  inst (.binary .mov (.reg r) source)

def both (op : Binary) (target source : Reg) : Line :=
  inst (.binary op (.reg target) (.reg source))

def header (file : String) (comments : Bool) : List Line :=
  (if comments then [.remark file] else []) ++
    [.bits 64, .global .start, .blank, .sectionStart ".text", .blank]

/-- Prints the signed number in `rdi` and a line feed. Digits are made from right to left in a
buffer on the stack; the magnitude is divided without a sign, so the least number prints too. -/
def printInt : List Line :=
  [label .printInt,
   inst (.push (.reg .rbp)),
   both .mov .rbp .rsp,
   inst (.binary .sub (.reg .rsp) (.imm 32)),
   both .mov .rax .rdi,
   inst (.lea .rsi (.below .rbp 1)),
   inst (.binary .mov (.sized .byte (.reg .rsi)) (.imm 10)),
   mov .rcx (.imm 10),
   both .xor .r8 .r8,
   both .test .rax .rax,
   inst (.jumpIf .ns .digits),
   mov .r8 (.imm 1),
   inst (.unary .neg .rax),
   label .digits,
   both .xor .rdx .rdx,
   inst (.unary .div .rcx),
   inst (.binary .add (.part .rdx .byte) (.char '0')),
   inst (.unary .dec .rsi),
   inst (.binary .mov (.mem (.reg .rsi)) (.part .rdx .byte)),
   both .test .rax .rax,
   inst (.jumpIf .nz .digits),
   both .test .r8 .r8,
   inst (.jumpIf .z .write),
   inst (.unary .dec .rsi),
   inst (.binary .mov (.sized .byte (.reg .rsi)) (.char '-')),
   label .write,
   mov .rax (.imm sysWrite),
   mov .rdi (.imm stdoutFile),
   both .mov .rdx .rbp,
   both .sub .rdx .rsi,
   inst (.nullary .syscall),
   inst (.nullary .leave),
   inst (.nullary .ret),
   blank]

/-- Writes a message to the standard error output and ends the process with status one. -/
def fatal (name : Symbol) (n : Notice) : List Line :=
  [label name,
   mov .rax (.imm sysWrite),
   mov .rdi (.imm stderrFile),
   inst (.leaRel .rsi (.notice n)),
   mov .rdx (.symbol (.noticeLength n)),
   inst (.nullary .syscall),
   mov .rax (.imm sysExit),
   mov .rdi (.imm 1),
   inst (.nullary .syscall),
   blank]

/-- Remembers where the data stack begins and enters the first procedure. -/
def startRoutine : List Line :=
  [label .start,
   inst (.binary .mov (.mem (.symbol .stackOrigin)) (.reg .rsp)),
   mov .r13 (.mem (.symbol .returnIndex)),
   inst (.jump (.proc Source.entryPoint)),
   blank]

def routines : List Line :=
  printInt ++ fatal .stackUnderflow .underflow ++ fatal .stackOverflow .overflow ++ startRoutine

def memorySection (memories : List Memory) : List Line :=
  .sectionStart ".bss" :: memories.map (fun m => .reserve (.memory m.name) m.size.toInt) ++ [.blank]

def noticeData (n : Notice) : List Line :=
  [.data (.notice n) (Text.bytesOf n.wording) false, .length (.noticeLength n) (.notice n)]

/-- The interned strings from a number on. Each ends in a zero byte. -/
def stringData (comments : Bool) : Nat → List String → List Line
  | _, [] => []
  | i, s :: rest =>
    (if comments then [.remark (Text.quote s)] else []) ++
      .data (.string i) (Text.bytesOf s) true :: stringData comments (i + 1) rest

/-- The data of the runtime and the interned strings. The return stack has one entry more than
there can be calls. -/
def dataSection (depth : Int) (comments : Bool) (strings : List String) : List Line :=
  [.sectionStart ".data", .word .stackOrigin, .word .returnIndex,
    .words .returnStack (depth + 1)] ++
    noticeData .underflow ++ noticeData .overflow ++ stringData comments 0 strings

end StackLang.Target
