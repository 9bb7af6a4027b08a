import StackLang.Text.Hex
import StackLang.Text.Utf8
/-!
Symbols of the generated assembly. A declared name becomes part of a symbol byte by byte, in such
a way that different names give different symbols.
-/

namespace StackLang.Target

open StackLang.Text

/-- Whether a byte is an ASCII letter or digit. -/
def isAlnum (b : UInt8) : Bool :=
  let n := b.toNat
  (0x30 ≤ n && n ≤ 0x39) || (0x41 ≤ n && n ≤ 0x5a) || (0x61 ≤ n && n ≤ 0x7a)

/-- One byte of a name inside a symbol: letters and digits stay, an underscore is doubled, and any
other byte is an underscore and its two hexadecimal digits. -/
def mangleByte (b : UInt8) : List Char :=
  if b.toNat = '_'.toNat then ['_', '_']
  else if isAlnum b then [Char.ofNat b.toNat]
  else '_' :: hexByte b

/-- A name, given by its bytes, inside a symbol. -/
def mangle (bytes : List UInt8) : String :=
  String.ofList (bytes.flatMap mangleByte)

/-- The symbol of a procedure, given by the bytes of its name. -/
def procSymbol (bytes : List UInt8) : String :=
  "proc_" ++ mangle bytes

/-- The symbol of a memory region, given by the bytes of its name. -/
def memorySymbol (bytes : List UInt8) : String :=
  "mem_" ++ mangle bytes

def labelText (n : Int) : String :=
  ".addr_" ++ toString n

def stringLabelText (n : Int) : String :=
  "str_" ++ toString n

/-- The messages of the runtime. -/
inductive Notice where
  | underflow
  | overflow
  deriving DecidableEq, Repr

def Notice.wording : Notice → String
  | .underflow => "error: return stack underflow\n"
  | .overflow => "error: return stack overflow\n"

def Notice.symbol : Notice → String
  | .underflow => "msg_underflow"
  | .overflow => "msg_overflow"

/-- Everything that the assembly names: runtime routines and data, the labels inside the printing
routine, declared procedures and memory regions, interned strings and labels of the control
flow. -/
inductive Symbol where
  | start
  | printInt
  | stackUnderflow
  | stackOverflow
  | notice (n : Notice)
  | noticeLength (n : Notice)
  | returnStack
  | returnIndex
  | stackOrigin
  | digits
  | write
  | proc (name : String)
  | memory (name : String)
  | string (index : Nat)
  | label (n : Nat)
  deriving DecidableEq, Repr

def Symbol.text : Symbol → String
  | .start => "_start"
  | .printInt => "print_i64"
  | .stackUnderflow => "stack_underflow"
  | .stackOverflow => "stack_overflow"
  | .notice n => n.symbol
  | .noticeLength n => n.symbol ++ "_len"
  | .returnStack => "ret_stack"
  | .returnIndex => "ret_index"
  | .stackOrigin => "ori_stack_ptr"
  | .digits => ".digits"
  | .write => ".write"
  | .proc name => procSymbol (bytesOf name)
  | .memory name => memorySymbol (bytesOf name)
  | .string index => stringLabelText index
  | .label n => labelText n

end StackLang.Target
