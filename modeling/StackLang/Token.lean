/-!
Kinds of tokens, their numbers and their names, and the reserved words.
-/

namespace StackLang

/-- Operators that take two values from the stack. -/
inductive Operator where
  | add | sub | mul | div | rem
  | eql | neq | lss | leq | gtr | geq
  | both | either
  deriving DecidableEq, Repr

/-- Reserved words other than the two logical operators. -/
inductive Keyword where
  | doWord | dup | elifWord | elseWord | endWord | ifWord | inlineWord | memoryWord | over | pick
  | pop | procWord | put | returnWord | rot | size | swap | whileWord
  deriving DecidableEq, Repr

/-- The kind of a token. `other` holds a number that no kind has. -/
inductive Token where
  | eof
  | error
  | name
  | int
  | str
  | operator (o : Operator)
  | load
  | store
  | syscall
  | keyword (k : Keyword)
  | other (code : Nat)
  deriving DecidableEq, Repr

namespace Operator

/-- All operators in the order of their numbers. -/
def all : List Operator :=
  [.add, .sub, .mul, .div, .rem, .eql, .neq, .lss, .leq, .gtr, .geq, .both, .either]

def text : Operator → String
  | .add => "+"
  | .sub => "-"
  | .mul => "*"
  | .div => "/"
  | .rem => "%"
  | .eql => "="
  | .neq => "!="
  | .lss => "<"
  | .leq => "<="
  | .gtr => ">"
  | .geq => ">="
  | .both => "and"
  | .either => "or"

end Operator

namespace Keyword

/-- All reserved words in the order of their numbers. -/
def all : List Keyword :=
  [.doWord, .dup, .elifWord, .elseWord, .endWord, .ifWord, .inlineWord, .memoryWord, .over, .pick,
   .pop, .procWord, .put, .returnWord, .rot, .size, .swap, .whileWord]

def text : Keyword → String
  | .doWord => "do"
  | .dup => "dup"
  | .elifWord => "elif"
  | .elseWord => "else"
  | .endWord => "end"
  | .ifWord => "if"
  | .inlineWord => "inline"
  | .memoryWord => "memory"
  | .over => "over"
  | .pick => "pick"
  | .pop => "pop"
  | .procWord => "proc"
  | .put => "put"
  | .returnWord => "return"
  | .rot => "rot"
  | .size => "size"
  | .swap => "swap"
  | .whileWord => "while"

end Keyword

namespace Token

/-- The token kinds that have a number, in the order of their numbers. -/
def numbered : List Token :=
  [.eof, .error, .name, .int, .str] ++ Operator.all.map .operator ++ [.load, .store, .syscall] ++
    Keyword.all.map .keyword

def ofCode (code : Nat) : Token :=
  numbered[code]?.getD (.other code)

def code : Token → Nat
  | .other n => n
  | t => numbered.idxOf t

def text : Token → String
  | .eof => "EOF"
  | .error => "ERROR"
  | .name => "NAME"
  | .int => "INT"
  | .str => "STRING"
  | .operator o => o.text
  | .load => "LOAD"
  | .store => "STORE"
  | .syscall => "SYSCALL"
  | .keyword k => k.text
  | .other n => "token(" ++ toString n ++ ")"

def isOperator : Token → Bool
  | .operator _ => true
  | _ => false

def isKeyword : Token → Bool
  | .keyword _ => true
  | .operator .both => true
  | .operator .either => true
  | _ => false

def reserved : List (String × Token) :=
  (Token.operator .both :: .operator .either :: Keyword.all.map .keyword).map fun t => (t.text, t)

/-- The most arguments a system call token can name. -/
def syscallLimit : Nat := 6

/-- The number of values named by a word of the form `syscallN`. -/
def syscallArgs? (word : String) : Option Nat :=
  (List.range (syscallLimit + 1)).find? fun n => word == "syscall" ++ toString n

/-- The kind of a word, and its argument count if it is a system call. Case matters. -/
def ofWord (word : String) : Token × Nat :=
  match reserved.lookup word, syscallArgs? word with
  | some t, _ => (t, 0)
  | none, some n => (.syscall, n)
  | none, none => (.name, 0)

/-- Whether memory can be read and written in units of that many bytes. -/
def isWidth (w : Int) : Bool :=
  w == 1 || w == 2 || w == 4 || w == 8

end Token

end StackLang
