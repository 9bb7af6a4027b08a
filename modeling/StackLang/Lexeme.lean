import StackLang.Pos
import StackLang.Text.Quoted
import StackLang.Token
/-!
Tokens with their place and payload.
-/

namespace StackLang

/-- A token as read from a source text. For a string literal `lit` is the text between the quotes
as it was written and `str` the text it denotes; `value`, `width` and `argc` belong to integers,
memory accesses and system calls. A field that does not belong to the kind is empty or zero. -/
structure Lexeme where
  tok : Token
  pos : Pos
  lit : String := ""
  str : String := ""
  value : Int64 := 0
  width : Int := 0
  argc : Int := 0
  deriving DecidableEq, Repr

namespace Lexeme

def text (l : Lexeme) : String :=
  match l.tok with
  | .name => "NAME(" ++ l.lit ++ ")"
  | .int => "INT(" ++ toString l.value.toInt ++ ")"
  | .str => "STRING(" ++ Text.quote l.lit ++ ")"
  | .load => "LOAD(" ++ toString l.width ++ ")"
  | .store => "STORE(" ++ toString l.width ++ ")"
  | .syscall => "SYSCALL(" ++ toString l.argc ++ ")"
  | t => t.text

def described (l : Lexeme) : String :=
  match l.tok with
  | .eof => "end of file"
  | .name => "name " ++ l.lit
  | .int => "integer " ++ l.lit
  | .str => "string " ++ Text.quote l.lit
  | .load | .store | .syscall => l.lit
  | t => Text.quote t.text

end Lexeme

end StackLang
