import StackLang.Source.Scanner
/-!
The table of a text's tokens.
-/

namespace StackLang

/-- One character of a literal in the table. The escapes are those that the language reads
back. -/
def literalChar (c : Char) : List Char :=
  if c = '\n' then ['\\', 'n']
  else if c = '\t' then ['\\', 't']
  else if c = '\r' then ['\\', 'r']
  else if c = '\\' then ['\\', '\\']
  else if c = '"' then ['\\', '"']
  else if c = Char.ofNat 0 then ['\\', '0']
  else [c]

def displayLiteral (s : String) : String :=
  String.ofList ('"' :: s.toList.flatMap literalChar ++ ['"'])

/-- A text filled up with spaces to a number of characters. -/
def padRight (width : Nat) (s : String) : String :=
  s ++ String.ofList (List.replicate (width - s.length) ' ')

def tokenRow (pos kind literal : String) : String :=
  padRight 20 pos ++ " " ++ padRight 12 kind ++ " " ++ literal ++ "\n"

def tokenHeader : String :=
  let rule (n : Nat) := String.ofList (List.replicate n '-')
  tokenRow "POSITION" "TOKEN" "LITERAL" ++ tokenRow (rule 20) (rule 12) (rule 20)

/-- The row of a token. A string shows the text it denotes, unless that is empty. -/
def Lexeme.row (l : Lexeme) : String :=
  tokenRow l.pos.text l.tok.text (displayLiteral (if l.str = "" then l.lit else l.str))

/-- The rows of the tokens that can be read, and the fault that ends them, if any. The number
bounds the tokens. -/
def tokenRows : Nat → Source.Scanner → String × Option Source.Error
  | 0, _ => ("", none)
  | fuel + 1, s =>
    let s := s.next
    match s.fault with
    | some e => ("", some e)
    | none =>
      if s.current.tok = .eof then (s.current.row, none)
      else
        let (rows, fault) := tokenRows fuel s
        (s.current.row ++ rows, fault)

/-- The table of a text's tokens, and the fault that cuts it short, if any. -/
def Source.Scanner.table (s : Source.Scanner) : String × Option Source.Error :=
  let (rows, fault) := tokenRows (s.cursor.rest.length + 1) s
  (tokenHeader ++ rows, fault)

end StackLang
