import StackLang.Source.Cursor
import StackLang.Source.Diagnostic
/-!
A source text divided into tokens. Blanks and comments separate tokens; a word ends only at a
blank. Reading stops at the first fault, which is either a byte that begins no character or a
malformed literal.
-/

namespace StackLang.Source

open StackLang.Text

def isSeparator (c : Char) : Bool :=
  c = ' ' || c = '\t' || c = '\r' || c = '\n' || c = '\x0b' || c = '\x0c'

def isDigit (c : Char) : Bool :=
  '0' ≤ c && c ≤ '9'

/-- Characters that begin a comment, which lasts to the end of its line. -/
def opensComment (c : Char) : Bool :=
  c = ';' || c = '#'

/-- How many glyphs of separators and comments stand at the front. The first argument says whether
a comment is open. -/
def gapLength : Bool → List Glyph → Nat
  | _, [] => 0
  | true, g :: rest =>
    if g.value = '\n' then gapLength false rest + 1 else gapLength true rest + 1
  | false, g :: rest =>
    if isSeparator g.value then gapLength false rest + 1
    else if opensComment g.value then gapLength true rest + 1
    else 0

def digitsValue (digits : List Char) : Nat :=
  digits.foldl (fun n d => 10 * n + (d.toNat - '0'.toNat)) 0

/-- The character denoted by a backslash and the given one. -/
def escaped? (c : Char) : Option Char :=
  if c = 'n' then some '\n'
  else if c = 'r' then some '\r'
  else if c = 't' then some '\t'
  else if c = '0' then some (Char.ofNat 0)
  else if c = '\\' ∨ c = '"' ∨ c = '\'' then some c
  else none

/-- How a string literal goes on after its opening quote. Each case counts the glyphs up to the
place it speaks of: past the closing quote, at the end of the text, or at the character after a
backslash that has no meaning there. -/
inductive StringRest where
  | closed (length : Nat) (raw value : List Char)
  | unclosed (length : Nat)
  | badEscape (length : Nat) (c : Option Char)

/-- The rest of a literal after `length` more glyphs, which were written `raw` and denote
`value`. -/
def StringRest.after (length : Nat) (raw value : List Char) : StringRest → StringRest
  | .closed n r v => .closed (length + n) (raw ++ r) (value ++ v)
  | .unclosed n => .unclosed (length + n)
  | .badEscape n c => .badEscape (length + n) c

/-- Reads a string literal after its opening quote. -/
def stringRest : List Glyph → StringRest
  | [] => .unclosed 0
  | g :: rest =>
    if g.value = '"' then .closed 1 [] []
    else if g.value = '\\' then
      match rest with
      | [] => .badEscape 1 none
      | e :: rest =>
        match escaped? e.value with
        | some c => (stringRest rest).after 2 ['\\', e.value] [c]
        | none => .badEscape 1 (some e.value)
    else (stringRest rest).after 1 [g.value] [g.value]

/-- A token that was read, the place after it, and what is wrong with it, if anything. -/
structure Reading where
  lexeme : Lexeme
  cursor : Cursor
  fault : Option Error := none

def lexError (pos : Pos) (cause : LexCause) : Error :=
  ⟨pos, .lex cause⟩

/-- The cause of an escape that ends too early or has no meaning. -/
def escapeCause : Option Char → LexCause
  | none => .escapeOpen
  | some c => .escapeUnknown c

def readOperator (file : String) (c : Cursor) (length : Nat) (o : Operator) : Reading :=
  ⟨{ tok := .operator o, pos := c.pos file, lit := o.text }, c.skip length, none⟩

def readString (file : String) (c : Cursor) : Reading :=
  let pos := c.pos file
  let blank : Lexeme := { tok := .str, pos }
  match stringRest c.rest.tail with
  | .closed n raw value =>
    ⟨{ blank with lit := String.ofList raw, str := String.ofList value }, c.skip (n + 1), none⟩
  | .unclosed n => ⟨blank, c.skip (n + 1), some (lexError pos .stringOpen)⟩
  | .badEscape n e =>
    let c' := c.skip (n + 1)
    ⟨blank, c', some (lexError (c'.pos file) (escapeCause e))⟩

/-- Ends a character literal of `length` glyphs before its closing quote. -/
def closeChar (file : String) (c : Cursor) (length : Nat) (lit : List Char) (value : Char) :
    Reading :=
  let pos := c.pos file
  let c' := c.skip length
  if c'.current = some '\'' then
    ⟨{ tok := .int, pos, lit := String.ofList (lit ++ ['\'']),
       value := Int64.ofInt value.toNat }, c'.advance, none⟩
  else ⟨{ tok := .int, pos }, c', some (lexError pos .charOpen)⟩

/-- Reads a character literal, which denotes the number of its character. -/
def readChar (file : String) (c : Cursor) : Reading :=
  let pos := c.pos file
  let refuse (length : Nat) (cause : LexCause) : Reading :=
    ⟨{ tok := .int, pos }, c.skip length, some (lexError pos cause)⟩
  match c.rest.tail with
  | [] => refuse 1 .charOpen
  | g :: rest =>
    if g.value = '\n' then refuse 1 .charOpen
    else if g.value = '\'' then refuse 1 .charEmpty
    else if g.value = '\\' then
      match rest with
      | [] =>
        let c' := c.skip 2
        ⟨{ tok := .int, pos }, c', some (lexError (c'.pos file) .escapeOpen)⟩
      | e :: _ =>
        match escaped? e.value with
        | some value => closeChar file c 3 ['\'', '\\', e.value] value
        | none =>
          let c' := c.skip 2
          ⟨{ tok := .int, pos }, c', some (lexError (c'.pos file) (.escapeUnknown e.value))⟩
    else if 0x80 ≤ g.value.toNat then refuse 1 .charWide
    else closeChar file c 2 ['\'', g.value] g.value

/-- Reads a decimal integer, with its sign if it has one. -/
def readNumber (file : String) (c : Cursor) : Reading :=
  let pos := c.pos file
  let sign := if c.current = some '-' then ['-'] else []
  let digits := (c.skip sign.length).run isDigit
  let text := String.ofList (sign ++ digits)
  let magnitude : Int := digitsValue digits
  let value := if sign = [] then magnitude else -magnitude
  let c' := c.skip (sign.length + digits.length)
  if Int64.minValue.toInt ≤ value ∧ value ≤ Int64.maxValue.toInt then
    ⟨{ tok := .int, pos, lit := text, value := Int64.ofInt value }, c', none⟩
  else ⟨{ tok := .int, pos, lit := text }, c', some (lexError pos (.integerRange text))⟩

/-- Reads the byte width that follows the mark of a memory access. -/
def readWidth (file : String) (c : Cursor) (mark : Char) (tok : Token) : Reading :=
  let pos := c.pos file
  let digits := c.advance.run isDigit
  let text := String.ofList (mark :: digits)
  let width : Int := digitsValue digits
  let c' := c.skip (digits.length + 1)
  if Token.isWidth width then ⟨{ tok, pos, lit := text, width }, c', none⟩
  else
    ⟨{ tok, pos, lit := text }, c', some (lexError pos (.badWidth (String.ofList digits) text))⟩

/-- Reads a word: everything up to the next separator. -/
def readWord (file : String) (c : Cursor) : Reading :=
  let word := c.run fun ch => !isSeparator ch
  let text := String.ofList word
  let (tok, argc) := Token.ofWord text
  ⟨{ tok, pos := c.pos file, lit := text, argc }, c.skip word.length, none⟩

/-- Whether the glyph after the current one is a character that satisfies `p`. -/
def followedBy (p : Char → Bool) (c : Cursor) : Bool :=
  match c.rest with
  | _ :: g :: _ => p g.value
  | _ => false

def readToken (file : String) (c : Cursor) : Reading :=
  match c.current with
  | none => ⟨{ tok := .eof, pos := c.pos file }, c, none⟩
  | some '"' => readString file c
  | some '\'' => readChar file c
  | some '!' =>
    if followedBy (· == '=') c then readOperator file c 2 .neq
    else if followedBy isDigit c then readWidth file c '!' .load
    else ⟨{ tok := .load, pos := c.pos file }, c.advance,
      some (lexError (c.pos file) .bangAlone)⟩
  | some '@' =>
    if followedBy isDigit c then readWidth file c '@' .store
    else ⟨{ tok := .store, pos := c.pos file }, c.advance,
      some (lexError (c.pos file) .atAlone)⟩
  | some '=' => readOperator file c 1 .eql
  | some '+' => readOperator file c 1 .add
  | some '-' =>
    if followedBy isDigit c then readNumber file c else readOperator file c 1 .sub
  | some '*' => readOperator file c 1 .mul
  | some '/' => readOperator file c 1 .div
  | some '%' => readOperator file c 1 .rem
  | some '<' =>
    if followedBy (· == '=') c then readOperator file c 2 .leq else readOperator file c 1 .lss
  | some '>' =>
    if followedBy (· == '=') c then readOperator file c 2 .geq else readOperator file c 1 .gtr
  | some ch => if isDigit ch then readNumber file c else readWord file c

/-- A source text being read: the last token read, and the first fault met. -/
structure Scanner where
  file : String
  cursor : Cursor
  current : Lexeme := { tok := .eof, pos := Pos.none }
  fault : Option Error := none

namespace Scanner

def strayFault (file : String) (c : Cursor) : Option Error :=
  c.stray.map fun (line, col) => lexError ⟨file, line, col⟩ .strayByte

def ofBytes (file : String) (bytes : List UInt8) : Scanner :=
  let cursor := Cursor.start bytes
  { file, cursor, fault := strayFault file cursor }

/-- A scanner for a text that could not be read. -/
def unreadable (file reason : String) : Scanner :=
  { file, cursor := { rest := [] }, fault := some (lexError ⟨file, 1, 0⟩ (.unreadable reason)) }

/-- Reads the next token. A stray byte comes before any other fault of the same token, since the
scanner meets it first; after a fault nothing is read any more. -/
def next (s : Scanner) : Scanner :=
  if s.fault.isSome then { s with current := { s.current with tok := .error } }
  else
    let r := readToken s.file (s.cursor.skip (gapLength false s.cursor.rest))
    match (strayFault s.file r.cursor).or r.fault with
    | none => { s with cursor := r.cursor, current := r.lexeme }
    | some e =>
      { s with cursor := r.cursor, current := { r.lexeme with tok := .error }, fault := some e }

/-- The tokens from here to the end of the text, which is the last of them. The first argument
bounds their number. -/
def tokens : Nat → Scanner → Except Error (List Lexeme)
  | 0, _ => .ok []
  | fuel + 1, s =>
    let s := s.next
    match s.fault with
    | some e => .error e
    | none =>
      if s.current.tok = .eof then .ok [s.current]
      else do
        let rest ← tokens fuel s
        return s.current :: rest

/-- All tokens of a text. Every token but the last takes at least one glyph. -/
def all (s : Scanner) : Except Error (List Lexeme) :=
  s.tokens (s.cursor.rest.length + 1)

end Scanner

/-- Divides a source text into tokens, the last of which marks its end. -/
def tokenize (file : String) (bytes : List UInt8) : Except Error (List Lexeme) :=
  (Scanner.ofBytes file bytes).all

end StackLang.Source
