import StackLang.Pos
import StackLang.Text.Utf8
/-!
Reading places: what is left of a source text, and where in the text it begins.
-/

namespace StackLang.Source

open StackLang.Text

/-- A reading place. The first glyph of `rest` is the current one, at `line` and `col`; `stray` is
the place of the first byte met so far that begins no character. -/
structure Cursor where
  rest : List Glyph
  line : Nat := 1
  col : Nat := 1
  stray : Option (Nat × Nat) := none

namespace Cursor

/-- Notes the current glyph if it is the first stray byte met. -/
def note (c : Cursor) : Cursor :=
  match c.rest, c.stray with
  | .stray :: _, none => { c with stray := some (c.line, c.col) }
  | _, _ => c

def start (bytes : List UInt8) : Cursor :=
  note { rest := glyphs bytes }

/-- The current character, if the text is not over. -/
def current (c : Cursor) : Option Char :=
  c.rest.head?.map Glyph.value

/-- The cursor one glyph further. After a line feed a new line begins. -/
def advance (c : Cursor) : Cursor :=
  match c.rest with
  | [] => c
  | g :: rest =>
    if g = .char '\n' then note { c with rest, line := c.line + 1, col := 1 }
    else note { c with rest, col := c.col + 1 }

def skip : Nat → Cursor → Cursor
  | 0, c => c
  | n + 1, c => skip n c.advance

def pos (c : Cursor) (file : String) : Pos :=
  ⟨file, c.line, c.col⟩

/-- The longest run of characters from the cursor that satisfy `p`. -/
def run (p : Char → Bool) (c : Cursor) : List Char :=
  (c.rest.takeWhile fun g => p g.value).map Glyph.value

end Cursor

end StackLang.Source
