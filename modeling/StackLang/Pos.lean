/-!
Places in a source text.
-/

namespace StackLang

/-- Where a token stands: the file, the line and the column, both counted from one, columns in
characters. Line zero means no place at all. -/
structure Pos where
  file : String
  line : Nat
  col : Nat
  deriving DecidableEq, Repr, Inhabited

namespace Pos

/-- The absent place. -/
def none : Pos := ⟨"", 0, 0⟩

def isValid (p : Pos) : Bool :=
  0 < p.line

/-- A place as text: the file name, unless it is empty, then line and column. -/
def text (p : Pos) : String :=
  let spot := toString p.line ++ ":" ++ toString p.col
  if p.file = "" then spot else p.file ++ ":" ++ spot

/-- How a diagnostic begins: with the place, with the file alone if the place is not valid, or
with nothing. -/
def heading (p : Pos) : String :=
  if p.isValid then p.text ++ ": "
  else if p.file = "" then ""
  else p.file ++ ": "

end Pos

end StackLang
