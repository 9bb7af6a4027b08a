import StackLang.Listing.Tree
import StackLang.Text.Hex
/-!
Trees as indented JSON text. Fields stand in the order of their names, and characters that mean
something in a web page are escaped.
-/

namespace StackLang.Json

def escape (c : Char) : List Char :=
  if c = '"' ∨ c = '\\' then ['\\', c]
  else if c = '\n' then ['\\', 'n']
  else if c = '\r' then ['\\', 'r']
  else if c = '\t' then ['\\', 't']
  else if c = '\x08' then ['\\', 'b']
  else if c = '\x0c' then ['\\', 'f']
  else if c.toNat < 0x20 ∨ c = '<' ∨ c = '>' ∨ c = '&' ∨ c.toNat = 0x2028 ∨ c.toNat = 0x2029 then
    '\\' :: 'u' :: Text.hexDigits 4 c.toNat
  else [c]

def string (s : String) : String :=
  String.ofList ('"' :: s.toList.flatMap escape ++ ['"'])

/-- The start of a line at a depth of indentation. -/
def newline (depth : Nat) : String :=
  "\n" ++ String.ofList (List.replicate (2 * depth) ' ')

/-- Items between brackets, each on lines of its own. -/
def enclose (left right : String) (depth : Nat) (items : List String) : String :=
  if items.isEmpty then left ++ right
  else left ++ ",".intercalate (items.map (newline (depth + 1) ++ ·)) ++ newline depth ++ right

/-- The order of fields: by name. -/
def byKey (a b : String × String) : Bool :=
  a.1 ≤ b.1

mutual

/-- A value as JSON text at a depth of indentation. -/
def render (depth : Nat) : Tree → String
  | .text s => string s
  | .number n => toString n
  | .list items => enclose "[" "]" depth (renderList (depth + 1) items)
  | .record fields =>
    enclose "\x7b" "\x7d" depth
      (((renderFields (depth + 1) fields).mergeSort byKey).map fun (k, v) => string k ++ ": " ++ v)

def renderList (depth : Nat) : List Tree → List String
  | [] => []
  | x :: xs => render depth x :: renderList depth xs

/-- The fields of a record with their values rendered. -/
def renderFields (depth : Nat) : List TreeField → List (String × String)
  | [] => []
  | .mk k v :: rest => (k, render depth v) :: renderFields depth rest

end

/-- A value as a JSON document, which ends with a line feed. -/
def document (t : Tree) : String :=
  render 0 t ++ "\n"

end StackLang.Json
