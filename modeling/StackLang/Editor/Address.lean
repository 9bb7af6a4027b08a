import StackLang.Text.Hex
/-!
Network addresses as they stand in brackets in a URI: eight groups of hexadecimal digits with
colons between them. The last two groups may be written as four decimal numbers, and one run of
zero groups may be left out, which two colons show.
-/

namespace StackLang.Uri

/-- Where a part begins in a list, if it stands there at all. -/
def indexOf? (part : List Char) : List Char → Option Nat
  | [] => if part = [] then some 0 else none
  | c :: rest => if part.isPrefixOf (c :: rest) then some 0 else (indexOf? part rest).map (· + 1)

/-- A group: one to four hexadecimal digits. -/
def isGroup (cs : List Char) : Bool :=
  0 < cs.length && cs.length ≤ 4 && cs.all fun c => (Text.hexValue? c).isSome

/-- A decimal number below 256 without needless zeros. -/
def isOctet (cs : List Char) : Bool :=
  (List.range 256).any fun n => Nat.toDigits 10 n = cs

/-- Four decimal numbers with dots between them. -/
def isQuad (cs : List Char) : Bool :=
  let numbers := cs.splitOn '.'
  numbers.length = 4 && numbers.all isOctet

/-- The fields of a text between its colons. The empty text has none. -/
def fields (cs : List Char) : List (List Char) :=
  if cs = [] then [] else cs.splitOn ':'

/-- How many groups fields stand for. Only the last field may be four decimal numbers, which stand
for two groups. -/
def groupCount? : List (List Char) → Option Nat
  | [] => some 0
  | [last] => if isGroup last then some 1 else if isQuad last then some 2 else none
  | field :: rest => if isGroup field then (groupCount? rest).map (· + 1) else none

/-- Whether a text is an address: eight groups, or fewer around two colons. -/
def isAddress (cs : List Char) : Bool :=
  match indexOf? [':', ':'] cs with
  | none => groupCount? (fields cs) = some 8
  | some n =>
    let front := fields (cs.take n)
    front.all isGroup &&
      (groupCount? (fields (cs.drop (n + 2)))).any fun back => front.length + back < 8

end StackLang.Uri
