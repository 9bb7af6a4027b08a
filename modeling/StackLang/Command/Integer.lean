import StackLang.Text.Hex
/-!
Integers as they are written on the command line: in decimal, or with a zero and a letter in front
in base two, eight or sixteen; a zero alone in front means base eight. Underscores may stand
between digits.
-/

namespace StackLang.Command

/-- Why a text is no integer that can be used. -/
inductive IntegerFault where
  | malformed
  | outOfRange
  deriving DecidableEq, Repr

def IntegerFault.text : IntegerFault → String
  | .malformed => "parse error"
  | .outOfRange => "value out of range"

/-- The value of a digit in any base up to thirty-six. -/
def digit? (c : Char) : Option Nat :=
  if '0' ≤ c ∧ c ≤ '9' then some (c.toNat - '0'.toNat)
  else if 'a' ≤ c.toLower ∧ c.toLower ≤ 'z' then some (c.toLower.toNat - 'a'.toNat + 10)
  else none

/-- The base of digits that begin with a zero and a letter, if the letter names one. -/
def letterBase? (c : Char) : Option Nat :=
  match c.toLower with
  | 'b' => some 2
  | 'o' => some 8
  | 'x' => some 16
  | _ => none

/-- The base of an integer without a sign, and the digits in that base. -/
def splitBase : List Char → Nat × List Char
  | '0' :: c :: d :: rest =>
    match letterBase? c with
    | some base => (base, d :: rest)
    | none => (8, c :: d :: rest)
  | '0' :: rest => (8, rest)
  | cs => (10, cs)

/-- The number of different magnitudes that are read at all. -/
def magnitudes : Nat := UInt64.size

/-- The magnitude of digits, of which those read so far give `n`. The first digit that is not one
ends the reading, and so does the first that makes the magnitude too large. -/
def magnitude (base : Nat) : Nat → List Char → Except IntegerFault Nat
  | n, [] => .ok n
  | n, c :: rest =>
    if c = '_' then magnitude base n rest
    else
      match digit? c with
      | none => .error .malformed
      | some d =>
        if base ≤ d then .error .malformed
        else if magnitudes ≤ n * base + d then .error .outOfRange
        else magnitude base (n * base + d) rest

/-- Whether every underscore stands after a digit and before another; `after` says whether a digit
stands in front. -/
def underscoresFit : (after : Bool) → List Char → Bool
  | _, [] => true
  | after, '_' :: rest => after && !rest.isEmpty && underscoresFit false rest
  | _, _ :: rest => underscoresFit true rest

/-- Whether the underscores of an integer without a sign are well placed. A zero and a letter in
front count as a digit. -/
def wellSpaced : List Char → Bool
  | '0' :: c :: rest =>
    if (letterBase? c).isSome then underscoresFit true rest
    else underscoresFit true (c :: rest)
  | cs => underscoresFit false cs

/-- The magnitude of an integer without a sign. -/
def unsigned (cs : List Char) : Except IntegerFault Nat :=
  if cs = [] then .error .malformed
  else
    let (base, digits) := splitBase cs
    match magnitude base 0 digits with
    | .error f => .error f
    | .ok n => if wellSpaced cs then .ok n else .error .malformed

/-- A magnitude with a sign, as an integer of sixty-four bits. -/
def signed (negative : Bool) (n : Nat) : Except IntegerFault Int :=
  let value : Int := if negative then -n else n
  if Int64.minValue.toInt ≤ value ∧ value ≤ Int64.maxValue.toInt then .ok value
  else .error .outOfRange

def integer (s : String) : Except IntegerFault Int :=
  match s.toList with
  | '-' :: rest => unsigned rest >>= signed true
  | '+' :: rest => unsigned rest >>= signed false
  | cs => unsigned cs >>= signed false

end StackLang.Command
