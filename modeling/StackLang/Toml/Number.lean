import StackLang.Text.Hex
/-!
Numbers of TOML documents. Integers are decimal, or hexadecimal, octal or binary after a mark;
underscores may stand between digits. Of floating-point numbers only their form and range matter
here.
-/

namespace StackLang.Toml

def isDigit (c : Char) : Bool :=
  '0' ≤ c && c ≤ '9'

def isHex (c : Char) : Bool :=
  (Text.hexValue? c).isSome

/-- The digits that a mark after a leading zero allows, and their base. -/
def base? (mark : Char) : Option (Nat × (Char → Bool)) :=
  match mark with
  | 'b' => some (2, fun c => c = '0' || c = '1')
  | 'o' => some (8, fun c => '0' ≤ c && c ≤ '7')
  | 'x' => some (16, isHex)
  | _ => none

/-- Whether every underscore stands after a digit and the text ends in one. The flag says that a
digit came before. -/
def underscoresOk : Bool → List Char → Bool
  | afterDigit, [] => afterDigit
  | afterDigit, c :: rest =>
    if c = '_' && !afterDigit then false else underscoresOk (isHex c) rest

/-- Whether a number begins with a zero that it should not have. -/
def hasLeadingZero : List Char → Bool
  | '0' :: c :: _ => (base? c).isNone
  | '-' :: '0' :: _ :: _ => true
  | '+' :: '0' :: _ :: _ => true
  | _ => false

/-- The number that digits denote in a base. Underscores do not count. -/
def digitsValue (base : Nat) (cs : List Char) : Nat :=
  (cs.filter (· != '_')).foldl (fun n c => base * n + (Text.hexValue? c).getD 0) 0

/-- The value of an integer without regard to its range. -/
def integerValue : List Char → Int
  | '-' :: cs => -(digitsValue 10 cs : Int)
  | '+' :: cs => digitsValue 10 cs
  | '0' :: mark :: cs =>
    match base? mark with
    | some (base, _) => digitsValue base cs
    | none => digitsValue 10 ('0' :: mark :: cs)
  | cs => digitsValue 10 cs

/-- The integer written by a token, if it is well formed and fits in 64 bits. -/
def integer? (token : List Char) : Option Int :=
  let n := integerValue token
  if underscoresOk false token && !hasLeadingZero token && Int64.minValue.toInt ≤ n &&
      n ≤ Int64.maxValue.toInt then some n
  else none

/-- The parts of a text between the characters that satisfy `p`. Empty parts are left out. -/
def fields (p : Char → Bool) (cs : List Char) : List (List Char) :=
  let step (c : Char) (acc : List (List Char)) : List (List Char) :=
    match acc with
    | [] => if p c then [[]] else [[c]]
    | part :: rest => if p c then [] :: part :: rest else (c :: part) :: rest
  (cs.foldr step []).filter (! ·.isEmpty)

/-- Whether every period is followed by a digit. -/
def periodsOk : List Char → Bool
  | [] => true
  | '.' :: rest => (rest.head?.any isDigit) && periodsOk rest
  | _ :: rest => periodsOk rest

def unsigned : List Char → List Char
  | '-' :: cs => cs
  | '+' :: cs => cs
  | cs => cs

/-- The greatest number that rounds to a finite one of 64 bits lies below this bound. -/
def floatBound : Nat := Nat.pow 2 1024 - Nat.pow 2 970

/-- Whether digits with an exponent of ten stay below the bound. Numbers that are far from it are
settled by their length. -/
def inFloatRange (digits : List Char) (exponent : Int) : Bool :=
  let m := digitsValue 10 digits
  let magnitude : Int := (toString m).length + exponent
  if m = 0 || magnitude < 300 then true
  else if 320 < magnitude then false
  else if 0 ≤ exponent then m * Nat.pow 10 exponent.toNat < floatBound
  else m < floatBound * Nat.pow 10 (-exponent).toNat

/-- Whether a decimal number without underscores has a proper form and range: digits, then a
fraction and an exponent on demand. -/
def decimalOk (cs : List Char) : Bool :=
  let whole := (unsigned cs).takeWhile isDigit
  let rest := (unsigned cs).dropWhile isDigit
  let fraction := match rest with
    | '.' :: r => r.takeWhile isDigit
    | _ => []
  let rest := match rest with
    | '.' :: r => r.dropWhile isDigit
    | r => r
  let finish (exponent : Int) : Bool :=
    !whole.isEmpty && inFloatRange (whole ++ fraction) (exponent - fraction.length)
  match rest with
  | [] => finish 0
  | e :: r =>
    let digits := unsigned r
    let n : Int := digitsValue 10 digits
    (e = 'e' || e = 'E') && !digits.isEmpty && digits.all isDigit &&
      finish (if r.head? = some '-' then -n else n)

/-- Whether a token is a well-formed floating-point number. -/
def floatOk (token : List Char) : Bool :=
  let special := ["inf", "nan"].contains (String.ofList (unsigned token))
  let parts := fields (fun c => c = '.' || c = 'e' || c = 'E') token
  special ||
    (parts.all (underscoresOk false) && !(parts.head?.any hasLeadingZero) && periodsOk token &&
      decimalOk (token.filter (· != '_')))

end StackLang.Toml
