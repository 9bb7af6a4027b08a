import StackLang.Toml.Number
/-!
Dates and times of TOML documents: a date, a time of day, or both with an optional offset from
universal time. Seconds may be left out. Only their form matters here.
-/

namespace StackLang.Toml

def fixed? (count : Nat) (cs : List Char) : Option (Nat × List Char) :=
  let digits := cs.take count
  if digits.length = count && digits.all isDigit then some (digitsValue 10 digits, cs.drop count)
  else none

def expect? (c : Char) : List Char → Option (List Char)
  | d :: rest => if c = d then some rest else none
  | [] => none

def daysIn (year month : Nat) : Nat :=
  let leap := year % 4 = 0 && (year % 100 ≠ 0 || year % 400 = 0)
  if month = 2 then (if leap then 29 else 28)
  else if [4, 6, 9, 11].contains month then 30
  else 31

def date? (cs : List Char) : Option (List Char) := do
  let (year, cs) ← fixed? 4 cs
  let cs ← expect? '-' cs
  let (month, cs) ← fixed? 2 cs
  let cs ← expect? '-' cs
  let (day, cs) ← fixed? 2 cs
  if 1 ≤ month && month ≤ 12 && 1 ≤ day && day ≤ daysIn year month then some cs else none

/-- Takes a fraction of a second, if there is one. -/
def fraction (cs : List Char) : List Char :=
  match cs with
  | '.' :: c :: rest => if isDigit c then rest.dropWhile isDigit else cs
  | _ => cs

def time? (cs : List Char) : Option (List Char) := do
  let (hour, cs) ← fixed? 2 cs
  let cs ← expect? ':' cs
  let (minute, cs) ← fixed? 2 cs
  if 24 ≤ hour || 60 ≤ minute then none
  else
    match cs with
    | ':' :: cs => do
      let (second, cs) ← fixed? 2 cs
      if 60 ≤ second then none else some (fraction cs)
    | cs => some cs

/-- Takes an offset from universal time, if there is one. -/
def offset? (cs : List Char) : Option (List Char) :=
  match cs with
  | [] => some []
  | 'Z' :: rest => some rest
  | c :: rest => do
    let (hour, rest) ← fixed? 2 rest
    let rest ← expect? ':' rest
    let (minute, rest) ← fixed? 2 rest
    if (c = '+' || c = '-') && hour ≤ 24 && minute ≤ 60 then some rest else none

/-- Whether a token is a date, a time of day or both. Letters may be lower case, and a space may
stand between date and time. -/
def momentOk (token : List Char) : Bool :=
  let cs := token.map fun c =>
    if c = 'z' then 'Z' else if c = 't' || c = ' ' then 'T' else c
  let whole := do
    let rest ← date? cs
    match rest with
    | [] => some []
    | 'T' :: rest => offset? (← time? rest)
    | _ => none
  whole == some [] || time? cs == some []

end StackLang.Toml
