import StackLang.Toml.Moment
/-!
The statements of a TOML document: table headers and key–value pairs, as they are written.
-/

namespace StackLang.Toml

/-- A dotted key. -/
abbrev Key := List String

mutual

/-- A value as it is written. Of numbers with a fraction, dates and times only their presence is
kept. -/
inductive Literal where
  | text (s : String)
  | integer (n : Int)
  | boolean (b : Bool)
  | float
  | moment
  | array (items : List Literal)
  | inline (pairs : List Pair)

/-- A key and its value inside braces. -/
inductive Pair where
  | mk (key : Key) (value : Literal)

end

/-- A statement: the header of a table, the header of one more table of an array, or a key with
its value. -/
inductive Statement where
  | table (key : Key)
  | tableOfArray (key : Key)
  | pair (key : Key) (value : Literal)

def isSpace (c : Char) : Bool :=
  c = ' ' || c = '\t'

def isNewline (c : Char) : Bool :=
  c = '\n' || c = '\r'

/-- Whether a text has no control characters other than tabs and line ends, and no carriage return
without its line feed. -/
def isPlain : List Char → Bool
  | [] => true
  | c :: rest =>
    let ok :=
      if c = '\r' then rest.head? = some '\n'
      else c = '\t' || c = '\n' || (0x20 ≤ c.toNat && c.toNat ≠ 0x7f)
    ok && isPlain rest

def skipSpace (cs : List Char) : List Char :=
  cs.dropWhile isSpace

/-- Drops blanks, line ends and comments. The flag says that a comment is open. -/
def skipGap : Bool → List Char → List Char
  | _, [] => []
  | true, c :: rest => skipGap (!isNewline c) rest
  | false, c :: rest =>
    if isSpace c || isNewline c then skipGap false rest
    else if c = '#' then skipGap true rest
    else c :: rest

/-- Ends a statement: nothing but a comment may follow on its line. -/
def endLine? (cs : List Char) : Option (List Char) :=
  match skipSpace cs with
  | [] => some []
  | c :: rest => if isNewline c || c = '#' then some (c :: rest) else none

/-- The character with the code point that hexadecimal digits denote. -/
def hexScalar? (cs : List Char) : Option Char :=
  let n := digitsValue 16 cs
  if cs.all isHex && n.isValidChar then some (Char.ofNat n) else none

/-- The character that a letter after a backslash denotes. -/
def shortEscape? (c : Char) : Option Char :=
  match c with
  | 'b' => some '\x08'
  | 't' => some '\t'
  | 'n' => some '\n'
  | 'f' => some '\x0c'
  | 'r' => some '\r'
  | 'e' => some '\x1b'
  | '"' => some '"'
  | '\\' => some '\\'
  | _ => none

/-- Puts a character before a text that has been read. -/
def prepend? (c : Option Char) (r : Option (List Char × List Char)) :
    Option (List Char × List Char) := do
  let c ← c
  let (text, rest) ← r
  return (c :: text, rest)

/-- Reads a string in double quotes after its opening quote. -/
def basicString? : List Char → Option (List Char × List Char)
  | [] => none
  | '"' :: rest => some ([], rest)
  | '\\' :: 'x' :: a :: b :: rest => prepend? (hexScalar? [a, b]) (basicString? rest)
  | '\\' :: 'u' :: a :: b :: c :: d :: rest =>
    prepend? (hexScalar? [a, b, c, d]) (basicString? rest)
  | '\\' :: 'U' :: a :: b :: c :: d :: e :: f :: g :: h :: rest =>
    prepend? (hexScalar? [a, b, c, d, e, f, g, h]) (basicString? rest)
  | '\\' :: c :: rest => prepend? (shortEscape? c) (basicString? rest)
  | c :: rest =>
    if isNewline c || c = '\\' then none else prepend? (some c) (basicString? rest)

/-- Reads a string in single quotes after its opening quote. -/
def rawString? : List Char → Option (List Char × List Char)
  | [] => none
  | c :: rest =>
    if c = '\'' then some ([], rest)
    else if isNewline c then none
    else prepend? (some c) (rawString? rest)

/-- How reading goes on at a quote inside a string of several lines. -/
inductive QuoteRun where
  | closes (rest : List Char)
  | plain
  | tooLong

/-- Looks at the characters after a quote. Three quotes close the string unless a fourth follows,
for then the first belongs to the text. `before` counts the quotes that stand directly before, and
six in a row are too many; but the sixth is let pass if a backslash stands before the other
five. -/
def quoteRun (quote : Char) (before : Nat) (afterBackslash : Bool) (rest : List Char) : QuoteRun :=
  match rest with
  | a :: b :: rest =>
    if a = quote && b = quote then
      if rest.head? = some quote then
        if 5 < before + 3 || (before + 3 = 5 && !afterBackslash) then .tooLong else .plain
      else .closes rest
    else .plain
  | _ => .plain

/-- Reads a string of several lines in double quotes after its opening quotes. `quotes` counts the
quotes directly before, `slash` says that a backslash stands before those, and `trim` that blanks
are dropped, as they are after a backslash at the end of a line. -/
def multilineString? (quotes : Nat) (slash trim : Bool) :
    List Char → Option (List Char × List Char)
  | [] => none
  | '\\' :: 'x' :: a :: b :: rest =>
    prepend? (hexScalar? [a, b]) (multilineString? 0 false false rest)
  | '\\' :: 'u' :: a :: b :: c :: d :: rest =>
    prepend? (hexScalar? [a, b, c, d]) (multilineString? 0 false false rest)
  | '\\' :: 'U' :: a :: b :: c :: d :: e :: f :: g :: h :: rest =>
    prepend? (hexScalar? [a, b, c, d, e, f, g, h]) (multilineString? 0 false false rest)
  | '\\' :: c :: rest =>
    if isSpace c || isNewline c then
      if ((c :: rest).takeWhile fun c => isSpace c || isNewline c).contains '\n' then
        multilineString? 0 false true (c :: rest)
      else none
    else
      prepend? (shortEscape? c)
        (multilineString? (if c = '"' then 1 else 0) (c = '"' || c = '\\') false rest)
  | c :: rest =>
    if trim && (isSpace c || isNewline c) then multilineString? 0 false true rest
    else if c = '"' then
      match quoteRun '"' quotes slash rest with
      | .closes rest => some ([], rest)
      | .plain => prepend? (some c) (multilineString? (quotes + 1) slash false rest)
      | .tooLong => none
    else if c = '\\' then none
    else prepend? (some c) (multilineString? 0 false false rest)

/-- Reads a string of several lines in single quotes after its opening quotes. -/
def multilineRaw? (quotes : Nat) : List Char → Option (List Char × List Char)
  | [] => none
  | c :: rest =>
    if c = '\'' then
      match quoteRun '\'' quotes false rest with
      | .closes rest => some ([], rest)
      | .plain => prepend? (some c) (multilineRaw? (quotes + 1) rest)
      | .tooLong => none
    else prepend? (some c) (multilineRaw? 0 rest)

/-- Drops a line end directly after the opening quotes. -/
def dropFirstNewline : List Char → List Char
  | '\n' :: rest => rest
  | '\r' :: '\n' :: rest => rest
  | cs => cs

def isBare (c : Char) : Bool :=
  ('A' ≤ c && c ≤ 'Z') || ('a' ≤ c && c ≤ 'z') || isDigit c || c = '_' || c = '-'

def keyPart? (cs : List Char) : Option (String × List Char) :=
  match cs with
  | '"' :: rest => (basicString? rest).map fun (s, rest) => (String.ofList s, rest)
  | '\'' :: rest => (rawString? rest).map fun (s, rest) => (String.ofList s, rest)
  | _ =>
    let name := cs.takeWhile isBare
    if name.isEmpty then none else some (String.ofList name, cs.dropWhile isBare)

/-- Reads a key and the blanks around its parts. The number bounds the parts. -/
def key? : Nat → List Char → Option (Key × List Char)
  | 0, _ => none
  | fuel + 1, cs => do
    let (part, rest) ← keyPart? (skipSpace cs)
    match skipSpace rest with
    | '.' :: rest => do
      let (parts, rest) ← key? fuel rest
      return (part :: parts, rest)
    | rest => return ([part], rest)

/-- Reads a decimal number after what has been read of it already. -/
def decimal? (front cs : List Char) : Option (Literal × List Char) :=
  let isPart (c : Char) : Bool := isDigit c || c = '_'
  let isFloatPart (c : Char) : Bool :=
    isPart c || c = '.' || c = '-' || c = '+' || c = 'e' || c = 'E'
  let whole := front ++ cs.takeWhile isPart
  let rest := cs.dropWhile isPart
  if rest.head?.any fun c => c = '.' || c = 'e' || c = 'E' then
    if floatOk (whole ++ rest.takeWhile isFloatPart) then
      some (.float, rest.dropWhile isFloatPart)
    else none
  else (integer? whole).map fun n => (.integer n, rest)

def isMomentPart (c : Char) : Bool :=
  isDigit c || ['-', ':', 'T', 't', ' ', '.', 'Z', 'z', '+'].contains c

def trimEnd (cs : List Char) : List Char :=
  (cs.reverse.dropWhile (· = ' ')).reverse

/-- Reads what begins with a digit: a number, a date or a time. -/
def unsigned? (cs : List Char) : Option (Literal × List Char) :=
  let ordinary : Option (Literal × List Char) :=
    if cs.head? = some '0' && !(cs.tail.head?.any isDigit) then decimal? [] cs
    else if (cs.dropWhile isDigit).head?.any fun c => c = '-' || c = ':' then
      if momentOk (trimEnd (cs.takeWhile isMomentPart)) then
        some (.moment, cs.dropWhile isMomentPart)
      else none
    else decimal? [] cs
  match cs with
  | '0' :: mark :: rest =>
    match base? mark with
    | some (_, isPart) =>
      if rest.head?.any isPart then
        let isPart (c : Char) : Bool := isPart c || c = '_'
        (integer? ('0' :: mark :: rest.takeWhile isPart)).map fun n =>
          (.integer n, rest.dropWhile isPart)
      else none
    | none => ordinary
  | _ => ordinary

def signed? (sign : Char) (cs : List Char) : Option (Literal × List Char) :=
  match cs with
  | 'i' :: 'n' :: 'f' :: rest => some (.float, rest)
  | 'n' :: 'a' :: 'n' :: rest => some (.float, rest)
  | '0' :: mark :: _ => if (base? mark).isSome then none else decimal? [sign] cs
  | c :: _ => if isDigit c then decimal? [sign] cs else none
  | [] => none

/-- Reads a value other than an array or an inline table. -/
def scalar? (cs : List Char) : Option (Literal × List Char) :=
  let text (r : Option (List Char × List Char)) : Option (Literal × List Char) :=
    r.map fun (s, rest) => (.text (String.ofList s), rest)
  match cs with
  | '"' :: '"' :: '"' :: rest => text (multilineString? 0 false false (dropFirstNewline rest))
  | '"' :: rest => text (basicString? rest)
  | '\'' :: '\'' :: '\'' :: rest => text (multilineRaw? 0 (dropFirstNewline rest))
  | '\'' :: rest => text (rawString? rest)
  | 't' :: 'r' :: 'u' :: 'e' :: rest => some (.boolean true, rest)
  | 'f' :: 'a' :: 'l' :: 's' :: 'e' :: rest => some (.boolean false, rest)
  | 'i' :: 'n' :: 'f' :: rest => some (.float, rest)
  | 'n' :: 'a' :: 'n' :: rest => some (.float, rest)
  | '+' :: rest => signed? '+' rest
  | '-' :: rest => signed? '-' rest
  | c :: _ => if isDigit c then unsigned? cs else none
  | [] => none

mutual

/-- Reads a value. The number bounds what it holds. -/
def value? : Nat → List Char → Option (Literal × List Char)
  | 0, _ => none
  | fuel + 1, cs =>
    match skipSpace cs with
    | '[' :: rest => (items? fuel rest).map fun (items, rest) => (.array items, rest)
    | '\x7b' :: rest => (pairs? fuel rest).map fun (pairs, rest) => (.inline pairs, rest)
    | cs => scalar? cs

def items? : Nat → List Char → Option (List Literal × List Char)
  | 0, _ => none
  | fuel + 1, cs =>
    match skipGap false cs with
    | ']' :: rest => some ([], rest)
    | cs => do
      let (item, rest) ← value? fuel cs
      match skipGap false rest with
      | ',' :: rest => do
        let (items, rest) ← items? fuel rest
        return (item :: items, rest)
      | ']' :: rest => return ([item], rest)
      | _ => none

def pairs? : Nat → List Char → Option (List Pair × List Char)
  | 0, _ => none
  | fuel + 1, cs =>
    match skipGap false cs with
    | '\x7d' :: rest => some ([], rest)
    | cs => do
      let (key, rest) ← key? (cs.length + 1) cs
      let rest ← expect? '=' rest
      let (value, rest) ← value? fuel rest
      match skipGap false rest with
      | ',' :: rest => do
        let (pairs, rest) ← pairs? fuel rest
        return (.mk key value :: pairs, rest)
      | '\x7d' :: rest => return ([.mk key value], rest)
      | _ => none

end

def statement? (cs : List Char) : Option (Statement × List Char) :=
  let bound := cs.length + 1
  match cs with
  | '[' :: '[' :: rest => do
    let (key, rest) ← key? bound rest
    let rest ← expect? ']' (← expect? ']' rest)
    return (.tableOfArray key, rest)
  | '[' :: rest => do
    let (key, rest) ← key? bound rest
    let rest ← expect? ']' rest
    return (.table key, rest)
  | _ => do
    let (key, rest) ← key? bound cs
    let rest ← expect? '=' rest
    let (value, rest) ← value? (2 * bound) rest
    return (.pair key value, rest)

/-- Reads statements. The number bounds how many there are. -/
def statements? : Nat → List Char → Option (List Statement)
  | 0, _ => none
  | fuel + 1, cs =>
    match skipGap false cs with
    | [] => some []
    | cs => do
      let (s, rest) ← statement? cs
      let rest ← endLine? rest
      return s :: (← statements? fuel rest)

/-- The statements of a document. A byte order mark in front does not count. -/
def readStatements? (text : String) : Option (List Statement) :=
  let cs := match text.toList with
    | c :: rest => if c.toNat = 0xfeff then rest else c :: rest
    | [] => []
  if isPlain cs then statements? (cs.length + 1) cs else none

end StackLang.Toml
