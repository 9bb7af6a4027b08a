import StackLang.Toml.Statement
/-!
TOML documents: nested tables, and all keys in the order in which they are written. A table may be
made implicitly by a longer key and then once more explicitly; everything else is defined once.
-/

namespace StackLang.Toml

mutual

/-- A value of a document. The newest table of an array of tables is in front. -/
inductive Value where
  | text (s : String)
  | integer (n : Int)
  | boolean (b : Bool)
  | other
  | table (entries : List Entry)
  | tables (newest : List Entry) (older : List Value)

/-- A named value. -/
inductive Entry where
  | mk (key : String) (value : Value)

end

/-- The entries of a table, in the order in which they were made. -/
abbrev Entries := List Entry

namespace Entries

def get? (key : String) : Entries → Option Value
  | [] => none
  | .mk k v :: rest => if k = key then some v else get? key rest

def put (key : String) (value : Value) : Entries → Entries
  | [] => [.mk key value]
  | .mk k v :: rest => if k = key then .mk k value :: rest else .mk k v :: put key value rest

/-- Changes the table at a path, which leads through tables and the newest tables of arrays. -/
def update (f : Entries → Option Entries) : Key → Entries → Option Entries
  | [], es => f es
  | k :: path, es =>
    match get? k es with
    | some (.table t) => (update f path t).map fun t => put k (.table t) es
    | some (.tables t older) => (update f path t).map fun t => put k (.tables t older) es
    | _ => none

def tableAt? : Key → Entries → Option Entries
  | [], es => some es
  | k :: path, es =>
    match get? k es with
    | some (.table t) => tableAt? path t
    | some (.tables t _) => tableAt? path t
    | _ => none

/-- The table with a value at the end of a path. Tables on the path are made where there are
none. -/
def putAt? (key : String) (value : Value) : Key → Entries → Option Entries
  | [], es => some (put key value es)
  | k :: path, es =>
    match get? k es with
    | none => (putAt? key value path []).map fun t => put k (.table t) es
    | some (.table t) => (putAt? key value path t).map fun t => put k (.table t) es
    | some _ => none

end Entries

/-- A document being read: its tables, the path of the current table, the keys so far with the last
one in front, the tables made implicitly, and the keys whose value is an array. -/
structure Reader where
  root : Entries := []
  path : Key := []
  keys : List Key := []
  implicits : List Key := []
  arrays : List Key := []

namespace Reader

def addImplicit (r : Reader) (key : Key) : Reader :=
  { r with implicits := key :: r.implicits.filter (· != key) }

def removeImplicit (r : Reader) (key : Key) : Reader :=
  { r with implicits := r.implicits.filter (· != key) }

/-- Notes whether the value at a key of the current table is an array. The empty key stands for
the table itself, unless that is the outermost one. -/
def noteArray (r : Reader) (key : String) (isArray : Bool) : Reader :=
  let full := if key ≠ "" then r.path ++ [key] else if r.path = [] then [""] else r.path
  let others := r.arrays.filter (· != full)
  { r with arrays := if isArray then full :: others else others }

def put? (r : Reader) (key : String) (value : Value) : Option Reader :=
  (Entries.update (fun es => some (Entries.put key value es)) r.path r.root).map fun root =>
    { r with root }

/-- Gives a key of the current table a value. What the key has already must have been made
implicitly: tables made while an array was read give way to the array, and any other table stays. -/
def setValue? (r : Reader) (key : String) (value : Value) : Option Reader := do
  let full := r.path ++ [key]
  let es ← Entries.tableAt? r.path r.root
  if (Entries.get? key es).isNone then r.put? key value
  else if r.implicits.contains full then
    let r := r.removeImplicit full
    if r.arrays.contains full then r.put? key value else some r
  else none

/-- Makes sure that every part of a path is a table, from the outermost on. -/
def ensure? (r : Reader) (done : Key) : Key → Option Reader
  | [] => some r
  | k :: rest => do
    let full := done ++ [k]
    let es ← Entries.tableAt? done r.root
    if (Entries.get? k es).isNone then do
      let r ← { r.addImplicit full with path := done }.put? k (.table [])
      ensure? r full rest
    else do
      let _ ← Entries.tableAt? full r.root
      ensure? r full rest

/-- Enters a table, or one more table of an array. -/
def enter? (r : Reader) (key : Key) (ofArray : Bool) : Option Reader := do
  let parents := key.dropLast
  let name := key.getLast?.getD ""
  let r ← r.ensure? [] parents
  let r := { r with path := parents }
  let es ← Entries.tableAt? parents r.root
  let r ←
    if ofArray then
      match Entries.get? name es with
      | none => r.put? name (.tables [] [])
      | some (.tables t older) => r.put? name (.tables [] (.table t :: older))
      | _ => none
    else r.setValue? name (.table [])
  return { r with path := parents ++ [name] }

/-- Enters the tables that a dotted key names, each as if made implicitly. -/
def enterDotted? (r : Reader) : Key → Option Reader
  | [] => some r
  | k :: rest => do
    let full := r.path ++ [k]
    let r ← (r.addImplicit full).enter? full false
    r.enterDotted? rest

def noteKey (r : Reader) (key : String) : Reader :=
  { r with keys := (r.path ++ [key]) :: r.keys }

mutual

/-- Reads the value of a key of the current table. An inline table takes part in the document as
its pairs are read, whether it is the value itself or stands in an array. -/
def value? (r : Reader) (key : String) (inArray : Bool) : Literal → Option (Reader × Value)
  | .text s => some (r, .text s)
  | .integer n => some (r, .integer n)
  | .boolean b => some (r, .boolean b)
  | .float => some (r, .other)
  | .moment => some (r, .other)
  | .array items => (items? (r.noteArray key true) key items).map fun r => (r, .other)
  | .inline pairs => do
    let full := r.path ++ [key]
    let inner ← (r.addImplicit full).enter? full inArray
    let (inner, entries) ← pairs? inner full [] pairs
    return ({ inner with path := r.path }, .table entries)

def items? (r : Reader) (key : String) : List Literal → Option Reader
  | [] => some r
  | item :: rest => do
    let (r, _) ← value? r key true item
    items? r key rest

/-- Reads the pairs of a table at a path, and adds them to the entries read before. -/
def pairs? (r : Reader) (path : Key) (entries : Entries) :
    List Pair → Option (Reader × Entries)
  | [] => some (r, entries)
  | .mk key literal :: rest => do
    let name := key.getLast?.getD ""
    let r ← r.enterDotted? key.dropLast
    let (r, v) ← value? (r.noteKey name) name false literal
    let r ← r.setValue? name v
    let r := r.noteArray name (literal matches .array _)
    let entries ← Entries.putAt? name v key.dropLast entries
    pairs? { r with path } path entries rest

end

def statement? (r : Reader) : Statement → Option Reader
  | .table key => do
    let r ← r.enter? key false
    let r := r.noteArray "" false
    return { r with keys := key :: r.keys }
  | .tableOfArray key => do
    let r ← r.enter? key true
    let r := r.noteArray "" false
    return { r with keys := key :: r.keys }
  | .pair key literal => (pairs? r r.path [] [.mk key literal]).map Prod.fst

def statements? (r : Reader) : List Statement → Option Reader
  | [] => some r
  | s :: rest => do
    let r ← r.statement? s
    r.statements? rest

end Reader

/-- A document: its outermost table and its keys in the order in which they are written. -/
structure Document where
  root : Entries
  keys : List Key

def parse? (text : String) : Option Document := do
  let statements ← readStatements? text
  let r ← Reader.statements? {} statements
  return { root := r.root, keys := r.keys.reverse }

def quoteKeyChar (c : Char) : List Char :=
  match c with
  | '"' => ['\\', '"']
  | '\\' => ['\\', '\\']
  | '\x08' => ['\\', 'b']
  | '\t' => ['\\', 't']
  | '\n' => ['\\', 'n']
  | '\x0c' => ['\\', 'f']
  | '\r' => ['\\', 'r']
  | _ =>
    if c.toNat < 0x20 || c.toNat = 0x7f then '\\' :: 'u' :: Text.hexDigits 4 c.toNat else [c]

/-- A part of a key as it is shown: in quotes unless it needs none. -/
def showPart (s : String) : String :=
  if s ≠ "" && s.toList.all isBare then s
  else String.ofList ('"' :: s.toList.flatMap quoteKeyChar ++ ['"'])

def showKey (key : Key) : String :=
  ".".intercalate (key.map showPart)

end StackLang.Toml
