import StackLang.Project.Path
import StackLang.Table
import StackLang.Text.Utf8
/-!
Files and directories, and the paths that lead to them. A place is the list of names on the way
from the root; a path is a text that leads to a place, perhaps through `..`, and only if every
directory that it passes is there.
-/

namespace StackLang

/-- The names on the way from the root. -/
abbrev Place := List String

/-- What stands at a place. -/
inductive Entry where
  | file (bytes : List UInt8)
  | directory
  deriving DecidableEq

/-- Why a path leads nowhere. -/
inductive Trouble where
  | missing
  | notDirectory
  | isDirectory
  | denied
  | nameTooLong
  | invalid
  deriving DecidableEq, Repr

def Trouble.text : Trouble → String
  | .missing => "no such file or directory"
  | .notDirectory => "not a directory"
  | .isDirectory => "is a directory"
  | .denied => "permission denied"
  | .nameTooLong => "file name too long"
  | .invalid => "invalid argument"

/-- What was tried with a file. -/
inductive Attempt where
  | opening
  | reading
  | launching
  deriving DecidableEq, Repr

def Attempt.text : Attempt → String
  | .opening => "open"
  | .reading => "read"
  | .launching => "fork/exec"

/-- An attempt on a file that failed. -/
structure FileError where
  attempt : Attempt
  path : String
  trouble : Trouble
  deriving DecidableEq, Repr

def FileError.message (e : FileError) : String :=
  e.attempt.text ++ " " ++ e.path ++ ": " ++ e.trouble.text

/-- Files and directories by their places, and the directory in which relative paths begin. -/
structure Workspace where
  entries : Table Place Entry := .empty
  cwd : Place := []

namespace Workspace

/-- What stands at a place. The root is always a directory. -/
def get? (w : Workspace) (place : Place) : Option Entry :=
  if place = [] then some .directory else w.entries.get? place

def put (w : Workspace) (place : Place) (e : Entry) : Workspace :=
  { w with entries := w.entries.put place e }

/-- The workspace with a directory, and the directories that it needs, below `base`. -/
def addDirectory (w : Workspace) (base : Place) : Place → Workspace
  | [] => w
  | name :: rest =>
    let place := base ++ [name]
    let w := if (w.get? place).isSome then w else w.put place .directory
    w.addDirectory place rest

/-- The workspace with a file and the directories that it needs. -/
def addFile (w : Workspace) (place : Place) (bytes : List UInt8) : Workspace :=
  (w.addDirectory [] place.dropLast).put place (.file bytes)

/-- The workspace without what stands at a place or below it. -/
def remove (w : Workspace) (place : Place) : Workspace where
  entries :=
    { entries := w.entries.entries.filter fun e => !place.isPrefixOf e.1
      nodup := w.entries.nodup.sublist (List.filter_sublist.map _) }
  cwd := w.cwd

def longestName : Nat := 255

def longestPath : Nat := 4095

/-- Follows the parts of a path from a place. Only in a directory is there a way on, and the last
name need not be there. -/
def follow (w : Workspace) : Place → List String → Except Trouble Place
  | place, [] => .ok place
  | place, part :: rest =>
    match w.get? place with
    | none => .error .missing
    | some (.file _) => .error .notDirectory
    | some .directory =>
      if part = "" ∨ part = "." then w.follow place rest
      else if part = ".." then w.follow place.dropLast rest
      else if longestName < part.utf8ByteSize then .error .nameTooLong
      else w.follow (place ++ [part]) rest

def locate (w : Workspace) (path : String) : Except Trouble Place :=
  if path = "" then .error .missing
  else if path.toList.contains (Char.ofNat 0) then .error .invalid
  else if longestPath < path.utf8ByteSize then .error .nameTooLong
  else w.follow (if Path.isAbs path then [] else w.cwd) (Path.parts path)

def look (w : Workspace) (path : String) : Except Trouble Entry :=
  match w.locate path with
  | .error t => .error t
  | .ok place =>
    match w.get? place with
    | none => .error .missing
    | some e => .ok e

/-- Whether a path leads to a file or directory. -/
def has (w : Workspace) (path : String) : Bool :=
  match w.look path with
  | .ok _ => true
  | .error _ => false

/-- Opens the file or directory that a path leads to. -/
def openEntry (w : Workspace) (path : String) : Except FileError Entry :=
  (w.look path).mapError (⟨.opening, path, ·⟩)

/-- Why a directory cannot be read like a file. -/
def directoryError (path : String) : FileError :=
  ⟨.reading, path, .isDirectory⟩

/-- The bytes of the file that a path leads to. -/
def read (w : Workspace) (path : String) : Except FileError (List UInt8) :=
  match w.openEntry path with
  | .error e => .error e
  | .ok .directory => .error (directoryError path)
  | .ok (.file bytes) => .ok bytes

/-- Writes a file, which need not be there, but its directory must. -/
def write (w : Workspace) (path : String) (bytes : List UInt8) : Except FileError Workspace :=
  match w.locate path with
  | .error t => .error ⟨.opening, path, t⟩
  | .ok place =>
    match w.get? place with
    | some .directory => .error ⟨.opening, path, .isDirectory⟩
    | _ => .ok (w.put place (.file bytes))

/-- A name that begins with `stem` and is not among `others`, and that nothing at the root has, nor
leads to the directory in which relative paths begin. -/
def freshName (w : Workspace) (stem : String) (others : List String) : String :=
  let taken := (w.cwd :: w.entries.entries.map Prod.fst).filterMap List.head? ++ others
  let names := (List.range (taken.length + 1)).map fun n => stem ++ toString n
  (names.find? fun name => !taken.contains name).getD stem

end Workspace

end StackLang
