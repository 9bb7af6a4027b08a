import StackLang.Code.Walk
/-!
The rules that every program keeps between two stages of compilation.
-/

namespace StackLang

/-- A broken rule. `owner` names the declaration in which it is broken. -/
inductive Violation where
  | noEntry
  | repeated (name : String)
  | unregistered (name : String)
  | countMismatch (registered listed : Nat)
  | noBody (owner : String)
  | noReturn (owner : String)
  | badSize (name : String) (size : Int64)
  | badOperator (owner : String) (pos : Pos) (t : Token)
  | badLoad (owner : String) (pos : Pos) (width : Int)
  | badStore (owner : String) (pos : Pos) (width : Int)
  | badSyscall (owner : String) (pos : Pos) (argc : Int)
  | unexpanded (owner : String) (pos : Pos) (name : String)
  | incompleteIf (owner : String) (pos : Pos)
  | incompleteWhile (owner : String) (pos : Pos)
  deriving DecidableEq, Repr

def Violation.text : Violation → String
  | .noEntry => "no procedure named " ++ Source.entryPoint
  | .repeated name => name ++ " declared more than once"
  | .unregistered name => name ++ ": declaration not registered under its name"
  | .countMismatch registered listed =>
    "name maps hold " ++ toString registered ++ " entries, declaration list has " ++
      toString listed
  | .noBody owner => owner ++ ": nil body"
  | .noReturn owner => owner ++ ": body does not end in return"
  | .badSize name size => "memory " ++ name ++ ": size " ++ toString size.toInt ++
    " is not positive"
  | .badOperator owner pos t =>
    owner ++ ", " ++ pos.text ++ ": " ++ t.text ++ " is not an infix operator"
  | .badLoad owner pos w => owner ++ ", " ++ pos.text ++ ": load width " ++ toString w
  | .badStore owner pos w => owner ++ ", " ++ pos.text ++ ": store width " ++ toString w
  | .badSyscall owner pos n =>
    owner ++ ", " ++ pos.text ++ ": syscall with " ++ toString n ++ " arguments"
  | .unexpanded owner pos name => owner ++ ", " ++ pos.text ++ ": unexpanded inline " ++ name
  | .incompleteIf owner pos => owner ++ ", " ++ pos.text ++ ": if without condition or body"
  | .incompleteWhile owner pos =>
    owner ++ ", " ++ pos.text ++ ": while without condition or body"

def verificationMessage (violations : List Violation) : String :=
  "program verification failed:\n  " ++ "\n  ".intercalate (violations.map Violation.text)

/-- The rule for one node. The flag says that inlines must have been expanded. -/
def Node.violation? (p : Program) (expanded : Bool) (owner : String) : Node → Option Violation
  | .instr (.op pos (.binary t)) =>
    if t.isOperator then none else some (.badOperator owner pos t)
  | .instr (.op pos (.load w)) => if Token.isWidth w then none else some (.badLoad owner pos w)
  | .instr (.op pos (.store w)) => if Token.isWidth w then none else some (.badStore owner pos w)
  | .instr (.op pos (.syscall n)) =>
    if 0 ≤ n ∧ n ≤ Token.syscallLimit then none else some (.badSyscall owner pos n)
  | .instr (.op pos (.ident name)) =>
    if expanded && p.inlines.contains name then some (.unexpanded owner pos name) else none
  | .instr (.branch pos c b _ _) =>
    if c.isPresent && b.isPresent then none else some (.incompleteIf owner pos)
  | .instr (.loop pos c b) =>
    if c.isPresent && b.isPresent then none else some (.incompleteWhile owner pos)
  | _ => none

def Block.violations (p : Program) (expanded : Bool) (owner : String) (b : Block) :
    List Violation :=
  (b.nodes fun _ => true).filterMap (Node.violation? p expanded owner)

/-- The broken rules of a declaration by itself. -/
def Decl.violations (p : Program) (expanded : Bool) : Decl → List Violation
  | .proc r =>
    let owner := "proc " ++ r.name
    if r.body.isPresent then
      (if r.body.lastIsReturn then [] else [.noReturn owner]) ++
        r.body.violations p expanded owner
    else [.noBody owner]
  | .inline r =>
    let owner := "inline " ++ r.name
    if r.body.isPresent then r.body.violations p false owner else [.noBody owner]
  | .memory m => if 0 < m.size then [] else [.badSize m.name m.size]

/-- The broken rules of the name space among the listed declarations, of which those named in
`seen` came before. -/
def nameViolations (p : Program) : List String → List Decl → List Violation
  | _, [] => []
  | seen, d :: rest =>
    (if seen.contains d.name then [.repeated d.name] else []) ++
      (if p.lookup d.name = some d then [] else [.unregistered d.name]) ++
      nameViolations p (d.name :: seen) rest

namespace Program

def registered (p : Program) : Nat :=
  p.procs.size + p.inlines.size + p.memories.size

/-- All broken rules: of the entry point, the name space and the declarations. The flag says that
procedures must not use inlines any more. -/
def violations (p : Program) (expanded : Bool) : List Violation :=
  (if p.entry?.isSome then [] else [.noEntry]) ++ nameViolations p [] p.decls ++
    (if p.registered = p.decls.length then []
     else [.countMismatch p.registered p.decls.length]) ++
    p.decls.flatMap (Decl.violations p expanded)

end Program

end StackLang
