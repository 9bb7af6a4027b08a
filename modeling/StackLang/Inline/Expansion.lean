import StackLang.Inline.Cycle
/-!
Inlines put in the place of their names. Expansion goes from the last instruction of a block to
the first; what it has done before it stops stays done.
-/

namespace StackLang

/-- Why expansion stops. -/
inductive Halt where
  | cycle (c : Cycle)
  | absentBody
  deriving DecidableEq, Repr

/-- What the name of an inline is to be replaced by; nothing for other names. -/
abbrev Resolver := String → Pos → Option (Except Halt (List Instr))

mutual

/-- Expands an instruction unless expansion has stopped. -/
def Instr.expand (resolve : Resolver) (halt : Option Halt) : Instr → List Instr × Option Halt
  | .op p (.ident name) =>
    match halt with
    | some h => ([.op p (.ident name)], some h)
    | none =>
      match resolve name p with
      | none => ([.op p (.ident name)], none)
      | some (.ok xs) => (xs, none)
      | some (.error h) => ([.op p (.ident name)], some h)
  | .op p o => ([.op p o], halt)
  | .branch p c b es o =>
    let (c, halt) := c.expand resolve halt
    let (b, halt) := b.expand resolve halt
    let (es, halt) := Arm.expandList resolve halt es
    let (o, halt) := o.expand resolve halt
    ([.branch p c b es o], halt)
  | .loop p c b =>
    let (c, halt) := c.expand resolve halt
    let (b, halt) := b.expand resolve halt
    ([.loop p c b], halt)

/-- Expands a block unless expansion has stopped. -/
def Block.expand (resolve : Resolver) (halt : Option Halt) : Block → Block × Option Halt
  | .absent => (.absent, halt)
  | .mk p xs =>
    let (xs, halt) := Instr.expandList resolve halt xs
    (.mk p xs, halt)

/-- Expands instructions, the last one first, unless expansion has stopped. -/
def Instr.expandList (resolve : Resolver) (halt : Option Halt) :
    List Instr → List Instr × Option Halt
  | [] => ([], halt)
  | x :: xs =>
    let (xs, halt) := Instr.expandList resolve halt xs
    let (x, halt) := x.expand resolve halt
    (x ++ xs, halt)

/-- Expands the arms of a conditional, the first one first, unless expansion has stopped. -/
def Arm.expandList (resolve : Resolver) (halt : Option Halt) : List Arm → List Arm × Option Halt
  | [] => ([], halt)
  | .mk p c b :: rest =>
    let (c, halt) := c.expand resolve halt
    let (b, halt) := b.expand resolve halt
    let (rest, halt) := Arm.expandList resolve halt rest
    (.mk p c b :: rest, halt)

end

/-- The expanded body of an inline used at a place, below the inlines of the path `active`. The
number bounds the length of the path; names on it differ, so it never runs out. -/
def expandInline (p : Program) : Nat → List String → Routine → Pos → Except Halt (List Instr)
  | 0, active, _, pos => .error (.cycle ⟨pos, active⟩)
  | fuel + 1, active, d, pos =>
    if active.contains d.name then
      .error (.cycle ⟨pos, active.dropWhile (· != d.name)⟩)
    else
      let resolve : Resolver := fun name pos =>
        (p.inlines.get? name).map fun d' => expandInline p fuel (active ++ [d.name]) d' pos
      match d.body.expand resolve none with
      | (_, some h) => .error h
      | (.absent, none) => .error .absentBody
      | (.mk _ xs, none) => .ok xs

/-- What the names of a program's inlines are replaced by. -/
def Program.resolver (p : Program) : Resolver := fun name pos =>
  (p.inlines.get? name).map fun d => expandInline p (p.inlines.size + 1) [] d pos

def Program.expandBlock (p : Program) (b : Block) : Block × Option Halt :=
  b.expand p.resolver none

/-- Expands the bodies of procedures, one after another, as far as possible. -/
def expandProcs (p : Program) : List Routine → Program × Option Halt
  | [] => (p, none)
  | r :: rest =>
    match p.expandBlock r.body with
    | (body, none) => expandProcs (p.replaceProc r { r with body }) rest
    | (body, some h) => (p.replaceProc r { r with body }, some h)

/-- Expands the inlines in every listed procedure. A cycle anywhere among the listed inlines is
found before anything changes. -/
def Program.expandInlines (p : Program) : Program × Option Halt :=
  match p.checkCycles with
  | .error c => (p, some (.cycle c))
  | .ok () => expandProcs p p.procDecls

end StackLang
