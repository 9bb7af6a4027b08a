import StackLang.Program
/-!
Inlines that expand into themselves. Every listed inline is searched depth first, use by use in
the order in which expansion meets them.
-/

namespace StackLang

/-- A cycle among inlines: the names in the order of their expansion, from the one that is met
again, and the place where it is met. -/
structure Cycle where
  pos : Pos
  chain : List String
  deriving DecidableEq, Repr

def Cycle.message (c : Cycle) : String :=
  let path := match c.chain with
    | [] => ""
    | first :: _ => ": " ++ " -> ".intercalate (c.chain ++ [first])
  c.pos.heading ++ "cyclic inline expansion" ++ path

mutual

/-- The names that an instruction uses, with their places. -/
def Instr.uses : Instr → List (String × Pos)
  | .op p (.ident name) => [(name, p)]
  | .op _ _ => []
  | .branch _ c b es o => c.uses ++ b.uses ++ Arm.usesList es ++ o.uses
  | .loop _ c b => c.uses ++ b.uses

/-- The names that a block uses, from its last instruction to its first. -/
def Block.uses : Block → List (String × Pos)
  | .absent => []
  | .mk _ xs => Instr.usesList xs

/-- The names that instructions use, from the last to the first. -/
def Instr.usesList : List Instr → List (String × Pos)
  | [] => []
  | x :: xs => Instr.usesList xs ++ x.uses

/-- The names that the arms of a conditional use, from the first to the last. -/
def Arm.usesList : List Arm → List (String × Pos)
  | [] => []
  | .mk _ c b :: rest => c.uses ++ b.uses ++ Arm.usesList rest

end

/-- Runs over uses with a visitor of inlines, and gathers the inlines found to be harmless. -/
def visitUses (p : Program) (visit : List String → Routine → Pos → Except Cycle (List String)) :
    List String → List (String × Pos) → Except Cycle (List String)
  | cleared, [] => .ok cleared
  | cleared, (name, pos) :: rest =>
    match p.inlines.get? name with
    | none => visitUses p visit cleared rest
    | some d => do
      let cleared ← visit cleared d pos
      visitUses p visit cleared rest

/-- Visits an inline that is used at a place, below the inlines of the path `active`. The number
bounds the length of the path; names on it differ, so it never runs out. -/
def visitInline (p : Program) :
    Nat → List String → List String → Routine → Pos → Except Cycle (List String)
  | 0, _, cleared, _, _ => .ok cleared
  | fuel + 1, active, cleared, d, pos =>
    if active.contains d.name then .error ⟨pos, active.dropWhile (· != d.name)⟩
    else if cleared.contains d.name then .ok cleared
    else do
      let cleared ←
        visitUses p (visitInline p fuel (active ++ [d.name])) cleared d.body.uses
      return d.name :: cleared

def checkInlines (p : Program) : List Routine → Except Cycle Unit
  | [] => .ok ()
  | d :: rest => do
    let _ ← visitInline p (p.inlines.size + 2) [] [] d d.namePos
    checkInlines p rest

/-- Fails with the first cycle among the listed inlines, whether a procedure uses them or not. -/
def Program.checkCycles (p : Program) : Except Cycle Unit :=
  checkInlines p p.inlineList

end StackLang
