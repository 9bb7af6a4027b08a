import StackLang.Program
/-!
A program as an indented outline, one line for each node.
-/

namespace StackLang

/-- A line of an outline at a depth of indentation. -/
def outlineLine (depth : Nat) (line : String) : String :=
  String.ofList (List.replicate (2 * depth) ' ') ++ line ++ "\n"

mutual

def Instr.outline (depth : Nat) : Instr → String
  | .op p o => outlineLine depth (o.text ++ " " ++ p.text)
  | .branch p c b es o =>
    outlineLine depth ("If " ++ p.text) ++ c.outline (depth + 1) "Cond" ++
      b.outline (depth + 1) "Body" ++ Arm.outlineList (depth + 1) es ++
      o.outline (depth + 1) "Else"
  | .loop p c b =>
    outlineLine depth ("While " ++ p.text) ++ c.outline (depth + 1) "Cond" ++
      b.outline (depth + 1) "Body"

/-- The outline of a block under its label. An absent block has none. -/
def Block.outline (depth : Nat) (label : String) : Block → String
  | .absent => ""
  | .mk _ xs => outlineLine depth (label ++ ":") ++ Instr.outlineList (depth + 1) xs

def Instr.outlineList (depth : Nat) : List Instr → String
  | [] => ""
  | x :: xs => x.outline depth ++ Instr.outlineList depth xs

/-- The outline of the further arms of a conditional. -/
def Arm.outlineList (depth : Nat) : List Arm → String
  | [] => ""
  | .mk p c b :: rest =>
    outlineLine depth ("Elif " ++ p.text) ++ c.outline (depth + 1) "Cond" ++
      b.outline (depth + 1) "Body" ++ Arm.outlineList depth rest

end

def Decl.outline (depth : Nat) (d : Decl) : String :=
  match d with
  | .memory m =>
    outlineLine depth
      (d.kind ++ " " ++ m.name ++ " " ++ toString m.size.toInt ++ " " ++ m.pos.text)
  | _ =>
    outlineLine depth (d.kind ++ " " ++ d.name ++ " " ++ d.pos.text) ++
      d.body.outline (depth + 1) "Body"

def Program.outline (p : Program) : String :=
  outlineLine 0 ("Program " ++ p.file) ++ String.join (p.decls.map (Decl.outline 1))

end StackLang
