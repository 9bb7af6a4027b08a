import StackLang.Program
/-!
The nodes of a program in the order in which they are written.
-/

namespace StackLang

/-- A part of a program. -/
inductive Node where
  | decl (d : Decl)
  | block (b : Block)
  | instr (x : Instr)
  | arm (a : Arm)

namespace Node

def kind : Node → String
  | .decl d => d.kind
  | .block _ => "Block"
  | .instr (.op _ o) => o.kind
  | .instr (.branch ..) => "If"
  | .instr (.loop ..) => "While"
  | .arm _ => "Elif"

def pos : Node → Pos
  | .decl d => d.pos
  | .block (.mk p _) => p
  | .block .absent => Pos.none
  | .instr x => x.pos
  | .arm (.mk p _ _) => p

/-- A part as a walk lists it: its kind and place. -/
def text (n : Node) : String :=
  n.kind ++ " " ++ n.pos.text

end Node

mutual

/-- An instruction and what it holds. Parts of nodes that fail `enter` are left out. -/
def Instr.nodes (enter : Node → Bool) : Instr → List Node
  | .op p o => [.instr (.op p o)]
  | .branch p c b es o =>
    .instr (.branch p c b es o) ::
      if enter (.instr (.branch p c b es o)) then
        c.nodes enter ++ b.nodes enter ++ Arm.nodesList enter es ++ o.nodes enter
      else []
  | .loop p c b =>
    .instr (.loop p c b) ::
      if enter (.instr (.loop p c b)) then c.nodes enter ++ b.nodes enter else []

/-- A block and what it holds; an absent block is no node. -/
def Block.nodes (enter : Node → Bool) : Block → List Node
  | .absent => []
  | .mk p xs =>
    .block (.mk p xs) :: if enter (.block (.mk p xs)) then Instr.nodesList enter xs else []

def Instr.nodesList (enter : Node → Bool) : List Instr → List Node
  | [] => []
  | x :: xs => x.nodes enter ++ Instr.nodesList enter xs

def Arm.nodesList (enter : Node → Bool) : List Arm → List Node
  | [] => []
  | .mk p c b :: rest =>
    .arm (.mk p c b) ::
      ((if enter (.arm (.mk p c b)) then c.nodes enter ++ b.nodes enter else []) ++
        Arm.nodesList enter rest)

end

def Decl.nodes (enter : Node → Bool) (d : Decl) : List Node :=
  .decl d :: if enter (.decl d) then d.body.nodes enter else []

def Program.nodes (enter : Node → Bool) (p : Program) : List Node :=
  p.decls.flatMap (Decl.nodes enter)

end StackLang
