import StackLang.Pos
import StackLang.Text.Quoted
import StackLang.Token
/-!
Instructions. A body is a block of instructions, and conditionals and loops hold further blocks,
so every body is a tree. A block may be absent: a conditional without an else part has no else
block, which differs from an empty one.
-/

namespace StackLang

/-- Instructions without parts. -/
inductive Op where
  | pushInt (value : Int64)
  | pushStr (value raw : String)
  | binary (op : Token)
  | pop
  | dup
  | swap
  | over
  | rot
  | pick
  | put
  | size
  | ret
  | load (width : Int)
  | store (width : Int)
  | syscall (argc : Int)
  | ident (name : String)
  deriving DecidableEq, Repr

mutual

/-- An instruction at its place in the source text. -/
inductive Instr where
  | op (pos : Pos) (op : Op)
  | branch (pos : Pos) (cond body : Block) (elifs : List Arm) (otherwise : Block)
  | loop (pos : Pos) (cond body : Block)

/-- A sequence of instructions, or none at all. -/
inductive Block where
  | absent
  | mk (pos : Pos) (instrs : List Instr)

/-- A further condition of a conditional, with the block that it guards. -/
inductive Arm where
  | mk (pos : Pos) (cond body : Block)

end

namespace Instr

def pos : Instr → Pos
  | .op p _ => p
  | .branch p _ _ _ _ => p
  | .loop p _ _ => p

/-- Whether the instruction leaves its procedure. -/
def isReturn : Instr → Bool
  | .op _ .ret => true
  | _ => false

end Instr

namespace Block

def instrs : Block → List Instr
  | .absent => []
  | .mk _ xs => xs

def isPresent : Block → Bool
  | .absent => false
  | .mk _ _ => true

/-- Whether the last instruction of a block leaves the procedure. -/
def lastIsReturn (b : Block) : Bool :=
  b.instrs.getLast?.any Instr.isReturn

/-- A block with other instructions at the same place. An absent block stays absent. -/
def withInstrs (b : Block) (xs : List Instr) : Block :=
  match b with
  | .absent => .absent
  | .mk p _ => .mk p xs

end Block

mutual

def Instr.decEq : (x y : Instr) → Decidable (x = y)
  | .op p o, .op p' o' => decidable_of_iff (p = p' ∧ o = o') (by simp)
  | .branch p c b es o, .branch p' c' b' es' o' =>
    have := c.decEq c'
    have := b.decEq b'
    have := Arm.decEqList es es'
    have := o.decEq o'
    decidable_of_iff (p = p' ∧ c = c' ∧ b = b' ∧ es = es' ∧ o = o') (by simp)
  | .loop p c b, .loop p' c' b' =>
    have := c.decEq c'
    have := b.decEq b'
    decidable_of_iff (p = p' ∧ c = c' ∧ b = b') (by simp)
  | .op .., .branch .. | .op .., .loop .. | .branch .., .op .. | .branch .., .loop ..
  | .loop .., .op .. | .loop .., .branch .. => isFalse (by simp)

def Block.decEq : (x y : Block) → Decidable (x = y)
  | .absent, .absent => isTrue rfl
  | .mk p xs, .mk p' xs' =>
    have := Instr.decEqList xs xs'
    decidable_of_iff (p = p' ∧ xs = xs') (by simp)
  | .absent, .mk .. | .mk .., .absent => isFalse (by simp)

/-- Equality of instruction lists is decidable. -/
def Instr.decEqList : (xs ys : List Instr) → Decidable (xs = ys)
  | [], [] => isTrue rfl
  | x :: xs, y :: ys =>
    have := x.decEq y
    have := Instr.decEqList xs ys
    decidable_of_iff (x = y ∧ xs = ys) (by simp)
  | [], _ :: _ | _ :: _, [] => isFalse (by simp)

/-- Equality of lists of conditional arms is decidable. -/
def Arm.decEqList : (xs ys : List Arm) → Decidable (xs = ys)
  | [], [] => isTrue rfl
  | .mk p c b :: xs, .mk p' c' b' :: ys =>
    have := c.decEq c'
    have := b.decEq b'
    have := Arm.decEqList xs ys
    decidable_of_iff ((p = p' ∧ c = c' ∧ b = b') ∧ xs = ys) (by simp)
  | [], _ :: _ | _ :: _, [] => isFalse (by simp)

end

instance : DecidableEq Instr := Instr.decEq

instance : DecidableEq Block := Block.decEq

instance : Inhabited Block := ⟨.absent⟩

instance : Inhabited Instr := ⟨.op default .pop⟩

namespace Op

def kind : Op → String
  | .pushInt _ => "PushInt"
  | .pushStr _ _ => "PushStr"
  | .binary _ => "Infix"
  | .pop => "Pop"
  | .dup => "Dup"
  | .swap => "Swap"
  | .over => "Over"
  | .rot => "Rot"
  | .pick => "Pick"
  | .put => "Put"
  | .size => "Size"
  | .ret => "Return"
  | .load _ => "Load"
  | .store _ => "Store"
  | .syscall _ => "Syscall"
  | .ident _ => "Ident"

/-- The payload of an instruction as listings show it. -/
def payload? : Op → Option String
  | .pushInt v => some (toString v.toInt)
  | .pushStr _ raw => some (Text.quote raw)
  | .binary t => some t.text
  | .load w => some (toString w)
  | .store w => some (toString w)
  | .syscall n => some (toString n)
  | .ident name => some name
  | _ => none

def text (o : Op) : String :=
  match o.payload? with
  | some p => o.kind ++ "(" ++ p ++ ")"
  | none => o.kind

end Op

mutual

def Instr.text : Instr → String
  | .op _ o => o.text
  | .branch _ c b es o =>
    "If(" ++ c.text ++ " " ++ b.text ++ Arm.textList es ++
      (match o with
       | .absent => ""
       | .mk _ xs => " else [" ++ Instr.textList xs ++ "]") ++ ")"
  | .loop _ c b => "While(" ++ c.text ++ " " ++ b.text ++ ")"

/-- A block on one line. An absent block looks like an empty one. -/
def Block.text : Block → String
  | .absent => "[]"
  | .mk _ xs => "[" ++ Instr.textList xs ++ "]"

def Instr.textList : List Instr → String
  | [] => ""
  | x :: xs => x.text ++ Instr.textTail xs

def Instr.textTail : List Instr → String
  | [] => ""
  | x :: xs => ", " ++ x.text ++ Instr.textTail xs

def Arm.textList : List Arm → String
  | [] => ""
  | .mk _ c b :: rest => " elif " ++ c.text ++ " " ++ b.text ++ Arm.textList rest

end

end StackLang
