import StackLang.Program
/-!
A program as a tree of named fields, the common shape of its structured listings. Only complete
programs have one: every body must be present, and every block but the else part of a conditional.
-/

namespace StackLang

mutual

/-- A value made of texts, numbers, lists and records. -/
inductive Tree where
  | text (s : String)
  | number (n : Int)
  | list (items : List Tree)
  | record (fields : List TreeField)

/-- A named field of a record. -/
inductive TreeField where
  | mk (key : String) (value : Tree)

end

/-- A field that holds a text. -/
def textField (key value : String) : TreeField :=
  .mk key (.text value)

def numberField (key : String) (value : Int) : TreeField :=
  .mk key (.number value)

/-- The fields of an instruction without parts, other than its place. -/
def Op.fields (o : Op) : List TreeField :=
  textField "type" o.kind ::
    match o with
    | .pushInt v => [numberField "value" v.toInt]
    | .pushStr value raw => [textField "value" value, textField "raw" raw]
    | .binary t => [textField "op" t.text]
    | .load w => [numberField "width" w]
    | .store w => [numberField "width" w]
    | .syscall n => [numberField "argc" n]
    | .ident name => [textField "name" name]
    | _ => []

mutual

def Instr.tree? : Instr → Option Tree
  | .op p o => some (.record (textField "pos" p.text :: o.fields))
  | .branch p c b es o => do
    let cond ← c.tree?
    let body ← b.tree?
    let arms ← Arm.treeList? es
    let armsField := if arms.isEmpty then [] else [TreeField.mk "elifs" (.list arms)]
    let elseField ← match o with
      | .absent => some []
      | .mk _ xs => (Instr.treeList? xs).map fun items => [TreeField.mk "else" (.list items)]
    return .record ([textField "pos" p.text, textField "type" "If", .mk "cond" cond,
      .mk "body" body] ++ armsField ++ elseField)
  | .loop p c b => do
    let cond ← c.tree?
    let body ← b.tree?
    return .record [textField "pos" p.text, textField "type" "While", .mk "cond" cond,
      .mk "body" body]

def Block.tree? : Block → Option Tree
  | .absent => none
  | .mk _ xs => (Instr.treeList? xs).map .list

def Instr.treeList? : List Instr → Option (List Tree)
  | [] => some []
  | x :: xs => do return (← x.tree?) :: (← Instr.treeList? xs)

/-- The trees of the further arms of a conditional. -/
def Arm.treeList? : List Arm → Option (List Tree)
  | [] => some []
  | .mk p c b :: rest => do
    let cond ← c.tree?
    let body ← b.tree?
    return .record [textField "pos" p.text, .mk "cond" cond, .mk "body" body] ::
      (← Arm.treeList? rest)

end

def Decl.tree? (d : Decl) : Option Tree :=
  let head := [textField "pos" d.pos.text, textField "type" d.kind, textField "name" d.name]
  match d with
  | .memory m => some (.record (head ++ [numberField "size" m.size.toInt]))
  | _ => d.body.tree?.map fun body => .record (head ++ [.mk "body" body])

def Program.tree? (p : Program) : Option Tree :=
  (p.decls.mapM Decl.tree?).map fun decls =>
    .record [textField "type" "Program", textField "file" p.file, .mk "decls" (.list decls)]

end StackLang
