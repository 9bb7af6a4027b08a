import StackLang.Failure
import StackLang.Proofs.Namespace
/-!
Programs, tokens and failures with every place replaced by another. Finding a declaration and adding
one do not look at places, so they go with every replacement.
-/

namespace StackLang

/-! ### Tokens and code -/

def Lexeme.move (f : Pos → Pos) (l : Lexeme) : Lexeme :=
  { l with pos := f l.pos }

@[simp] theorem Lexeme.tok_move (f : Pos → Pos) (l : Lexeme) : (l.move f).tok = l.tok := rfl

@[simp] theorem Lexeme.pos_move (f : Pos → Pos) (l : Lexeme) : (l.move f).pos = f l.pos := rfl

mutual

/-- An instruction with every place in it replaced. -/
def Instr.move (f : Pos → Pos) : Instr → Instr
  | .op pos o => .op (f pos) o
  | .branch pos c b es o => .branch (f pos) (c.move f) (b.move f) (Arm.moveList f es) (o.move f)
  | .loop pos c b => .loop (f pos) (c.move f) (b.move f)

def Block.move (f : Pos → Pos) : Block → Block
  | .absent => .absent
  | .mk pos xs => .mk (f pos) (Instr.moveList f xs)

def Instr.moveList (f : Pos → Pos) : List Instr → List Instr
  | [] => []
  | x :: xs => x.move f :: Instr.moveList f xs

def Arm.moveList (f : Pos → Pos) : List Arm → List Arm
  | [] => []
  | .mk pos c b :: rest => .mk (f pos) (c.move f) (b.move f) :: Arm.moveList f rest

end

def Arm.move (f : Pos → Pos) : Arm → Arm
  | .mk pos c b => .mk (f pos) (c.move f) (b.move f)

variable {f : Pos → Pos}

theorem Instr.moveList_eq_map (xs : List Instr) : Instr.moveList f xs = xs.map (Instr.move f) := by
  induction xs with
  | nil => rfl
  | cons x xs ih => rw [Instr.moveList, List.map_cons, ih]

theorem Arm.moveList_eq_map (es : List Arm) : Arm.moveList f es = es.map (Arm.move f) := by
  induction es with
  | nil => rfl
  | cons e es ih =>
    obtain ⟨pos, c, b⟩ := e
    rw [Arm.moveList, List.map_cons, ih, Arm.move]

@[simp] theorem Instr.isReturn_move (x : Instr) : (x.move f).isReturn = x.isReturn := by
  cases x with
  | op pos o => cases o <;> rfl
  | _ => rfl

namespace Block

@[simp] theorem instrs_move (b : Block) : (b.move f).instrs = b.instrs.map (Instr.move f) := by
  cases b with
  | absent => rfl
  | mk pos xs => exact Instr.moveList_eq_map xs

@[simp] theorem lastIsReturn_move (b : Block) : (b.move f).lastIsReturn = b.lastIsReturn := by
  unfold lastIsReturn
  rw [instrs_move, List.getLast?_map]
  cases b.instrs.getLast? <;> simp

theorem withInstrs_move (b : Block) (xs : List Instr) :
    (b.move f).withInstrs (xs.map (Instr.move f)) = (b.withInstrs xs).move f := by
  cases b with
  | absent => rfl
  | mk pos ys => simp only [move, withInstrs, Instr.moveList_eq_map]

end Block

/-! ### Declarations -/

def Routine.move (f : Pos → Pos) (r : Routine) : Routine :=
  { r with pos := f r.pos, namePos := f r.namePos, body := r.body.move f }

def Memory.move (f : Pos → Pos) (m : Memory) : Memory :=
  { m with pos := f m.pos, namePos := f m.namePos }

namespace Decl

def move (f : Pos → Pos) : Decl → Decl
  | .proc r => .proc (r.move f)
  | .inline r => .inline (r.move f)
  | .memory m => .memory (m.move f)

@[simp] theorem name_move (d : Decl) : (d.move f).name = d.name := by
  cases d <;> rfl

@[simp] theorem pos_move (d : Decl) : (d.move f).pos = f d.pos := by
  cases d <;> rfl

end Decl

/-! ### What can go wrong -/

namespace Source

/-- A cause with the places in it replaced: those of tokens it shows and of earlier declarations. -/
def Cause.move (f : Pos → Pos) : Cause → Cause
  | .nameExpected kind found => .nameExpected kind (found.move f)
  | .doExpected name found => .doExpected name (found.move f)
  | .sizeExpected name found => .sizeExpected name (found.move f)
  | .memoryOpen name found => .memoryOpen name (found.move f)
  | .unexpected found => .unexpected (found.move f)
  | .unexpectedAtTop found => .unexpectedAtTop (found.move f)
  | .instructionAtTop found => .instructionAtTop (found.move f)
  | .redeclared name earlier => .redeclared name (f earlier)
  | cause => cause

@[simp] theorem Cause.kind_move (cause : Cause) : (cause.move f).kind = cause.kind := by
  cases cause <;> rfl

def Error.move (f : Pos → Pos) (e : Error) : Error :=
  ⟨f e.pos, e.cause.move f⟩

end Source

def Cycle.move (f : Pos → Pos) (c : Cycle) : Cycle :=
  { c with pos := f c.pos }

def Target.Fault.move (f : Pos → Pos) : Target.Fault → Target.Fault
  | .refused pos cause => .refused (f pos) cause
  | .cycle c => .cycle (c.move f)
  | fault => fault

namespace Failure

def move (f : Pos → Pos) : Failure → Failure
  | .source e => .source (e.move f)
  | .cycle c => .cycle (c.move f)
  | .generation pos cause => .generation (f pos) cause
  | failure => failure

theorem ofRefusal_move (fault : Target.Fault) :
    ofRefusal (.fault (fault.move f)) = (ofRefusal (.fault fault)).move f := by
  cases fault <;> rfl

end Failure

/-! ### Programs -/

theorem Table.map_put {κ α : Type} [DecidableEq κ] (g : α → α) (t : Table κ α) (key : κ) (a : α) :
    (t.put key a).map g = (t.map g).put key (g a) := by
  simp [put, erase, map, List.filter_map, Function.comp_def]

/-- A computation with its value and its error replaced. -/
def carry {ε α β : Type} (g : ε → ε) (h : α → β) : Except ε α → Except ε β
  | .error e => .error (g e)
  | .ok a => .ok (h a)

theorem carry_map {ε α β γ : Type} (g : ε → ε) (h : β → γ) (k : α → β) (x : Except ε α) :
    carry g h (x.map k) = carry g (h ∘ k) x := by
  cases x <;> rfl

theorem map_carry {ε α β γ : Type} (g : ε → ε) (h : α → β) (k : β → γ) (x : Except ε α) :
    (carry g h x).map k = carry g (k ∘ h) x := by
  cases x <;> rfl

namespace Program

def move (f : Pos → Pos) (p : Program) : Program :=
  { p with
    decls := p.decls.map (Decl.move f)
    procs := p.procs.map (Routine.move f)
    inlines := p.inlines.map (Routine.move f)
    memories := p.memories.map (Memory.move f) }

variable (p : Program)

theorem get?_procs_move (name : String) :
    (p.move f).procs.get? name = (p.procs.get? name).map (Routine.move f) :=
  Table.get?_map ..

theorem get?_inlines_move (name : String) :
    (p.move f).inlines.get? name = (p.inlines.get? name).map (Routine.move f) :=
  Table.get?_map ..

theorem get?_memories_move (name : String) :
    (p.move f).memories.get? name = (p.memories.get? name).map (Memory.move f) :=
  Table.get?_map ..

theorem size_inlines_move : (p.move f).inlines.size = p.inlines.size :=
  Table.size_map ..

theorem lookup_move (name : String) :
    (p.move f).lookup name = (p.lookup name).map (Decl.move f) := by
  simp only [lookup, get?_procs_move, get?_inlines_move, get?_memories_move]
  cases p.procs.get? name <;> cases p.inlines.get? name <;> cases p.memories.get? name <;> rfl

theorem isSome_entry_move : (Program.entry? (p.move f)).isSome = p.entry?.isSome := by
  unfold entry?
  rw [get?_procs_move, Option.isSome_map]

theorem procDecls_move : (p.move f).procDecls = p.procDecls.map (Routine.move f) := by
  simp only [procDecls, move, List.filterMap_map, List.map_filterMap]
  congr
  funext d
  cases d <;> rfl

theorem inlineList_move : (p.move f).inlineList = p.inlineList.map (Routine.move f) := by
  simp only [inlineList, move, List.filterMap_map, List.map_filterMap]
  congr
  funext d
  cases d <;> rfl

theorem memoryDecls_move : (p.move f).memoryDecls = p.memoryDecls.map (Memory.move f) := by
  simp only [memoryDecls, move, List.filterMap_map, List.map_filterMap]
  congr
  funext d
  cases d <;> rfl

theorem nameTaken?_move (name : String) (pos : Pos) :
    (p.move f).nameTaken? name (f pos) = (p.nameTaken? name pos).map (Source.Error.move f) := by
  simp only [nameTaken?, lookup_move, Option.map_map]
  cases p.lookup name with
  | none => rfl
  | some d => simp [Source.Error.move, Source.Cause.move]

theorem insert_move (d : Decl) : (p.move f).insert (d.move f) = (p.insert d).move f := by
  cases d <;>
    simp [insert, register, move, Decl.move, Decl.withSerial, Decl.name, Routine.move, Memory.move,
      Table.map_put]

theorem declare_move (d : Decl) :
    (p.move f).declare (d.move f) = carry (Source.Error.move f) (move f) (p.declare d) := by
  unfold declare
  rw [Decl.name_move, Decl.pos_move, nameTaken?_move]
  cases p.nameTaken? d.name d.pos with
  | some e => rfl
  | none => exact congrArg Except.ok (p.insert_move d)

end Program

end StackLang
