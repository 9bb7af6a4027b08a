import StackLang.Proofs.Relocation.Program
import StackLang.Proofs.Target.Emission
import StackLang.Proofs.Target.Splicing
/-!
The search for cycles and the generator go with every replacement of places. They never compare
places, and no place gets into the assembly, so a program at other places gives the same assembly
or fails for the same reason at other places.
-/

namespace StackLang

variable {f : Pos → Pos} {p : Program}

theorem mapError_bind {ε ε' α β : Type} (g : ε → ε') (x : Except ε α) (k : α → Except ε β) :
    (x >>= k).mapError g = x.mapError g >>= fun a => (k a).mapError g := by
  cases x <;> rfl

/-! ### Cycles -/

mutual

theorem Instr.uses_move (x : Instr) : (x.move f).uses = x.uses.map (Prod.map id f) := by
  match x with
  | .op pos o => cases o <;> rfl
  | .branch pos c b es o =>
    simp only [Instr.move, Instr.uses, List.map_append, c.uses_move, b.uses_move,
      Arm.usesList_move es, o.uses_move]
  | .loop pos c b => simp only [Instr.move, Instr.uses, List.map_append, c.uses_move, b.uses_move]

theorem Block.uses_move (b : Block) : (b.move f).uses = b.uses.map (Prod.map id f) := by
  match b with
  | .absent => rfl
  | .mk pos xs => exact Instr.usesList_move xs

theorem Instr.usesList_move (xs : List Instr) :
    Instr.usesList (Instr.moveList f xs) = (Instr.usesList xs).map (Prod.map id f) := by
  match xs with
  | [] => rfl
  | x :: xs =>
    simp only [Instr.moveList, Instr.usesList, List.map_append, x.uses_move,
      Instr.usesList_move xs]

theorem Arm.usesList_move (es : List Arm) :
    Arm.usesList (Arm.moveList f es) = (Arm.usesList es).map (Prod.map id f) := by
  match es with
  | [] => rfl
  | .mk pos c b :: rest =>
    simp only [Arm.moveList, Arm.usesList, List.map_append, c.uses_move, b.uses_move,
      Arm.usesList_move rest]

end

theorem visitUses_move {visit visit' : List String → Routine → Pos → Except Cycle (List String)}
    (same : ∀ cleared d pos,
      visit' cleared (d.move f) (f pos) = (visit cleared d pos).mapError (Cycle.move f))
    (cleared : List String) (uses : List (String × Pos)) :
    visitUses (p.move f) visit' cleared (uses.map (Prod.map id f)) =
      (visitUses p visit cleared uses).mapError (Cycle.move f) := by
  induction uses generalizing cleared with
  | nil => rfl
  | cons u rest ih =>
    obtain ⟨name, pos⟩ := u
    simp only [List.map_cons, Prod.map, id, visitUses, p.get?_inlines_move]
    cases p.inlines.get? name with
    | none => exact ih cleared
    | some d =>
      simp only [Option.map_some, same, mapError_bind]
      exact bind_congr fun cleared => ih cleared

theorem visitInline_move (fuel : Nat) (active cleared : List String) (d : Routine) (pos : Pos) :
    visitInline (p.move f) fuel active cleared (d.move f) (f pos) =
      (visitInline p fuel active cleared d pos).mapError (Cycle.move f) := by
  induction fuel generalizing active cleared d pos with
  | zero => rfl
  | succ fuel ih =>
    have name : (d.move f).name = d.name := rfl
    have body : (d.move f).body.uses = d.body.uses.map (Prod.map id f) := d.body.uses_move
    simp only [visitInline, name, body]
    split_ifs
    · rfl
    · rfl
    · rw [visitUses_move fun cleared e q => ih (active ++ [d.name]) cleared e q, mapError_bind]
      rfl

theorem Program.checkCycles_move (p : Program) :
    (p.move f).checkCycles = p.checkCycles.mapError (Cycle.move f) := by
  have listed (ds : List Routine) : checkInlines (p.move f) (ds.map (Routine.move f)) =
      (checkInlines p ds).mapError (Cycle.move f) := by
    induction ds with
    | nil => rfl
    | cons d rest ih =>
      simp only [List.map_cons, checkInlines, mapError_bind, p.size_inlines_move, ← ih]
      congr 1
      exact visitInline_move ..
  unfold checkCycles
  rw [inlineList_move]
  exact listed _

namespace Target

/-! ### Lowering -/

/-- A computation whose faults are at other places. -/
def moved {α : Type} (f : Pos → Pos) (m : Lowering α) : Lowering α :=
  fun pool => (m pool).mapError (Fault.move f)

section

variable {α β : Type}

theorem moved_bind (m : Lowering α) (k : α → Lowering β) :
    moved f (m >>= k) = moved f m >>= fun a => moved f (k a) := by
  funext pool
  exact mapError_bind ..

theorem moved_pure (a : α) : moved f (pure a : Lowering α) = pure a := rfl

theorem moved_freshLabel : moved f freshLabel = freshLabel := rfl

theorem moved_internString (value : String) :
    moved f (internString value) = internString value := by
  funext pool
  simp only [moved, internString]
  split_ifs <;> rfl

end

def Context.move (f : Pos → Pos) (ctx : Context) : Context :=
  { ctx with program := ctx.program.move f }

/-- The second way to lower inlines does with a moved inline what the first does with the inline
itself. -/
def Mirrors (f : Pos → Pos) (splice splice' : Splice) : Prop :=
  ∀ d pos, splice' (d.move f) (f pos) = moved f (splice d pos)

variable {ctx : Context} {splice splice' : Splice}

theorem opLines_move (pos : Pos) (o : Op) :
    opLines (ctx.move f) (f pos) o = moved f (opLines ctx pos o) := by
  cases o with
  | binary t => cases t <;> rfl
  | pushStr value raw => simp only [opLines, moved_bind, moved_pure, moved_internString]
  | load w =>
    simp only [opLines]
    cases readLine? w <;> rfl
  | store w =>
    simp only [opLines]
    cases writeLine? w <;> rfl
  | syscall n =>
    simp only [opLines]
    split_ifs <;> rfl
  | _ => rfl

theorem nameLines_move (same : Mirrors f splice splice') (pos : Pos) (name : String) :
    nameLines (ctx.move f) splice' (f pos) name = moved f (nameLines ctx splice pos name) := by
  have inlines : (ctx.move f).program.inlines.get? name =
      (ctx.program.inlines.get? name).map (Routine.move f) := ctx.program.get?_inlines_move name
  have memories : (ctx.move f).program.memories.contains name =
      ctx.program.memories.contains name := by
    unfold Table.contains
    exact (congrArg Option.isSome (ctx.program.get?_memories_move name)).trans Option.isSome_map
  have procs : (ctx.move f).program.procs.contains name = ctx.program.procs.contains name := by
    unfold Table.contains
    exact (congrArg Option.isSome (ctx.program.get?_procs_move name)).trans Option.isSome_map
  unfold nameLines
  rw [inlines, memories, procs]
  cases ctx.program.inlines.get? name with
  | some d => exact same d pos
  | none =>
    dsimp only [Option.map_none]
    split_ifs
    · rfl
    · rw [moved_bind, moved_freshLabel]
      rfl
    · rfl

theorem note_move (text : String) : (ctx.move f).note text = ctx.note text := rfl

mutual

theorem instrLines_move (same : Mirrors f splice splice') (x : Instr) :
    instrLines (ctx.move f) splice' (x.move f) = moved f (instrLines ctx splice x) := by
  match x with
  | .op pos o =>
    by_cases hn : ∃ name, o = .ident name
    · obtain ⟨name, rfl⟩ := hn
      exact nameLines_move same pos name
    · have other : ∀ name, o ≠ .ident name := fun name h => hn ⟨name, h⟩
      rw [Instr.move, instrLines_op other, instrLines_op other, opLines_move, moved_bind]
      rfl
  | .branch pos c b es .absent =>
    simp only [Instr.move, Block.move, instrLines, moved_bind, moved_pure, moved_freshLabel,
      note_move, blockLines_move same c, blockLines_move same b, armLines_move same es]
  | .branch pos c b es (.mk q xs) =>
    simp only [Instr.move, Block.move, instrLines, moved_bind, moved_pure, moved_freshLabel,
      note_move, blockLines_move same c, blockLines_move same b, armLines_move same es,
      listLines_move same xs]
  | .loop pos c b =>
    simp only [Instr.move, instrLines, moved_bind, moved_pure, moved_freshLabel, note_move,
      blockLines_move same c, blockLines_move same b]

theorem blockLines_move (same : Mirrors f splice splice') (b : Block) :
    blockLines (ctx.move f) splice' (b.move f) = moved f (blockLines ctx splice b) := by
  match b with
  | .absent => rfl
  | .mk pos xs => exact listLines_move same xs

theorem listLines_move (same : Mirrors f splice splice') (xs : List Instr) :
    listLines (ctx.move f) splice' (Instr.moveList f xs) = moved f (listLines ctx splice xs) := by
  match xs with
  | [] => rfl
  | x :: xs =>
    simp only [Instr.moveList, listLines, moved_bind, moved_pure, instrLines_move same x,
      listLines_move same xs]

theorem armLines_move (same : Mirrors f splice splice') (es : List Arm) (last : Symbol) :
    armLines (ctx.move f) splice' last (Arm.moveList f es) =
      moved f (armLines ctx splice last es) := by
  match es with
  | [] => rfl
  | .mk pos c b :: rest =>
    simp only [Arm.moveList, armLines, moved_bind, moved_pure, moved_freshLabel, note_move,
      blockLines_move same c, blockLines_move same b, armLines_move same rest]

end

theorem inlineLines_move (fuel : Nat) (active : List String) :
    Mirrors f (inlineLines ctx fuel active) (inlineLines (ctx.move f) fuel active) := by
  induction fuel generalizing active with
  | zero => exact fun d pos => rfl
  | succ fuel ih =>
    intro d pos
    have name : (d.move f).name = d.name := rfl
    simp only [inlineLines, name]
    split_ifs
    · rfl
    · exact blockLines_move (ih (active ++ [d.name])) d.body

theorem procLines_move (depth : Int) (comments : Bool) (r : Routine) :
    procLines (p.move f) depth comments (r.move f) = moved f (procLines p depth comments r) := by
  obtain ⟨serial, name, pos, namePos, body⟩ := r
  cases body with
  | absent => rfl
  | mk q xs =>
    have lines (ctx : Context) (b : Block) :
        blockLines (ctx.move f) (inlineLines (ctx.move f) (p.inlines.size + 1) []) (b.move f) =
          moved f (blockLines ctx (inlineLines ctx (p.inlines.size + 1) []) b) :=
      blockLines_move (inlineLines_move _ []) b
    have here := lines ⟨p, depth, comments, name⟩ (.mk q xs)
    have last := Block.lastIsReturn_move (f := f) (.mk q xs)
    simp only [procLines, Routine.move, Block.move, moved_bind, moved_pure,
      p.size_inlines_move, ← here, ← last]
    rfl

theorem procsLines_move (depth : Int) (comments : Bool) (rs : List Routine) :
    procsLines (p.move f) depth comments (rs.map (Routine.move f)) =
      moved f (procsLines p depth comments rs) := by
  induction rs with
  | nil => rfl
  | cons r rest ih =>
    simp only [List.map_cons, procsLines, moved_bind, moved_pure, procLines_move, ih]

theorem memorySection_move (ms : List Memory) :
    memorySection (ms.map (Memory.move f)) = memorySection ms := by
  unfold memorySection
  rw [List.map_map]
  rfl

end Target

/-- A program at other places has the same assembly, or fails for the same reason at other
places. -/
theorem Program.assemble_move {s : Target.Settings}
    (depth : 0 ≤ s.depth ∧ s.depth ≤ Target.maxDepth) (entry : p.entry?.isSome) :
    (p.move f).assemble s = (p.assemble s).mapError (Failure.move f) := by
  have entry' : (Program.entry? (p.move f)).isSome := by rwa [isSome_entry_move]
  unfold assemble
  rw [Target.generate_of_entry depth entry, Target.generate_of_entry depth entry',
    checkCycles_move, procDecls_move, memoryDecls_move, Target.memorySection_move,
    Target.procsLines_move]
  cases p.checkCycles with
  | error c => rfl
  | ok u =>
    cases u
    dsimp only [Except.mapError, Target.moved, StateT.run]
    cases Target.procsLines p s.actualDepth s.comments p.procDecls {} with
    | error fault => exact congrArg Except.error (Failure.ofRefusal_move fault)
    | ok r => rfl

end StackLang
