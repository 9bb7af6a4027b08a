import StackLang.Proofs.Inline.Expanded
import StackLang.Target.Generate
/-!
The assembly of a body whose inlines are replaced first is that of the body whose inlines are
replaced by the generator.
-/

namespace StackLang.Target

open Line

/-- Contexts that give the same assembly to everything but the names of inlines. -/
structure Context.Matches (ctx ctx' : Context) : Prop where
  inlines : ctx'.program.inlines = ctx.program.inlines
  memories : ctx'.program.memories = ctx.program.memories
  procs : ∀ name, ctx'.program.procs.contains name = ctx.program.procs.contains name
  depth : ctx'.depth = ctx.depth
  comments : ctx'.comments = ctx.comments
  proc : ctx'.proc = ctx.proc

/-- Where the given names stood, what replaces an inline has the assembly that the generator gives
to the inline. -/
def Agrees (ctx ctx' : Context) (splice splice' : Splice) (sub : Replacement)
    (uses : List (String × Pos)) : Prop :=
  ∀ u ∈ uses, match ctx.program.inlines.get? u.1 with
    | none => sub u.1 u.2 = none
    | some d => ∃ xs, sub u.1 u.2 = some xs ∧ listLines ctx' splice' xs = splice d u.2

variable {ctx ctx' : Context} {splice splice' : Splice} {sub : Replacement}

theorem agrees_append {us vs : List (String × Pos)} :
    Agrees ctx ctx' splice splice' sub (us ++ vs) ↔
      Agrees ctx ctx' splice splice' sub us ∧ Agrees ctx ctx' splice splice' sub vs := by
  simp only [Agrees, List.forall_mem_append]

theorem listLines_append (ctx : Context) (splice : Splice) (xs ys : List Instr) :
    listLines ctx splice (xs ++ ys) = do
      let first ← listLines ctx splice xs
      let rest ← listLines ctx splice ys
      return first ++ rest := by
  induction xs with
  | nil => simp [listLines]
  | cons x xs ih =>
    simp only [List.cons_append, listLines, ih, bind_assoc, pure_bind, List.append_assoc]

theorem listLines_singleton (ctx : Context) (splice : Splice) (x : Instr) :
    listLines ctx splice [x] = instrLines ctx splice x := by
  simp [listLines]

theorem Context.Matches.note (m : ctx.Matches ctx') (text : String) :
    ctx'.note text = ctx.note text := by
  simp only [Context.note, m.comments]

theorem Context.Matches.opLines (m : ctx.Matches ctx') (pos : Pos) (o : Op) :
    opLines ctx' pos o = opLines ctx pos o := by
  cases o <;> simp only [Target.opLines, m.proc]

theorem Context.Matches.nameLines (m : ctx.Matches ctx') {name : String}
    (h : ctx.program.inlines.get? name = none) (pos : Pos) :
    nameLines ctx' splice' pos name = nameLines ctx splice pos name := by
  simp only [Target.nameLines, m.inlines, h, m.note, m.memories, m.procs, m.depth]

theorem instrLines_ident (m : ctx.Matches ctx') {pos : Pos} {name : String}
    (h : Agrees ctx ctx' splice splice' sub [(name, pos)]) :
    listLines ctx' splice' ((Instr.op pos (.ident name)).substitute sub) =
      instrLines ctx splice (.op pos (.ident name)) := by
  have agrees := h (name, pos) (by simp)
  simp only [Instr.substitute, instrLines]
  cases hd : ctx.program.inlines.get? name with
  | none =>
    simp only [hd] at agrees
    rw [agrees, Option.getD_none, listLines_singleton, instrLines]
    exact m.nameLines hd pos
  | some d =>
    simp only [hd] at agrees
    obtain ⟨xs, hs, same⟩ := agrees
    rw [hs, Option.getD_some, same, nameLines, hd]

mutual

theorem instrLines_substitute (m : ctx.Matches ctx') (x : Instr)
    (h : Agrees ctx ctx' splice splice' sub x.uses) :
    listLines ctx' splice' (x.substitute sub) = instrLines ctx splice x := by
  match x with
  | .op p o =>
    cases o with
    | ident name => exact instrLines_ident m (by simpa [Instr.uses] using h)
    | _ => simp only [Instr.substitute, listLines_singleton, instrLines, m.opLines, m.note]
  | .branch p c b es o =>
    simp only [Instr.uses, agrees_append] at h
    obtain ⟨⟨⟨hc, hb⟩, hes⟩, ho⟩ := h
    rw [Instr.substitute, listLines_singleton, instrLines, instrLines]
    simp only [blockLines_substitute m c hc, blockLines_substitute m b hb,
      armLines_substitute m es hes, m.note]
    match o with
    | .absent => rfl
    | .mk q xs =>
      rw [Block.uses] at ho
      simp only [Block.substitute, listLines_substitute m xs ho]
  | .loop p c b =>
    simp only [Instr.uses, agrees_append] at h
    rw [Instr.substitute, listLines_singleton, instrLines, instrLines]
    simp only [blockLines_substitute m c h.1, blockLines_substitute m b h.2, m.note]

theorem blockLines_substitute (m : ctx.Matches ctx') (b : Block)
    (h : Agrees ctx ctx' splice splice' sub b.uses) :
    blockLines ctx' splice' (b.substitute sub) = blockLines ctx splice b := by
  match b with
  | .absent => rfl
  | .mk p xs =>
    rw [Block.uses] at h
    simp only [Block.substitute, blockLines, listLines_substitute m xs h]

theorem listLines_substitute (m : ctx.Matches ctx') (xs : List Instr)
    (h : Agrees ctx ctx' splice splice' sub (Instr.usesList xs)) :
    listLines ctx' splice' (Instr.substituteList sub xs) = listLines ctx splice xs := by
  match xs with
  | [] => rfl
  | x :: xs =>
    simp only [Instr.usesList, agrees_append] at h
    simp only [Instr.substituteList, listLines_append, listLines, instrLines_substitute m x h.2,
      listLines_substitute m xs h.1]

theorem armLines_substitute (m : ctx.Matches ctx') (es : List Arm)
    (h : Agrees ctx ctx' splice splice' sub (Arm.usesList es)) (last : Symbol) :
    armLines ctx' splice' last (Arm.substituteList sub es) = armLines ctx splice last es := by
  match es with
  | [] => rfl
  | .mk p c b :: rest =>
    simp only [Arm.usesList, agrees_append] at h
    simp only [Arm.substituteList, armLines, blockLines_substitute m c h.1.1,
      blockLines_substitute m b h.1.2, armLines_substitute m rest h.2, m.note]

end

theorem listLines_instrs (ctx : Context) (splice : Splice) (b : Block) :
    listLines ctx splice b.instrs = blockLines ctx splice b := by
  cases b <;> rfl

/-- An inline has the assembly of its substituted body, on whatever path it is met. -/
theorem inlineLines_eq (he : ctx.program.Expandable) (m : ctx.Matches ctx') {d : Routine}
    (hd : ctx.program.inlines.get? d.name = some d) {fuel : Nat} {active : List String}
    (path : ctx.program.Path fuel active)
    (chain : ∀ a ∈ active, Relation.TransGen ctx.program.Refers a d.name) (pos : Pos) :
    listLines ctx' splice' (d.body.substitute ctx.program.replacement).instrs =
      inlineLines ctx fuel active d pos := by
  have ends := he.ends d.name
  generalize hname : d.name = name at ends
  induction ends generalizing d fuel active pos with
  | intro name _ ih =>
    subst hname
    obtain ⟨fuel, rfl⟩ : ∃ f, fuel = f + 1 := ⟨fuel - 1, by have := path.fuel_pos; omega⟩
    have fresh : d.name ∉ active := fun hm => (he.ends d.name).not_transGen (chain _ hm)
    have hc : ¬ active.contains d.name := by simpa using fresh
    rw [listLines_instrs, inlineLines, if_neg hc]
    refine blockLines_substitute m d.body ?_
    intro u hu
    rw [he.replacement_eq]
    cases hu' : ctx.program.inlines.get? u.1 with
    | none => rfl
    | some e =>
      refine ⟨_, rfl, ?_⟩
      have name := he.own hu'
      rw [← name] at hu'
      have refers : ctx.program.Refers d.name e.name := by
        refine ⟨d, u.2, hd, ?_, by simp [hu']⟩
        rw [name]
        exact hu
      refine ih e.name refers hu' (path.extend fresh (by simp [hd])) ?_ u.2 rfl
      intro a ha
      rcases List.mem_append.mp ha with ha | ha
      · exact (chain a ha).tail refers
      · rw [List.mem_singleton.mp ha]
        exact .single refers

variable {p : Program}

theorem matches_mapProcs (p : Program) (f : Routine → Routine) (depth : Int) (comments : Bool)
    (proc : String) :
    Context.Matches ⟨p, depth, comments, proc⟩ ⟨p.mapProcs f, depth, comments, proc⟩ where
  inlines := rfl
  memories := rfl
  procs := by
    intro name
    change ((p.procs.map f).get? name).isSome = (p.procs.get? name).isSome
    rw [Table.get?_map, Option.isSome_map]
  depth := rfl
  comments := rfl
  proc := rfl

theorem procLines_returning {r : Routine} (last : r.body.lastIsReturn) (depth : Int)
    (comments : Bool) :
    procLines p depth comments r = do
      let ctx : Context := ⟨p, depth, comments, r.name⟩
      let lines ← blockLines ctx (inlineLines ctx (p.inlines.size + 1) []) r.body
      return label (.proc r.name) :: lines ++ [] ++ [blank] := by
  obtain ⟨serial, name, pos, namePos, body⟩ := r
  cases body with
  | absent => cases last
  | mk q xs =>
    unfold procLines
    dsimp only at last ⊢
    rw [if_pos last]

theorem procLines_expanded (he : p.Expandable) {r : Routine} (last : r.body.lastIsReturn)
    (depth : Int) (comments : Bool) :
    procLines (p.mapProcs p.expandProc) depth comments (p.expandProc r) =
      procLines p depth comments r := by
  have m := matches_mapProcs p p.expandProc depth comments r.name
  have path : p.Path (p.inlines.size + 1) [] := Program.path_nil (Nat.lt_succ_self _)
  have last' : (p.expandProc r).body.lastIsReturn := Block.lastIsReturn_substitute last
  rw [procLines_returning last', procLines_returning last]
  dsimp only
  refine congrArg (· >>= _) (blockLines_substitute m r.body ?_)
  rintro ⟨name, pos⟩ _
  rw [he.replacement_eq]
  cases hd : p.inlines.get? name with
  | none => simp only [Option.map_none]
  | some d =>
    simp only [Option.map_some]
    refine ⟨_, rfl, ?_⟩
    obtain rfl := he.own hd
    exact inlineLines_eq he m hd path (by simp) pos

theorem procsLines_expanded (he : p.Expandable) {rs : List Routine}
    (last : ∀ r ∈ rs, r.body.lastIsReturn) (depth : Int) (comments : Bool) :
    procsLines (p.mapProcs p.expandProc) depth comments (rs.map p.expandProc) =
      procsLines p depth comments rs := by
  induction rs with
  | nil => rfl
  | cons r rest ih =>
    obtain ⟨here, later⟩ := List.forall_mem_cons.mp last
    simp only [List.map_cons, procsLines, procLines_expanded he here, ih later]

/-- A program that breaks no rule has the same assembly before and after its inlines are
expanded. -/
theorem generate_expanded (hv : p.violations false = []) (hc : p.checkCycles = .ok ())
    (s : Settings) : generate (p.mapProcs p.expandProc) s = generate p s := by
  obtain ⟨_, h, valid⟩ := Program.violations_eq_nil_iff.mp hv
  have last : ∀ r ∈ p.procDecls, r.body.lastIsReturn :=
    fun r hr => (valid _ (Program.mem_procDecls.mp hr)).2.1
  unfold generate
  dsimp only
  rw [Program.entry?_mapProcs, Option.isNone_map, Program.checkCycles_mapProcs,
    Program.procDecls_mapProcs, Program.memoryDecls_mapProcs,
    procsLines_expanded (h.expandable hc valid) last]
  rfl

/-- A depth that is accepted and an entry point leave only cycles and the procedures to fail. -/
theorem generate_of_entry {s : Settings} (depth : 0 ≤ s.depth ∧ s.depth ≤ maxDepth)
    (entry : p.entry?.isSome) :
    generate p s = match p.checkCycles with
      | .error c => .error (.fault (.cycle c))
      | .ok () =>
        match (procsLines p s.actualDepth s.comments p.procDecls).run {} with
        | .error f => .error (.fault f)
        | .ok (lines, pool) =>
          .ok (header p.file s.comments ++ routines ++ lines ++ memorySection p.memoryDecls ++
            dataSection s.actualDepth s.comments pool.strings) := by
  have accepted : ¬ (s.actualDepth < 0 ∨ maxDepth < s.actualDepth) := by
    unfold Settings.actualDepth
    have usual : 0 ≤ defaultDepth ∧ defaultDepth ≤ maxDepth := by decide
    split <;> omega
  have found : ¬ p.entry?.isNone := by simpa [Option.isSome_iff_ne_none] using entry
  unfold generate
  dsimp only
  exact (if_neg accepted).trans (if_neg found)

end StackLang.Target
