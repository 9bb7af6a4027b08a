import StackLang.Failure
import StackLang.Proofs.Inline.Unfolding
import StackLang.Proofs.Target.Emission
import StackLang.Proofs.Target.Splicing
/-!
The names that the generator has to resolve. Bodies are gone through from left to right, and the
name of an inline leads through its body. The assembly exists exactly if every name met stands for
a declaration; otherwise the first one that does not is refused.
-/

namespace StackLang

/-! ### Names in the order in which they are met -/

/-- The name that a part of a program is, and its place. -/
def Node.name? : Node → Option (String × Pos)
  | .instr (.op pos (.ident name)) => some (name, pos)
  | _ => none

/-- The names among parts of a program, in order. -/
def namesOf (nodes : List Node) : List (String × Pos) :=
  nodes.filterMap Node.name?

/-- The names in a block at whatever depth, from left to right. -/
def Block.names (b : Block) : List (String × Pos) :=
  namesOf (b.nodes fun _ => true)

@[simp] theorem namesOf_nil : namesOf [] = [] := rfl

@[simp] theorem namesOf_append (ns ms : List Node) :
    namesOf (ns ++ ms) = namesOf ns ++ namesOf ms :=
  List.filterMap_append

theorem namesOf_cons {n : Node} (h : n.name? = none) (ns : List Node) :
    namesOf (n :: ns) = namesOf ns :=
  List.filterMap_cons_none h

theorem mem_namesOf {nodes : List Node} {name : String} {pos : Pos} :
    (name, pos) ∈ namesOf nodes ↔ .instr (.op pos (.ident name)) ∈ nodes := by
  unfold namesOf
  rw [List.mem_filterMap]
  constructor
  · rintro ⟨n, hn, h⟩
    unfold Node.name? at h
    split at h <;> cases h
    exact hn
  · intro h
    exact ⟨_, h, rfl⟩

theorem Block.mem_names {b : Block} {name : String} {pos : Pos} :
    (name, pos) ∈ b.names ↔ b.Mentions name pos :=
  mem_namesOf

/-- The names reached from a block: those that stand in it, and those reached from the bodies of the
inlines among them. -/
inductive Block.Reaches (p : Program) : Block → String → Pos → Prop
  | here {b : Block} {name : String} {pos : Pos} : b.Mentions name pos → Block.Reaches p b name pos
  | through {b : Block} {a name : String} {q pos : Pos} {d : Routine} : b.Mentions a q →
      p.inlines.get? a = some d → Block.Reaches p d.body name pos → Block.Reaches p b name pos

/-- Every name that is reached from a procedure stands for a declaration. -/
def Program.Resolved (p : Program) : Prop :=
  ∀ r, .proc r ∈ p.decls → ∀ name pos, r.body.Reaches p name pos → (p.lookup name).isSome

/-- The names met on the way through a program: procedures in the order of their declaration, each
body from left to right, and the name of an inline gives way to what is met in its body. -/
def Program.Meets (p : Program) (names : List (String × Pos)) : Prop :=
  ∃ bodies, List.Forall₂ (Block.Unfolds p) (p.procDecls.map Routine.body) bodies ∧
    names = bodies.flatMap Block.names

namespace Target

/-! ### What lowering comes to -/

section

variable {α β : Type} {p : Program}

/-- What a computation comes to that meets the given names in this order: it stops at the first one
that stands for no declaration, if there is one. -/
def Settles (p : Program) (m : Lowering α) (names : List (String × Pos)) : Prop :=
  ∀ pool, match names.find? fun u => (p.lookup u.1).isNone with
    | none => ∃ a pool', m pool = .ok (a, pool')
    | some u => m pool = .error (.refused u.2 (.unknownName u.1))

theorem settles_pure (a : α) : Settles p (pure a) [] :=
  fun pool => ⟨a, pool, rfl⟩

theorem Settles.bind {m : Lowering α} {f : α → Lowering β} {ns ms : List (String × Pos)}
    (hm : Settles p m ns) (hf : ∀ a, Settles p (f a) ms) : Settles p (m >>= f) (ns ++ ms) := by
  intro pool
  have first := hm pool
  have run : (m >>= f) pool = m pool >>= fun r => f r.1 r.2 := rfl
  rw [List.find?_append, run]
  cases hn : ns.find? fun u => (p.lookup u.1).isNone with
  | some u =>
    rw [hn] at first
    simp only [Option.some_or, first]
    rfl
  | none =>
    rw [hn] at first
    obtain ⟨a, mid, ha⟩ := first
    rw [ha]
    exact hf a mid

theorem Settles.map {m : Lowering α} {ns : List (String × Pos)} (hm : Settles p m ns)
    (f : α → β) : Settles p (m >>= fun a => pure (f a)) ns := by
  have whole := hm.bind fun a => settles_pure (f a)
  rwa [List.append_nil] at whole

/-- A computation that meets no name goes on to the next one. -/
theorem Settles.skip {m : Lowering α} {f : α → Lowering β} {ns : List (String × Pos)}
    (hm : Settles p m []) (hf : ∀ a, Settles p (f a) ns) : Settles p (m >>= f) ns :=
  hm.bind hf

theorem settles_freshLabel : Settles p freshLabel [] :=
  fun _ => ⟨_, _, rfl⟩

theorem settles_internString (value : String) : Settles p (internString value) [] := by
  intro pool
  change ∃ a pool', internString value pool = .ok (a, pool')
  unfold internString
  split
  next => exact ⟨_, _, rfl⟩
  next => exact ⟨_, _, rfl⟩

theorem Settles.known {m : Lowering α} (hm : Settles p m []) {u : String × Pos}
    (known : (p.lookup u.1).isNone = false) : Settles p m [u] := by
  intro pool
  rw [List.find?_cons_of_neg (by simp [known])]
  exact hm pool

theorem settles_unknown {name : String} (unknown : (p.lookup name).isNone = true) (pos : Pos) :
    Settles p (stop (.refused pos (.unknownName name)) : Lowering α) [(name, pos)] := by
  intro pool
  rw [List.find?_cons_of_pos (by simpa using unknown)]
  rfl

end

theorem readLine?_isSome {w : Int} (h : Token.isWidth w) : ∃ line, readLine? w = some line := by
  simp only [Token.isWidth, Bool.or_eq_true, beq_iff_eq] at h
  rcases h with ((rfl | rfl) | rfl) | rfl <;> exact ⟨_, rfl⟩

theorem writeLine?_isSome {w : Int} (h : Token.isWidth w) : ∃ line, writeLine? w = some line := by
  simp only [Token.isWidth, Bool.or_eq_true, beq_iff_eq] at h
  rcases h with ((rfl | rfl) | rfl) | rfl <;> exact ⟨_, rfl⟩

variable {p : Program} {ctx : Context} {splice : Splice}

/-- An instruction that breaks no rule and is no name always has assembly. -/
theorem opLines_settles {allowed : String → Prop} {o : Op} (valid : o.Valid allowed)
    (other : ∀ name, o ≠ .ident name) (pos : Pos) : Settles p (opLines ctx pos o) [] := by
  cases o with
  | binary t =>
    cases t with
    | operator o => exact settles_pure _
    | _ => cases valid
  | pushStr value raw => exact (settles_internString value).map _
  | load w =>
    obtain ⟨line, found⟩ := readLine?_isSome valid
    simp only [opLines, found]
    exact settles_pure _
  | store w =>
    obtain ⟨line, found⟩ := writeLine?_isSome valid
    simp only [opLines, found]
    exact settles_pure _
  | syscall n =>
    have few : n ≤ argumentRegs.length := by
      have bound : n ≤ Token.syscallLimit := valid.2
      simp only [Token.syscallLimit, argumentRegs, List.length_cons, List.length_nil] at bound ⊢
      omega
    rw [opLines, if_pos few]
    exact settles_pure _
  | ident name => exact absurd rfl (other name)
  | _ => exact settles_pure _

/-- A name that is no inline is a memory region, a procedure, or refused. -/
theorem nameLines_settles {name : String} (free : ctx.program.inlines.get? name = none)
    (pos : Pos) : Settles ctx.program (nameLines ctx splice pos name) [(name, pos)] := by
  have found : (ctx.program.lookup name).isNone =
      !(ctx.program.procs.contains name || ctx.program.memories.contains name) := by
    simp only [Program.lookup, free, Table.contains]
    cases ctx.program.procs.get? name <;> cases ctx.program.memories.get? name <;> rfl
  rw [nameLines, free]
  dsimp only
  split
  next region => exact (settles_pure _).known (by simp [found, region])
  next region =>
    split
    next proc => exact (settles_freshLabel.map _).known (by simp [found, proc])
    next proc => exact settles_unknown (by simp [found, region, proc]) pos

theorem namesOf_branch (pos : Pos) (c b : Block) (es : List Arm) (o : Block) :
    namesOf ((Instr.branch pos c b es o).nodes fun _ => true) =
      c.names ++ (b.names ++ (namesOf (Arm.nodesList (fun _ => true) es) ++ o.names)) := by
  rw [Instr.nodes, if_pos rfl, namesOf_cons rfl]
  simp only [namesOf_append, List.append_assoc, Block.names]

theorem namesOf_loop (pos : Pos) (c b : Block) :
    namesOf ((Instr.loop pos c b).nodes fun _ => true) = c.names ++ b.names := by
  rw [Instr.nodes, if_pos rfl, namesOf_cons rfl, namesOf_append]
  rfl

theorem namesOf_arms (pos : Pos) (c b : Block) (es : List Arm) :
    namesOf (Arm.nodesList (fun _ => true) (.mk pos c b :: es)) =
      c.names ++ (b.names ++ namesOf (Arm.nodesList (fun _ => true) es)) := by
  rw [Arm.nodesList, if_pos rfl, namesOf_cons rfl]
  simp only [namesOf_append, List.append_assoc, Block.names]

theorem names_mk (pos : Pos) (xs : List Instr) :
    (Block.mk pos xs).names = namesOf (Instr.nodesList (fun _ => true) xs) := by
  rw [Block.names, Block.nodes, if_pos rfl, namesOf_cons rfl]

theorem instrLines_op_settles {pos : Pos} {o : Op} (valid : o.Valid (ctx.program.Allows true)) :
    Settles ctx.program (instrLines ctx splice (.op pos o))
      (namesOf ((Instr.op pos o).nodes fun _ => true)) := by
  by_cases hn : ∃ name, o = .ident name
  · obtain ⟨name, rfl⟩ := hn
    have free : ctx.program.inlines.get? name = none := by
      simpa [Table.contains] using valid rfl
    exact nameLines_settles free pos
  · have other : ∀ name, o ≠ .ident name := fun name same => hn ⟨name, same⟩
    have none : namesOf ((Instr.op pos o).nodes fun _ => true) = [] := by
      cases o with
      | ident name => exact absurd rfl (other name)
      | _ => simp [Instr.nodes, namesOf, Node.name?]
    rw [instrLines_op other, none]
    exact (opLines_settles valid other pos).map _

mutual

theorem instrLines_settles (x : Instr) (valid : x.Valid (ctx.program.Allows true)) :
    Settles ctx.program (instrLines ctx splice x) (namesOf (x.nodes fun _ => true)) := by
  match x with
  | .op pos o => exact instrLines_op_settles valid
  | .branch pos c b es o =>
    obtain ⟨_, hc, hb, hes, ho⟩ := valid
    rw [namesOf_branch, instrLines]
    refine settles_freshLabel.skip fun last => settles_freshLabel.skip fun next => ?_
    refine (blockLines_settles c hc).bind fun cond => (blockLines_settles b hb).bind fun body => ?_
    refine (armLines_settles es hes last).bind fun arms => ?_
    match o with
    | .absent => exact (settles_pure []).map _
    | .mk q xs =>
      rw [names_mk]
      exact (listLines_settles xs ho).map _
  | .loop pos c b =>
    obtain ⟨_, hc, hb⟩ := valid
    rw [namesOf_loop, instrLines]
    refine settles_freshLabel.skip fun first => settles_freshLabel.skip fun last => ?_
    refine (blockLines_settles c hc).bind fun cond => ?_
    exact (blockLines_settles b hb).map _

theorem blockLines_settles (b : Block) (valid : b.Valid (ctx.program.Allows true)) :
    Settles ctx.program (blockLines ctx splice b) b.names := by
  match b with
  | .absent => exact settles_pure _
  | .mk q xs =>
    rw [names_mk]
    exact listLines_settles xs valid

theorem listLines_settles (xs : List Instr)
    (valid : Instr.ValidList (ctx.program.Allows true) xs) :
    Settles ctx.program (listLines ctx splice xs)
      (namesOf (Instr.nodesList (fun _ => true) xs)) := by
  match xs with
  | [] => exact settles_pure _
  | x :: xs =>
    rw [Instr.nodesList, namesOf_append, listLines]
    refine (instrLines_settles x valid.1).bind fun first => ?_
    exact (listLines_settles xs valid.2).map _

theorem armLines_settles (es : List Arm) (valid : Arm.ValidList (ctx.program.Allows true) es)
    (last : Symbol) :
    Settles ctx.program (armLines ctx splice last es)
      (namesOf (Arm.nodesList (fun _ => true) es)) := by
  match es with
  | [] => exact settles_pure _
  | .mk q c b :: rest =>
    obtain ⟨⟨hc, hb⟩, hrest⟩ := valid
    rw [namesOf_arms, armLines]
    refine settles_freshLabel.skip fun next => ?_
    refine (blockLines_settles c hc).bind fun cond => (blockLines_settles b hb).bind fun body => ?_
    exact (armLines_settles rest hrest last).map _

end

/-- Procedures are gone through in order. -/
theorem procsLines_settles {rs : List Routine} (depth : Int) (comments : Bool)
    (valid : ∀ r ∈ rs, r.body.lastIsReturn ∧ r.body.Valid (p.Allows true)) :
    Settles p (procsLines p depth comments rs) (rs.flatMap fun r => r.body.names) := by
  induction rs with
  | nil => exact settles_pure _
  | cons r rest ih =>
    obtain ⟨⟨last, body⟩, later⟩ := List.forall_mem_cons.mp valid
    let ctx : Context := ⟨p, depth, comments, r.name⟩
    have here : Settles ctx.program
        (blockLines ctx (inlineLines ctx (p.inlines.size + 1) []) r.body) r.body.names :=
      blockLines_settles r.body body
    rw [List.flatMap_cons, procsLines, procLines_returning last]
    exact (here.map _).bind fun first => (ih later).map _

end Target

/-! ### Names met and names reached -/

variable {p : Program}

/-- The names met when inlines are replaced by substitution. -/
def Program.met (p : Program) : List (String × Pos) :=
  p.procDecls.flatMap fun r => (r.body.substitute p.replacement).names

theorem Program.Expandable.meets_iff (h : p.Expandable) {names : List (String × Pos)} :
    p.Meets names ↔ names = p.met := by
  have unfolds : Block.Unfolds p = fun b b' => b.substitute p.replacement = b' := by
    funext b b'
    exact propext (h.unfolds_iff.trans eq_comm)
  have bodies {bs : List Block} :
      List.Forall₂ (Block.Unfolds p) (p.procDecls.map Routine.body) bs ↔
        p.procDecls.map (fun r => r.body.substitute p.replacement) = bs := by
    rw [unfolds, List.forall₂_map_left_iff, ← List.forall₂_map_left_iff, List.forall₂_eq_eq_eq]
  unfold Meets met
  simp only [bodies]
  rw [exists_eq_left', List.flatMap_map]

/-- What stands in the place of a name after substitution. -/
def Replacement.outcome (sub : Replacement) (u : String × Pos) : List Instr :=
  (sub u.1 u.2).getD [.op u.2 (.ident u.1)]

theorem Instr.mem_usesList_append {xs ys : List Instr} {v : String × Pos} :
    v ∈ Instr.usesList (xs ++ ys) ↔ v ∈ Instr.usesList xs ∨ v ∈ Instr.usesList ys := by
  induction xs with
  | nil => simp [Instr.usesList]
  | cons x xs ih =>
    rw [List.cons_append, Instr.usesList, Instr.usesList, List.mem_append, List.mem_append, ih]
    exact or_right_comm

mutual

theorem Instr.mem_uses_substitute {sub : Replacement} {v : String × Pos} (x : Instr) :
    v ∈ Instr.usesList (x.substitute sub) ↔
      ∃ u ∈ x.uses, v ∈ Instr.usesList (sub.outcome u) := by
  match x with
  | .op pos o =>
    cases o with
    | ident name => simp [Instr.substitute, Instr.uses, Replacement.outcome]
    | _ => simp [Instr.substitute, Instr.uses, Instr.usesList]
  | .branch pos c b es o =>
    simp only [Instr.substitute, Instr.usesList, Instr.uses, List.nil_append, List.mem_append,
      or_and_right, exists_or, c.mem_uses_substitute, b.mem_uses_substitute,
      Arm.mem_usesList_substitute es, o.mem_uses_substitute]
  | .loop pos c b =>
    simp only [Instr.substitute, Instr.usesList, Instr.uses, List.nil_append, List.mem_append,
      or_and_right, exists_or, c.mem_uses_substitute, b.mem_uses_substitute]

theorem Block.mem_uses_substitute {sub : Replacement} {v : String × Pos} (b : Block) :
    v ∈ (b.substitute sub).uses ↔ ∃ u ∈ b.uses, v ∈ Instr.usesList (sub.outcome u) := by
  match b with
  | .absent => simp [Block.substitute, Block.uses]
  | .mk pos xs =>
    rw [Block.substitute, Block.uses, Block.uses, Instr.mem_usesList_substitute xs]

theorem Instr.mem_usesList_substitute {sub : Replacement} {v : String × Pos} (xs : List Instr) :
    v ∈ Instr.usesList (Instr.substituteList sub xs) ↔
      ∃ u ∈ Instr.usesList xs, v ∈ Instr.usesList (sub.outcome u) := by
  match xs with
  | [] => simp [Instr.substituteList, Instr.usesList]
  | x :: xs =>
    simp only [Instr.substituteList, Instr.mem_usesList_append, Instr.usesList, List.mem_append,
      or_and_right, exists_or, x.mem_uses_substitute, Instr.mem_usesList_substitute xs]
    exact or_comm

theorem Arm.mem_usesList_substitute {sub : Replacement} {v : String × Pos} (es : List Arm) :
    v ∈ Arm.usesList (Arm.substituteList sub es) ↔
      ∃ u ∈ Arm.usesList es, v ∈ Instr.usesList (sub.outcome u) := by
  match es with
  | [] => simp [Arm.substituteList, Arm.usesList]
  | .mk pos c b :: rest =>
    simp only [Arm.substituteList, Arm.usesList, List.mem_append, or_and_right, exists_or,
      c.mem_uses_substitute, b.mem_uses_substitute, Arm.mem_usesList_substitute rest]

end

namespace Program.Expandable

theorem mem_outcome_none (h : p.Expandable) {u v : String × Pos}
    (none : p.inlines.get? u.1 = none) :
    v ∈ Instr.usesList (p.replacement.outcome u) ↔ v = u := by
  simp [Replacement.outcome, h.replacement_none none, Instr.usesList, Instr.uses]

theorem mem_outcome_some (h : p.Expandable) {u v : String × Pos} {d : Routine}
    (found : p.inlines.get? u.1 = some d) :
    v ∈ Instr.usesList (p.replacement.outcome u) ↔ v ∈ (d.body.substitute p.replacement).uses := by
  rw [Replacement.outcome, h.replacement_some found, Option.getD_some, ← Block.instrs_substitute,
    Block.usesList_instrs]

/-- What is left after substitution is reached before it, and no inline. -/
theorem reaches_of_mem (h : p.Expandable) {b : Block}
    (inner : ∀ u ∈ b.uses, ∀ d, p.inlines.get? u.1 = some d → ∀ name pos,
      (name, pos) ∈ (d.body.substitute p.replacement).uses →
        d.body.Reaches p name pos ∧ p.inlines.get? name = none)
    {name : String} {pos : Pos} (hm : (name, pos) ∈ (b.substitute p.replacement).uses) :
    b.Reaches p name pos ∧ p.inlines.get? name = none := by
  obtain ⟨u, hu, hv⟩ := (b.mem_uses_substitute).mp hm
  cases hd : p.inlines.get? u.1 with
  | none =>
    have same := (h.mem_outcome_none hd).mp hv
    subst same
    exact ⟨.here (Block.mentions_iff.mpr hu), hd⟩
  | some d =>
    obtain ⟨reaches, none⟩ := inner u hu d hd name pos ((h.mem_outcome_some hd).mp hv)
    exact ⟨.through (Block.mentions_iff.mpr hu) hd reaches, none⟩

theorem mem_uses_of_reaches (h : p.Expandable) {b : Block} {name : String} {pos : Pos}
    (reaches : b.Reaches p name pos) (none : p.inlines.get? name = none) :
    (name, pos) ∈ (b.substitute p.replacement).uses := by
  induction reaches with
  | here mentions =>
    exact (Block.mem_uses_substitute _).mpr
      ⟨_, Block.mentions_iff.mp mentions, (h.mem_outcome_none none).mpr rfl⟩
  | through mentions found _ ih =>
    exact (Block.mem_uses_substitute _).mpr
      ⟨_, Block.mentions_iff.mp mentions, (h.mem_outcome_some found).mpr (ih none)⟩

/-- The names left after substitution are those that are reached and are no inlines. The induction
follows the chains of uses, which all end. -/
theorem mem_uses_substitute_iff (h : p.Expandable) {b : Block} {name : String} {pos : Pos} :
    (name, pos) ∈ (b.substitute p.replacement).uses ↔
      b.Reaches p name pos ∧ p.inlines.get? name = none := by
  have inner (a : String) : ∀ d, p.inlines.get? a = some d → ∀ name pos,
      (name, pos) ∈ (d.body.substitute p.replacement).uses →
        d.body.Reaches p name pos ∧ p.inlines.get? name = none := by
    induction h.ends a with
    | intro a _ ih =>
      intro d hd name pos hm
      refine h.reaches_of_mem (fun u hu e he => ?_) hm
      exact ih u.1 ⟨d, u.2, hd, hu, by simp [he]⟩ e he
  exact ⟨h.reaches_of_mem fun u _ => inner u.1, fun hr => h.mem_uses_of_reaches hr.1 hr.2⟩

/-- Every name that is reached resolves exactly if every name that is met does. -/
theorem resolved_iff (h : p.Expandable) :
    p.Resolved ↔ ∀ u ∈ p.met, (p.lookup u.1).isSome := by
  constructor
  · rintro resolved ⟨name, pos⟩ hu
    obtain ⟨r, hr, hm⟩ := List.mem_flatMap.mp hu
    have uses := Block.mentions_iff.mp (Block.mem_names.mp hm)
    exact resolved r (mem_procDecls.mp hr) name pos (h.mem_uses_substitute_iff.mp uses).1
  · intro met r hr name pos reaches
    cases hd : p.inlines.get? name with
    | some d => simp [Program.lookup, hd]
    | none =>
      refine met (name, pos) (List.mem_flatMap.mpr ⟨r, mem_procDecls.mpr hr, ?_⟩)
      have uses := h.mem_uses_substitute_iff.mpr ⟨reaches, hd⟩
      exact Block.mem_names.mpr (Block.mentions_iff.mpr uses)

end Program.Expandable

/-! ### The assembly of a program -/

namespace Target

theorem lookup_mapProcs (f : Routine → Routine) (name : String) :
    (Program.lookup (p.mapProcs f) name).isNone = (p.lookup name).isNone := by
  have procs : (p.mapProcs f).procs.get? name = (p.procs.get? name).map f := Table.get?_map ..
  have inlines : (p.mapProcs f).inlines = p.inlines := rfl
  have memories : (p.mapProcs f).memories = p.memories := rfl
  unfold Program.lookup
  rw [procs, inlines, memories]
  cases p.procs.get? name <;> simp

theorem procsLines_met (hv : p.violations false = []) (hc : p.checkCycles = .ok ()) (depth : Int)
    (comments : Bool) : Settles p (procsLines p depth comments p.procDecls) p.met := by
  obtain ⟨_, h, valid⟩ := Program.violations_eq_nil_iff.mp hv
  obtain ⟨_, _, valid'⟩ := Program.violations_eq_nil_iff.mp (p.violations_expanded hv hc)
  have last : ∀ r ∈ p.procDecls, r.body.lastIsReturn :=
    fun r hr => (valid _ (Program.mem_procDecls.mp hr)).2.1
  have bodies : ∀ r ∈ p.procDecls.map p.expandProc,
      r.body.lastIsReturn ∧ r.body.Valid ((p.mapProcs p.expandProc).Allows true) := by
    intro r hr
    rw [← Program.procDecls_mapProcs] at hr
    exact (valid' _ (Program.mem_procDecls.mp hr)).2
  have settles := procsLines_settles depth comments bodies
  rw [procsLines_expanded (h.expandable hc valid) last, List.flatMap_map] at settles
  unfold Settles at settles
  simp only [lookup_mapProcs] at settles
  exact settles

/-- The assembly of a program without cycles: it exists, or the first name that stands for no
declaration is refused. -/
theorem assemble_met {s : Settings} (hv : p.violations false = []) (hc : p.checkCycles = .ok ())
    (depth : 0 ≤ s.depth ∧ s.depth ≤ maxDepth) :
    match p.met.find? fun u => (p.lookup u.1).isNone with
    | none => ∃ text, p.assemble s = .ok text
    | some u => p.assemble s = .error (.generation u.2 (.unknownName u.1)) := by
  obtain ⟨entry, _, _⟩ := Program.violations_eq_nil_iff.mp hv
  have settles := procsLines_met hv hc s.actualDepth s.comments {}
  have generates := generate_of_entry depth entry
  rw [hc] at generates
  unfold Program.assemble
  rw [generates]
  split at settles
  next =>
    obtain ⟨lines, pool, run⟩ := settles
    simp only [StateT.run, run]
    exact ⟨_, rfl⟩
  next u _ =>
    simp only [StateT.run, settles]
    rfl

/-- A program that breaks no rule and has no cycle has assembly exactly if every name reached from
its procedures stands for a declaration. Otherwise the first name met that stands for none is
refused. -/
theorem assembles_iff_resolved {s : Settings} (hv : p.violations false = []) (acyclic : p.Acyclic)
    (depth : 0 ≤ s.depth ∧ s.depth ≤ maxDepth) :
    ((∃ text, p.assemble s = .ok text) ↔ p.Resolved) ∧
      ∃ names, (∀ names', p.Meets names' ↔ names' = names) ∧
        ∀ f, p.assemble s = .error f → ∃ before name pos after,
          names = before ++ (name, pos) :: after ∧ (∀ u ∈ before, (p.lookup u.1).isSome) ∧
            p.lookup name = none ∧ f = .generation pos (.unknownName name) ∧
            f.message = generationMessage pos ("unknown identifier " ++ name) := by
  obtain ⟨_, h, valid⟩ := Program.violations_eq_nil_iff.mp hv
  have hc : p.checkCycles = .ok () := h.checkCycles_eq_ok_iff.mpr acyclic
  have expandable := h.expandable hc valid
  have outcome := assemble_met hv hc depth
  refine ⟨?_, p.met, fun _ => expandable.meets_iff, ?_⟩
  · rw [expandable.resolved_iff]
    split at outcome
    next none =>
      have known := List.find?_eq_none.mp none
      exact iff_of_true outcome fun u hu => by simpa [Option.isSome_iff_ne_none] using known u hu
    next u found =>
      have unknown := List.find?_some found
      refine iff_of_false (by simp [outcome]) fun known => ?_
      have known := known u (List.mem_of_find?_eq_some found)
      simp [Option.isSome_iff_ne_none] at known unknown
      exact known unknown
  · intro f fails
    split at outcome
    next =>
      obtain ⟨text, done⟩ := outcome
      rw [done] at fails
      cases fails
    next u found =>
      rw [outcome] at fails
      cases fails
      obtain ⟨unknown, before, after, parts, known⟩ := List.find?_eq_some_iff_append.mp found
      refine ⟨before, u.1, u.2, after, parts, ?_, by simpa using unknown, rfl, rfl⟩
      intro v hv
      simpa [Option.isSome_iff_ne_none] using known v hv

/-- Main leads to an unknown name through two inlines, one of them in a loop, and to a later one
directly. An inline that is not used holds the first unknown name of the text. -/
def errant : Program :=
  let name (line : Nat) (s : String) : Instr := .op ⟨"", line, 1⟩ (.ident s)
  let block (xs : List Instr) : Block := .mk default xs
  let routine (s : String) (xs : List Instr) : Routine :=
    { name := s, pos := default, namePos := default, body := block xs }
  let idle := routine "idle" [name 1 "nowhere"]
  let outer := routine "outer" [.loop default (block [name 2 "inner"]) (block [])]
  let inner := routine "inner" [name 3 "main", name 4 "lost"]
  let main := routine Source.entryPoint
    [.branch default (block [name 5 "outer"]) (block [name 6 "gone"]) [] .absent, .op default .ret]
  (((({ file := "" } : Program).insert (.inline idle)).insert (.inline outer)).insert
    (.inline inner)).insert (.proc main)

theorem errant_refused : errant.violations false = [] ∧ errant.Acyclic ∧ ¬ errant.Resolved ∧
    ∃ f, errant.assemble {} = .error f ∧
      f.message = "4:1: generation error: unknown identifier lost" := by
  have rules : errant.violations false = [] := by cbv
  have search : errant.checkCycles = .ok () := by cbv
  have acyclic : errant.Acyclic :=
    (Program.violations_eq_nil_iff.mp rules).2.1.checkCycles_eq_ok_iff.mp search
  have refused : errant.assemble {} = .error (.generation ⟨"", 4, 1⟩ (.unknownName "lost")) := by
    cbv
  obtain ⟨exact, _, _, first⟩ := assembles_iff_resolved (s := {}) rules acyclic (by decide)
  obtain ⟨_, name, pos, _, _, _, _, same, message⟩ := first _ refused
  cases same
  refine ⟨rules, acyclic, ?_, _, refused, message.trans (by decide)⟩
  rw [← exact, refused]
  simp

end Target

end StackLang
