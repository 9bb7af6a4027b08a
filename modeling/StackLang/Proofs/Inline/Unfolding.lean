import StackLang.Proofs.Inline.Cycles
import StackLang.Proofs.Inline.Expanded
/-!
The pass that expands inlines against a plain reading of what expansion is: in order, the name of an
inline gives way to the unfolding of its body, and everything else stays. The rules below recur on
bodies and not on the search path, so they say nothing of how expansion is carried out.
-/

namespace StackLang

mutual

/-- What a list of instructions unfolds to. -/
inductive Instr.Unfolds (p : Program) : List Instr → List Instr → Prop
  | nil : Instr.Unfolds p [] []
  | plain {pos : Pos} {o : Op} {xs ys : List Instr} :
      (∀ name, o = .ident name → p.inlines.get? name = none) →
      Instr.Unfolds p xs ys → Instr.Unfolds p (.op pos o :: xs) (.op pos o :: ys)
  | inline {pos : Pos} {name : String} {d : Routine} {xs ys zs : List Instr} :
      p.inlines.get? name = some d → Instr.Unfolds p d.body.instrs zs →
      Instr.Unfolds p xs ys → Instr.Unfolds p (.op pos (.ident name) :: xs) (zs ++ ys)
  | branch {pos : Pos} {c c' b b' o o' : Block} {es es' : List Arm} {xs ys : List Instr} :
      Block.Unfolds p c c' → Block.Unfolds p b b' → Arm.Unfolds p es es' →
      Block.Unfolds p o o' → Instr.Unfolds p xs ys →
      Instr.Unfolds p (.branch pos c b es o :: xs) (.branch pos c' b' es' o' :: ys)
  | loop {pos : Pos} {c c' b b' : Block} {xs ys : List Instr} :
      Block.Unfolds p c c' → Block.Unfolds p b b' → Instr.Unfolds p xs ys →
      Instr.Unfolds p (.loop pos c b :: xs) (.loop pos c' b' :: ys)

/-- What a block unfolds to. An absent block stays absent, and an empty one stays empty. -/
inductive Block.Unfolds (p : Program) : Block → Block → Prop
  | absent : Block.Unfolds p .absent .absent
  | mk {pos : Pos} {xs ys : List Instr} :
      Instr.Unfolds p xs ys → Block.Unfolds p (.mk pos xs) (.mk pos ys)

/-- What the arms of a conditional unfold to. -/
inductive Arm.Unfolds (p : Program) : List Arm → List Arm → Prop
  | nil : Arm.Unfolds p [] []
  | cons {pos : Pos} {c c' b b' : Block} {es es' : List Arm} :
      Block.Unfolds p c c' → Block.Unfolds p b b' → Arm.Unfolds p es es' →
      Arm.Unfolds p (.mk pos c b :: es) (.mk pos c' b' :: es')

end

variable {p : Program}

mutual

/-- Unfolding leaves no choice. -/
theorem Instr.Unfolds.unique {xs ys zs : List Instr} :
    Instr.Unfolds p xs ys → Instr.Unfolds p xs zs → ys = zs
  | .nil, .nil => rfl
  | .plain _ rest, .plain _ rest' => by rw [rest.unique rest']
  | .plain stays _, .inline hd _ _ => by simp [stays _ rfl] at hd
  | .inline hd _ _, .plain stays _ => by simp [stays _ rfl] at hd
  | .inline hd body rest, .inline hd' body' rest' => by
    cases Option.some.inj (hd.symm.trans hd')
    rw [body.unique body', rest.unique rest']
  | .branch hc hb hes ho rest, .branch hc' hb' hes' ho' rest' => by
    rw [hc.unique hc', hb.unique hb', hes.unique hes', ho.unique ho', rest.unique rest']
  | .loop hc hb rest, .loop hc' hb' rest' => by
    rw [hc.unique hc', hb.unique hb', rest.unique rest']

theorem Block.Unfolds.unique {b b' b'' : Block} :
    Block.Unfolds p b b' → Block.Unfolds p b b'' → b' = b''
  | .absent, .absent => rfl
  | .mk hx, .mk hx' => by rw [hx.unique hx']

theorem Arm.Unfolds.unique {es es' es'' : List Arm} :
    Arm.Unfolds p es es' → Arm.Unfolds p es es'' → es' = es''
  | .nil, .nil => rfl
  | .cons hc hb rest, .cons hc' hb' rest' => by
    rw [hc.unique hc', hb.unique hb', rest.unique rest']

end

theorem Block.instrs_substitute (sub : Replacement) (b : Block) :
    (b.substitute sub).instrs = Instr.substituteList sub b.instrs := by
  cases b <;> rfl

namespace Program.Expandable

theorem replacement_none (h : p.Expandable) {name : String} (hn : p.inlines.get? name = none)
    (pos : Pos) : p.replacement name pos = none := by
  rw [h.replacement_eq, hn]
  rfl

theorem replacement_some (h : p.Expandable) {name : String} {d : Routine}
    (hd : p.inlines.get? name = some d) (pos : Pos) :
    p.replacement name pos = some (Instr.substituteList p.replacement d.body.instrs) := by
  rw [h.replacement_eq, hd, Option.map_some, Block.instrs_substitute]

end Program.Expandable

mutual

/-- Unfolding leaves no choice: it can only be substitution. -/
theorem Instr.Unfolds.eq_substitute (h : p.Expandable) {xs ys : List Instr} :
    Instr.Unfolds p xs ys → ys = Instr.substituteList p.replacement xs
  | .nil => rfl
  | .plain (o := o) stays rest => by
    have later := rest.eq_substitute h
    cases o with
    | ident name =>
      have hn := h.replacement_none (stays name rfl)
      simp [Instr.substituteList, Instr.substitute, hn, later]
    | _ => simp [Instr.substituteList, Instr.substitute, later]
  | .inline hd body rest => by
    have inner := body.eq_substitute h
    have later := rest.eq_substitute h
    simp [Instr.substituteList, Instr.substitute, h.replacement_some hd, inner, later]
  | .branch hc hb hes ho rest => by
    simp [Instr.substituteList, Instr.substitute, hc.eq_substitute h, hb.eq_substitute h,
      hes.eq_substitute h, ho.eq_substitute h, rest.eq_substitute h]
  | .loop hc hb rest => by
    simp [Instr.substituteList, Instr.substitute, hc.eq_substitute h, hb.eq_substitute h,
      rest.eq_substitute h]

theorem Block.Unfolds.eq_substitute (h : p.Expandable) {b b' : Block} :
    Block.Unfolds p b b' → b' = b.substitute p.replacement
  | .absent => rfl
  | .mk hx => by rw [Block.substitute, hx.eq_substitute h]

theorem Arm.Unfolds.eq_substitute (h : p.Expandable) {es es' : List Arm} :
    Arm.Unfolds p es es' → es' = Arm.substituteList p.replacement es
  | .nil => rfl
  | .cons hc hb rest => by
    rw [Arm.substituteList, hc.eq_substitute h, hb.eq_substitute h, rest.eq_substitute h]

end

/-- The bodies of the inlines that are used unfold as substitution has it. -/
def Program.Unfoldable (p : Program) (uses : List (String × Pos)) : Prop :=
  ∀ u ∈ uses, ∀ {d}, p.inlines.get? u.1 = some d →
    Instr.Unfolds p d.body.instrs (Instr.substituteList p.replacement d.body.instrs)

theorem Program.unfoldable_append {us vs : List (String × Pos)} :
    p.Unfoldable (us ++ vs) ↔ p.Unfoldable us ∧ p.Unfoldable vs := by
  simp only [Unfoldable, List.forall_mem_append]

theorem Instr.unfolds_op (h : p.Expandable) {pos : Pos} {o : Op} {xs ys : List Instr}
    (inner : p.Unfoldable (Instr.op pos o).uses) (rest : Instr.Unfolds p xs ys) :
    Instr.Unfolds p (.op pos o :: xs) ((Instr.op pos o).substitute p.replacement ++ ys) := by
  cases o with
  | ident name =>
    cases hd : p.inlines.get? name with
    | none =>
      have stays : ∀ other, Op.ident name = .ident other → p.inlines.get? other = none := by
        rintro other ⟨⟩
        exact hd
      simpa [Instr.substitute, h.replacement_none hd] using Instr.Unfolds.plain stays rest
    | some d =>
      have body := inner (name, pos) (by simp [Instr.uses]) hd
      simpa [Instr.substitute, h.replacement_some hd] using Instr.Unfolds.inline hd body rest
  | _ => exact .plain nofun rest

mutual

theorem Instr.unfolds_substituteList (h : p.Expandable) (xs : List Instr)
    (inner : p.Unfoldable (Instr.usesList xs)) :
    Instr.Unfolds p xs (Instr.substituteList p.replacement xs) := by
  match xs with
  | [] => exact .nil
  | .op pos o :: xs =>
    rw [Instr.usesList, Program.unfoldable_append] at inner
    exact Instr.unfolds_op h inner.2 (Instr.unfolds_substituteList h xs inner.1)
  | .branch pos c b es o :: xs =>
    simp only [Instr.usesList, Instr.uses, Program.unfoldable_append] at inner
    obtain ⟨hxs, ⟨⟨hc, hb⟩, hes⟩, ho⟩ := inner
    exact .branch (c.unfolds_substitute h hc) (b.unfolds_substitute h hb)
      (Arm.unfolds_substituteList h es hes) (o.unfolds_substitute h ho)
      (Instr.unfolds_substituteList h xs hxs)
  | .loop pos c b :: xs =>
    simp only [Instr.usesList, Instr.uses, Program.unfoldable_append] at inner
    obtain ⟨hxs, hc, hb⟩ := inner
    exact .loop (c.unfolds_substitute h hc) (b.unfolds_substitute h hb)
      (Instr.unfolds_substituteList h xs hxs)

theorem Block.unfolds_substitute (h : p.Expandable) (b : Block) (inner : p.Unfoldable b.uses) :
    Block.Unfolds p b (b.substitute p.replacement) := by
  match b with
  | .absent => exact .absent
  | .mk pos xs =>
    rw [Block.uses] at inner
    exact .mk (Instr.unfolds_substituteList h xs inner)

theorem Arm.unfolds_substituteList (h : p.Expandable) (es : List Arm)
    (inner : p.Unfoldable (Arm.usesList es)) :
    Arm.Unfolds p es (Arm.substituteList p.replacement es) := by
  match es with
  | [] => exact .nil
  | .mk pos c b :: rest =>
    simp only [Arm.usesList, Program.unfoldable_append] at inner
    obtain ⟨⟨hc, hb⟩, hrest⟩ := inner
    exact .cons (c.unfolds_substitute h hc) (b.unfolds_substitute h hb)
      (Arm.unfolds_substituteList h rest hrest)

end

theorem Block.usesList_instrs (b : Block) : Instr.usesList b.instrs = b.uses := by
  cases b <;> rfl

/-- Every body unfolds. The induction follows the chains of uses, which all end. -/
theorem Program.Expandable.unfoldable (h : p.Expandable) (uses : List (String × Pos)) :
    p.Unfoldable uses := by
  rintro ⟨name, pos⟩ hu
  clear hu
  have ends := h.ends name
  induction ends with
  | intro name _ ih =>
    intro d hd
    refine Instr.unfolds_substituteList h d.body.instrs ?_
    rw [Block.usesList_instrs]
    intro u hu e he
    exact ih u.1 ⟨d, u.2, hd, hu, by simp [he]⟩ he

theorem Program.Expandable.unfolds_iff (h : p.Expandable) {b b' : Block} :
    Block.Unfolds p b b' ↔ b' = b.substitute p.replacement := by
  constructor
  · exact fun unfolds => unfolds.eq_substitute h
  · rintro rfl
    exact b.unfolds_substitute h (h.unfoldable b.uses)

/-! ### Bodies without names of inlines -/

mutual

theorem Instr.substitute_unused {sub : Replacement} (x : Instr)
    (h : ∀ u ∈ x.uses, sub u.1 u.2 = none) : x.substitute sub = [x] := by
  match x with
  | .op p o =>
    cases o with
    | ident name =>
      have hn := h (name, p) (by simp [Instr.uses])
      simp only [Instr.substitute, hn, Option.getD_none]
    | _ => rfl
  | .branch p c b es o =>
    simp only [Instr.uses, List.forall_mem_append] at h
    obtain ⟨⟨⟨hc, hb⟩, hes⟩, ho⟩ := h
    rw [Instr.substitute, c.substitute_unused hc, b.substitute_unused hb,
      Arm.substituteList_unused es hes, o.substitute_unused ho]
  | .loop p c b =>
    simp only [Instr.uses, List.forall_mem_append] at h
    rw [Instr.substitute, c.substitute_unused h.1, b.substitute_unused h.2]

theorem Block.substitute_unused {sub : Replacement} (b : Block)
    (h : ∀ u ∈ b.uses, sub u.1 u.2 = none) : b.substitute sub = b := by
  match b with
  | .absent => rfl
  | .mk p xs =>
    rw [Block.uses] at h
    rw [Block.substitute, Instr.substituteList_unused xs h]

theorem Instr.substituteList_unused {sub : Replacement} (xs : List Instr)
    (h : ∀ u ∈ Instr.usesList xs, sub u.1 u.2 = none) : Instr.substituteList sub xs = xs := by
  match xs with
  | [] => rfl
  | x :: xs =>
    simp only [Instr.usesList, List.forall_mem_append] at h
    rw [Instr.substituteList, x.substitute_unused h.2, Instr.substituteList_unused xs h.1]
    rfl

theorem Arm.substituteList_unused {sub : Replacement} (es : List Arm)
    (h : ∀ u ∈ Arm.usesList es, sub u.1 u.2 = none) : Arm.substituteList sub es = es := by
  match es with
  | [] => rfl
  | .mk p c b :: rest =>
    simp only [Arm.usesList, List.forall_mem_append] at h
    rw [Arm.substituteList, c.substitute_unused h.1.1, b.substitute_unused h.1.2,
      Arm.substituteList_unused rest h.2]

end

/-! ### The pass over a program -/

namespace Program

theorem uses_of_violations {q : Program} (hv : q.violations true = []) {r : Routine}
    (hr : .proc r ∈ q.decls) {name : String} {pos : Pos} (hm : r.body.Mentions name pos) :
    q.inlines.get? name = none := by
  obtain ⟨_, _, valid⟩ := violations_eq_nil_iff.mp hv
  have body : r.body.Valid (q.Allows true) := (valid _ hr).2.2
  have rules : RulesKept q true r.name (r.body.nodes fun _ => true) := r.body.nodes_rules.mpr body
  have kept := rules _ hm
  have free : q.Allows true name := violation?_op.mp kept
  simpa [Table.contains] using free rfl

/-- Expansion has nothing to do where it has been done. -/
theorem expandInlines_expanded {q : Program} (hv : q.violations true = []) (he : q.Expandable)
    (hc : q.checkCycles = .ok ()) : q.expandInlines = (q, none) := by
  obtain ⟨_, h, _⟩ := violations_eq_nil_iff.mp hv
  have same : ∀ r ∈ q.procDecls, q.expandProc r = id r := by
    intro r hr
    have body : r.body.substitute q.replacement = r.body := by
      refine r.body.substitute_unused fun u hu => he.replacement_none ?_ u.2
      exact uses_of_violations hv (mem_procDecls.mp hr) (Block.mentions_iff.mpr hu)
    rw [expandProc, body]
    rfl
  rw [h.expandInlines_eq he hc, h.mapProcs_congr same, mapProcs_id]

/-- A procedure before and after expansion: only the body is another one, and it is the only block
that the body before unfolds to. -/
def Unfolded (p : Program) (r r' : Routine) : Prop :=
  (∀ b, Block.Unfolds p r.body b ↔ b = r'.body) ∧ r' = { r with body := r'.body }

/-- Declarations before and after expansion. -/
inductive DeclUnfolded (p : Program) : Decl → Decl → Prop
  | proc {r r' : Routine} : p.Unfolded r r' → DeclUnfolded p (.proc r) (.proc r')
  | inline {r : Routine} : DeclUnfolded p (.inline r) (.inline r)
  | memory {m : Memory} : DeclUnfolded p (.memory m) (.memory m)

theorem Expandable.unfolded (h : p.Expandable) (r : Routine) : p.Unfolded r (p.expandProc r) :=
  ⟨fun _ => h.unfolds_iff, rfl⟩

theorem Expandable.declsUnfolded (h : p.Expandable) (ds : List Decl) :
    List.Forall₂ p.DeclUnfolded ds (ds.map fun
      | .proc r => .proc (p.expandProc r)
      | d => d) := by
  rw [List.forall₂_map_right_iff]
  refine List.forall₂_same.mpr ?_
  intro d _
  cases d with
  | proc r => exact .proc (h.unfolded r)
  | inline r => exact .inline
  | memory m => exact .memory

end Program

/-- The pass over a program without cycles succeeds. It unfolds the body of every procedure in its
place in the list and in the map, and leaves everything else as it was; then no procedure mentions
an inline, and the pass finds nothing more to do. -/
theorem expandInlines_unfolds (hv : p.violations false = []) (acyclic : p.Acyclic) :
    ∃ q, p.expandInlines = (q, none) ∧
      List.Forall₂ p.DeclUnfolded p.decls q.decls ∧
      (∀ name, Option.Rel p.Unfolded (p.procs.get? name) (q.procs.get? name)) ∧
      q.inlines = p.inlines ∧ q.memories = p.memories ∧ q.file = p.file ∧
      q.violations true = [] ∧
      (∀ r, .proc r ∈ q.decls → ∀ name pos, r.body.Mentions name pos →
        q.inlines.get? name = none) ∧
      q.expandInlines = (q, none) := by
  obtain ⟨_, h, valid⟩ := Program.violations_eq_nil_iff.mp hv
  have hc : p.checkCycles = .ok () := h.checkCycles_eq_ok_iff.mpr acyclic
  have he : p.Expandable := h.expandable hc valid
  let q := p.mapProcs p.expandProc
  have rules : q.violations true = [] := p.violations_expanded hv hc
  have expandable : q.Expandable := ⟨he.own, he.present, he.ends⟩
  have cycles : q.checkCycles = .ok () := (p.checkCycles_mapProcs _).trans hc
  refine ⟨q, h.expandInlines_eq he hc, he.declsUnfolded p.decls, ?_, rfl, rfl, rfl, rules, ?_,
    Program.expandInlines_expanded rules expandable cycles⟩
  · intro name
    have found : q.procs.get? name = (p.procs.get? name).map p.expandProc := Table.get?_map ..
    rw [found]
    cases p.procs.get? name with
    | none => exact .none
    | some r => exact .some (he.unfolded r)
  · intro r hr name pos mentions
    exact Program.uses_of_violations rules hr mentions

/-- A program with an inline inside an inline, in an arm and beside an empty else block. -/
def layered : Program :=
  let op (o : Op) : Instr := .op default o
  let block (xs : List Instr) : Block := .mk default xs
  let routine (name : String) (xs : List Instr) : Routine :=
    { name, pos := default, namePos := default, body := block xs }
  let one := routine "one" [op (.pushInt 1)]
  let two := routine "two" [op (.ident "one"), op .dup]
  let main := routine Source.entryPoint
    [.branch default (block [op (.ident "one")]) (block [])
      [.mk default (block [op (.ident "two")]) (block [op .put, op (.ident "two")])] (block []),
     op .ret]
  ((({ file := "" } : Program).insert (.inline two)).insert (.inline one)).insert (.proc main)

theorem layered_unfolds : layered.violations false = [] ∧ layered.Acyclic ∧
    ∃ q, layered.expandInlines = (q, none) ∧ q.violations true = [] ∧
      q.expandInlines = (q, none) ∧ (q.entry?.map fun r => r.body.text) =
        some ("[If([PushInt(1)] [] elif [PushInt(1), Dup] [Put, PushInt(1), Dup] else []), " ++
          "Return]") := by
  have rules : layered.violations false = [] := by cbv
  have search : layered.checkCycles = .ok () := by cbv
  have acyclic : layered.Acyclic :=
    (Program.violations_eq_nil_iff.mp rules).2.1.checkCycles_eq_ok_iff.mp search
  have body : ((Program.entry? layered.expandInlines.1).map fun r => r.body.text) =
      some ("[If([PushInt(1)] [] elif [PushInt(1), Dup] [Put, PushInt(1), Dup] else []), " ++
        "Return]") := by cbv
  obtain ⟨q, done, _, _, _, _, _, rules', _, again⟩ := expandInlines_unfolds rules acyclic
  rw [done] at body
  exact ⟨rules, acyclic, q, done, rules', again, body⟩

end StackLang
