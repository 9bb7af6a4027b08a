import StackLang.Proofs.Inline.Substitution
/-!
What the names of inlines are replaced by, and what becomes of a program, where every chain of uses
ends.
-/

namespace StackLang

/-- The resolver inside an inline, below the inlines of a path. -/
def Program.resolverBelow (p : Program) (fuel : Nat) (active : List String) : Resolver :=
  fun name pos => (p.inlines.get? name).map fun d => expandInline p fuel active d pos

/-- What the names of a program's inlines are replaced by. -/
def Program.replacement (p : Program) : Replacement :=
  p.resolver.replacement

theorem Program.resolver_eq (p : Program) : p.resolver = p.resolverBelow (p.inlines.size + 1) [] :=
  rfl

/-- Every inline has a body and every chain of uses ends. -/
structure Program.Expandable (p : Program) : Prop where
  own : p.OwnNames
  present : ∀ {name : String} {d : Routine}, p.inlines.get? name = some d → d.body.isPresent
  ends : ∀ name, p.Grounded name

theorem expandInline_succ {p : Program} {fuel : Nat} {active : List String} {d : Routine}
    {pos : Pos} (fresh : d.name ∉ active) (present : d.body.isPresent)
    (answers : (p.resolverBelow fuel (active ++ [d.name])).Answers d.body.uses) :
    expandInline p (fuel + 1) active d pos =
      .ok (d.body.substitute (p.resolverBelow fuel (active ++ [d.name])).replacement).instrs := by
  have hc : ¬ active.contains d.name := by simpa using fresh
  have he := d.body.expand_eq_substitute answers
  unfold Program.resolverBelow at he ⊢
  simp only [expandInline, if_neg hc, he]
  cases hb : d.body with
  | absent => simp [hb, Block.isPresent] at present
  | mk q ys => rfl

/-- Every inline has a body. -/
def Program.Bodied (p : Program) : Prop :=
  ∀ {name : String} {d : Routine}, p.inlines.get? name = some d → d.body.isPresent

/-- An inline from which every chain of uses ends expands into its substituted body, on whatever
path it is met. -/
theorem expandInline_of_grounded {p : Program} (own : p.OwnNames) (bodied : p.Bodied)
    {d : Routine} (hd : p.inlines.get? d.name = some d) (ends : p.Grounded d.name)
    {fuel : Nat} {active : List String} (path : p.Path fuel active)
    (chain : ∀ a ∈ active, Relation.TransGen p.Refers a d.name) (pos : Pos) :
    expandInline p fuel active d pos = .ok (d.body.substitute p.replacement).instrs := by
  generalize hname : d.name = name at ends
  induction ends generalizing d fuel active pos with
  | intro name below ih =>
    subst hname
    have ends : p.Grounded d.name := .intro _ below
    obtain ⟨fuel, rfl⟩ : ∃ f, fuel = f + 1 := ⟨fuel - 1, by have := path.fuel_pos; omega⟩
    have fresh : d.name ∉ active := fun hm => ends.not_transGen (chain _ hm)
    have deeper := path.extend fresh (by simp [hd])
    -- Every name in the body has the same answer below this path as below the empty one.
    have answer {below : Nat} {path' : List String} (hp : p.Path below path')
        (hc : ∀ a ∈ path', Relation.TransGen p.Refers a d.name ∨ a = d.name) :
        ∀ u ∈ d.body.uses, p.resolverBelow below path' u.1 u.2 =
          (p.inlines.get? u.1).map fun e => .ok (e.body.substitute p.replacement).instrs := by
      intro u hu
      unfold Program.resolverBelow
      cases he : p.inlines.get? u.1 with
      | none => rfl
      | some e =>
        have name := own he
        rw [← name] at he
        have refers : p.Refers d.name e.name := by
          refine ⟨d, u.2, hd, ?_, by simp [he]⟩
          rw [name]
          exact hu
        have chain' : ∀ a ∈ path', Relation.TransGen p.Refers a e.name := by
          intro a ha
          rcases hc a ha with hc | rfl
          · exact hc.tail refers
          · exact .single refers
        rw [Option.map_some, Option.map_some, ih e.name refers he hp chain' u.2 rfl]
    have below := answer deeper (by
      intro a ha
      rcases List.mem_append.mp ha with ha | ha
      · exact .inl (chain a ha)
      · exact .inr (List.mem_singleton.mp ha))
    have above := answer (Program.path_nil (Nat.lt_succ_self _)) (by simp)
    have answers : (p.resolverBelow fuel (active ++ [d.name])).Answers d.body.uses := by
      intro u hu e
      rw [below u hu]
      cases p.inlines.get? u.1 <;> simp
    have same : d.body.substitute (p.resolverBelow fuel (active ++ [d.name])).replacement =
        d.body.substitute p.replacement := by
      refine d.body.substitute_congr ?_
      intro u hu
      unfold Program.replacement Resolver.replacement
      rw [below u hu, p.resolver_eq, above u hu]
    rw [expandInline_succ fresh (bodied hd) answers, same]

namespace Program.Expandable

variable {p : Program}

theorem resolver_eq (h : p.Expandable) (name : String) (pos : Pos) : p.resolver name pos =
    (p.inlines.get? name).map fun d => .ok (d.body.substitute p.replacement).instrs := by
  rw [p.resolver_eq, Program.resolverBelow]
  cases hd : p.inlines.get? name with
  | none => rfl
  | some d =>
    obtain rfl := h.own hd
    have path : p.Path (p.inlines.size + 1) [] := Program.path_nil (Nat.lt_succ_self _)
    rw [Option.map_some, Option.map_some,
      expandInline_of_grounded h.own h.present hd (h.ends _) path (by simp)]

/-- The equation of substitution: the name of an inline is replaced by its body, in which names are
replaced likewise. -/
theorem replacement_eq (h : p.Expandable) (name : String) (pos : Pos) : p.replacement name pos =
    (p.inlines.get? name).map fun d => (d.body.substitute p.replacement).instrs := by
  rw [Program.replacement, Resolver.replacement, h.resolver_eq]
  cases p.inlines.get? name <;> rfl

theorem expandBlock_eq (h : p.Expandable) (b : Block) :
    p.expandBlock b = (b.substitute p.replacement, none) := by
  refine b.expand_eq_substitute ?_
  intro u _ e
  rw [h.resolver_eq]
  cases p.inlines.get? u.1 <;> simp

end Program.Expandable

/-- The program with every procedure changed, in the list and in the map. -/
def Program.mapProcs (f : Routine → Routine) (p : Program) : Program :=
  { p with
    decls := p.decls.map fun
      | .proc r => .proc (f r)
      | d => d
    procs := p.procs.map f }

/-- A procedure with the names of inlines in its body replaced. -/
def Program.expandProc (p : Program) (r : Routine) : Routine :=
  { r with body := r.body.substitute p.replacement }

theorem Program.procDecls_mapProcs (f : Routine → Routine) (p : Program) :
    (p.mapProcs f).procDecls = p.procDecls.map f := by
  unfold procDecls mapProcs
  rw [List.filterMap_map, List.map_filterMap]
  refine List.filterMap_congr ?_
  intro d _
  cases d <;> rfl

theorem Program.mapProcs_mapProcs (f g : Routine → Routine) (p : Program) :
    (p.mapProcs f).mapProcs g = p.mapProcs (g ∘ f) := by
  unfold mapProcs Table.map
  simp only [List.map_map, Program.mk.injEq, Table.mk.injEq, and_true, true_and]
  refine ⟨?_, rfl⟩
  refine List.map_congr_left ?_
  intro d _
  cases d <;> rfl

theorem Program.mapProcs_id (p : Program) : p.mapProcs id = p := by
  have decls : (p.decls.map fun
      | .proc r => .proc (id r)
      | d => d) = p.decls := by
    refine (List.map_congr_left ?_).trans (List.map_id _)
    intro d _
    cases d <;> rfl
  unfold mapProcs Table.map
  simp only [decls]
  simp

theorem Program.mem_procDecls {p : Program} {r : Routine} :
    r ∈ p.procDecls ↔ .proc r ∈ p.decls := by
  unfold procDecls
  rw [List.mem_filterMap]
  constructor
  · rintro ⟨d, hd, h⟩
    cases d <;> cases h
    exact hd
  · intro h
    exact ⟨_, h, rfl⟩

theorem Program.Coherent.mapProcs_congr {p : Program} (h : p.Coherent) {f g : Routine → Routine}
    (same : ∀ r ∈ p.procDecls, f r = g r) : p.mapProcs f = p.mapProcs g := by
  have decls : ∀ r, .proc r ∈ p.decls → f r = g r := fun r hr => same r (mem_procDecls.mpr hr)
  have table : p.procs.map f = p.procs.map g := by
    unfold Table.map
    simp only [Table.mk.injEq]
    refine List.map_congr_left ?_
    intro e he
    have listed := h.proc_iff.mp (Table.get?_eq_some_iff.mpr he)
    rw [decls e.2 listed.1]
  unfold mapProcs
  rw [table]
  congr 1
  refine List.map_congr_left ?_
  intro d hd
  cases d with
  | proc r => exact congrArg Decl.proc (decls r hd)
  | inline | memory => rfl

/-- Expansion of inlines reads nothing but the map of inlines. -/
theorem expandInline_congr {p q : Program} (h : p.inlines = q.inlines) (fuel : Nat) :
    expandInline p fuel = expandInline q fuel := by
  induction fuel with
  | zero => rfl
  | succ fuel ih =>
    funext active d pos
    simp only [expandInline, h, ih]

theorem Program.expandBlock_mapProcs (f : Routine → Routine) (p : Program) (b : Block) :
    (p.mapProcs f).expandBlock b = p.expandBlock b := by
  have same : (p.mapProcs f).resolver = p.resolver := by
    funext name pos
    have below := expandInline_congr (p := p.mapProcs f) (q := p) rfl (p.inlines.size + 1)
    change (p.inlines.get? name).map
      (fun d => expandInline (p.mapProcs f) (p.inlines.size + 1) [] d pos) = p.resolver name pos
    rw [below]
    rfl
  unfold expandBlock
  rw [same]

theorem Program.replaceProc_eq (p : Program) (old new : Routine) :
    p.replaceProc old new = p.mapProcs fun r => if r = old then new else r := rfl

/-- Going through procedures of different names changes each of them once, and no other. -/
theorem expandProcs_eq {p : Program} (h : p.Expandable) {rs : List Routine}
    (nodup : (rs.map Routine.name).Nodup) (g : Routine → Routine) :
    ∃ f, expandProcs (p.mapProcs g) rs = (p.mapProcs (f ∘ g), none) ∧
      (∀ r ∈ rs, f r = p.expandProc r) ∧ ∀ r, r.name ∉ rs.map Routine.name → f r = r := by
  induction rs generalizing g with
  | nil => exact ⟨id, rfl, by simp, by simp⟩
  | cons r rest ih =>
    obtain ⟨fresh, nodup⟩ := List.nodup_cons.mp nodup
    let swap (s : Routine) : Routine := if s = r then p.expandProc r else s
    obtain ⟨f, hf, listed, others⟩ := ih nodup (swap ∘ g)
    have away {s : Routine} (hs : s.name ≠ r.name) : swap s = s := by
      refine if_neg ?_
      rintro rfl
      exact hs rfl
    have here : f (swap r) = p.expandProc r := by
      have first : swap r = p.expandProc r := if_pos rfl
      rw [first]
      exact others _ fresh
    refine ⟨f ∘ swap, ?_, ?_, ?_⟩
    · have body := h.expandBlock_eq r.body
      rw [← p.expandBlock_mapProcs g] at body
      rw [expandProcs, body]
      dsimp only
      rw [Program.replaceProc_eq, Program.mapProcs_mapProcs]
      exact hf
    · intro s hs
      rcases List.mem_cons.mp hs with rfl | hs
      · exact here
      · have hne : s.name ≠ r.name := fun e => fresh (e ▸ List.mem_map_of_mem hs)
        rw [Function.comp_apply, away hne]
        exact listed s hs
    · intro s hs
      rw [List.map_cons, List.mem_cons, not_or] at hs
      rw [Function.comp_apply, away hs.1]
      exact others s hs.2

theorem Program.Coherent.nodup_procs {p : Program} (h : p.Coherent) :
    (p.procDecls.map Routine.name).Nodup := by
  refine h.nodup.sublist ?_
  unfold procDecls
  induction p.decls with
  | nil => exact .slnil
  | cons d rest ih =>
    cases d with
    | proc r => exact ih.cons_cons _
    | inline | memory => exact ih.cons _

theorem Program.Coherent.nodup_memories {p : Program} (h : p.Coherent) :
    (p.memoryDecls.map Memory.name).Nodup := by
  refine h.nodup.sublist ?_
  unfold memoryDecls
  induction p.decls with
  | nil => exact .slnil
  | cons d rest ih =>
    cases d with
    | memory m => exact ih.cons_cons _
    | inline | proc => exact ih.cons _

/-- The pass over a program without cycles replaces the names of inlines in every procedure, and
changes nothing else. -/
theorem Program.Coherent.expandInlines_eq {p : Program} (h : p.Coherent) (he : p.Expandable)
    (hc : p.checkCycles = .ok ()) : p.expandInlines = (p.mapProcs p.expandProc, none) := by
  obtain ⟨f, hf, listed, _⟩ := expandProcs_eq he h.nodup_procs id
  rw [p.mapProcs_id, Function.comp_id] at hf
  rw [expandInlines, hc]
  dsimp only
  rw [hf, h.mapProcs_congr listed]

end StackLang
