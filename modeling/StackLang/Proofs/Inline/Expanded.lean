import StackLang.Proofs.Inline.Expansion
/-!
The program that expansion leaves: the same declarations and maps, the same search for cycles, and
no name of an inline in any procedure.
-/

namespace StackLang

theorem visitUses_congr {p q : Program} (h : p.inlines = q.inlines)
    (visit : List String → Routine → Pos → Except Cycle (List String)) (cleared : List String)
    (uses : List (String × Pos)) :
    visitUses p visit cleared uses = visitUses q visit cleared uses := by
  induction uses generalizing cleared with
  | nil => rfl
  | cons u rest ih => simp only [visitUses, h, ih]

theorem visitInline_congr {p q : Program} (h : p.inlines = q.inlines) (fuel : Nat) :
    visitInline p fuel = visitInline q fuel := by
  induction fuel with
  | zero => rfl
  | succ fuel ih =>
    funext active cleared d pos
    simp only [visitInline, ih, visitUses_congr h]

theorem checkInlines_congr {p q : Program} (h : p.inlines = q.inlines) (ds : List Routine) :
    checkInlines p ds = checkInlines q ds := by
  induction ds with
  | nil => rfl
  | cons d rest ih => simp only [checkInlines, h, visitInline_congr h, ih]

namespace Program

variable {p : Program}

theorem inlineList_mapProcs (f : Routine → Routine) (p : Program) :
    (p.mapProcs f).inlineList = p.inlineList := by
  unfold inlineList mapProcs
  rw [List.filterMap_map]
  refine List.filterMap_congr ?_
  intro d _
  cases d <;> rfl

theorem memoryDecls_mapProcs (f : Routine → Routine) (p : Program) :
    (p.mapProcs f).memoryDecls = p.memoryDecls := by
  unfold memoryDecls mapProcs
  rw [List.filterMap_map]
  refine List.filterMap_congr ?_
  intro d _
  cases d <;> rfl

theorem checkCycles_mapProcs (f : Routine → Routine) (p : Program) :
    (p.mapProcs f).checkCycles = p.checkCycles := by
  unfold checkCycles
  rw [inlineList_mapProcs]
  exact checkInlines_congr (p := p.mapProcs f) (q := p) rfl p.inlineList

theorem entry?_mapProcs (f : Routine → Routine) (p : Program) :
    Program.entry? (p.mapProcs f) = p.entry?.map f :=
  Table.get?_map p.procs f Source.entryPoint

theorem mem_decls_mapProcs {f : Routine → Routine} {d : Decl} :
    d ∈ (p.mapProcs f).decls ↔ ∃ e ∈ p.decls, d = match e with
      | .proc r => .proc (f r)
      | e => e := by
  unfold mapProcs
  rw [List.mem_map]
  constructor
  · rintro ⟨e, he, rfl⟩
    exact ⟨e, he, rfl⟩
  · rintro ⟨e, he, rfl⟩
    exact ⟨e, he, rfl⟩

/-- Procedures may be changed as long as they keep their names. -/
theorem Coherent.mapProcs (h : p.Coherent) {f : Routine → Routine}
    (names : ∀ r, (f r).name = r.name) : (p.mapProcs f).Coherent where
  nodup := by
    have same : (p.mapProcs f).decls.map Decl.name = p.decls.map Decl.name := by
      unfold Program.mapProcs
      rw [List.map_map]
      refine List.map_congr_left ?_
      intro d _
      cases d with
      | proc r => exact names r
      | inline | memory => rfl
    rw [same]
    exact h.nodup
  proc_iff := by
    intro name r
    change (p.procs.map f).get? name = some r ↔ _
    rw [Table.get?_map, Option.map_eq_some_iff, mem_decls_mapProcs]
    constructor
    · rintro ⟨s, hs, rfl⟩
      obtain ⟨listed, rfl⟩ := h.proc_iff.mp hs
      exact ⟨⟨_, listed, rfl⟩, names s⟩
    · rintro ⟨⟨e, he, hr⟩, rfl⟩
      cases e with
      | proc s =>
        cases hr
        exact ⟨s, h.proc_iff.mpr ⟨he, (names s).symm⟩, rfl⟩
      | inline | memory => cases hr
  inline_iff := by
    intro name r
    change p.inlines.get? name = some r ↔ _
    rw [h.inline_iff, mem_decls_mapProcs]
    constructor
    · rintro ⟨listed, rfl⟩
      exact ⟨⟨_, listed, rfl⟩, rfl⟩
    · rintro ⟨⟨e, he, hr⟩, rfl⟩
      cases e <;> cases hr
      exact ⟨he, rfl⟩
  memory_iff := by
    intro name m
    change p.memories.get? name = some m ↔ _
    rw [h.memory_iff, mem_decls_mapProcs]
    constructor
    · rintro ⟨listed, rfl⟩
      exact ⟨⟨_, listed, rfl⟩, rfl⟩
    · rintro ⟨⟨e, he, hr⟩, rfl⟩
      cases e <;> cases hr
      exact ⟨he, rfl⟩
  count := by
    have hc := h.count
    unfold registered at hc ⊢
    unfold Program.mapProcs
    rw [Table.size_map, List.length_map]
    exact hc

/-- What names are replaced by holds no name of an inline. -/
theorem Expandable.leaves (h : p.Expandable)
    (valid : ∀ {name : String} {d : Routine}, p.inlines.get? name = some d →
      d.body.Valid fun _ => True) (uses : List (String × Pos)) :
    p.replacement.Leaves (p.Allows true) uses := by
  rintro ⟨name, pos⟩ hu
  clear hu
  have ends := h.ends name
  induction ends generalizing pos with
  | intro name _ ih =>
    rw [h.replacement_eq]
    cases hd : p.inlines.get? name with
    | none => simp [Allows, Table.contains, hd]
    | some d =>
      have inner : p.replacement.Leaves (p.Allows true) d.body.uses := by
        intro u hu
        cases he : p.inlines.get? u.1 with
        | none => simp [h.replacement_eq, he, Allows, Table.contains]
        | some e => exact ih u.1 ⟨d, u.2, hd, hu, by simp [he]⟩ u.2
      have body := d.body.valid_substitute inner (valid hd)
      change Instr.ValidList _ (d.body.substitute p.replacement).instrs
      cases hb : d.body.substitute p.replacement with
      | absent => trivial
      | mk q xs => rwa [hb] at body

theorem Coherent.expandable (h : p.Coherent) (hc : p.checkCycles = .ok ())
    (valid : ∀ d ∈ p.decls, d.Valid p false) : p.Expandable where
  own := h.ownNames
  present := fun hd => (valid _ (h.inline_iff.mp hd).1).1
  ends := h.grounded hc

/-- Expansion keeps the rules, among them that no procedure uses an inline any more. -/
theorem violations_expanded (hv : p.violations false = []) (hc : p.checkCycles = .ok ()) :
    (p.mapProcs p.expandProc).violations true = [] := by
  obtain ⟨entry, h, valid⟩ := violations_eq_nil_iff.mp hv
  have he := h.expandable hc valid
  have leaves := he.leaves (fun hd => (valid _ (h.inline_iff.mp hd).1).2)
  refine violations_eq_nil_iff.mpr ⟨?_, h.mapProcs fun _ => rfl, ?_⟩
  · rw [entry?_mapProcs, Option.isSome_map]
    exact entry
  · intro d hd
    obtain ⟨e, hm, rfl⟩ := mem_decls_mapProcs.mp hd
    have own := valid e hm
    cases e with
    | proc r =>
      obtain ⟨present, last, body⟩ := own
      rw [p.allows_false] at body
      refine ⟨?_, Block.lastIsReturn_substitute last, r.body.valid_substitute (leaves _) body⟩
      rw [expandProc, Block.isPresent_substitute]
      exact present
    | inline r => exact own
    | memory m => exact own

end Program

end StackLang
