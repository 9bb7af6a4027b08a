import Mathlib.Data.List.Perm.Subperm
import StackLang.Failure
import StackLang.Proofs.Namespace
/-!
What it means that a program breaks no rule: the rules of a body as a predicate on its tree, and
those of the name space as coherence of the maps.
-/

namespace StackLang

/-- Instructions without parts that break no rule; `allowed` says which names may be used. -/
def Op.Valid (allowed : String → Prop) : Op → Prop
  | .binary t => t.isOperator
  | .load w => Token.isWidth w
  | .store w => Token.isWidth w
  | .syscall n => 0 ≤ n ∧ n ≤ Token.syscallLimit
  | .ident name => allowed name
  | _ => True

mutual

/-- Instructions that break no rule: the condition and the body of every construct are there. -/
def Instr.Valid (allowed : String → Prop) : Instr → Prop
  | .op _ o => o.Valid allowed
  | .branch _ c b es o =>
    (c.isPresent ∧ b.isPresent) ∧ c.Valid allowed ∧ b.Valid allowed ∧
      Arm.ValidList allowed es ∧ o.Valid allowed
  | .loop _ c b => (c.isPresent ∧ b.isPresent) ∧ c.Valid allowed ∧ b.Valid allowed

def Block.Valid (allowed : String → Prop) : Block → Prop
  | .absent => True
  | .mk _ xs => Instr.ValidList allowed xs

def Instr.ValidList (allowed : String → Prop) : List Instr → Prop
  | [] => True
  | x :: xs => x.Valid allowed ∧ Instr.ValidList allowed xs

def Arm.ValidList (allowed : String → Prop) : List Arm → Prop
  | [] => True
  | .mk _ c b :: rest => (c.Valid allowed ∧ b.Valid allowed) ∧ Arm.ValidList allowed rest

end

theorem Instr.validList_append {allowed : String → Prop} {xs ys : List Instr} :
    Instr.ValidList allowed (xs ++ ys) ↔
      Instr.ValidList allowed xs ∧ Instr.ValidList allowed ys := by
  induction xs with
  | nil => simp [Instr.ValidList]
  | cons x xs ih => simp [Instr.ValidList, ih, and_assoc]

/-- The names that a body may use: any, or those of no inline once inlines are expanded. -/
def Program.Allows (p : Program) (expanded : Bool) (name : String) : Prop :=
  expanded = true → p.inlines.contains name = false

theorem Program.allows_false (p : Program) : p.Allows false = fun _ => True := by
  funext name
  simp [Allows]

variable {p : Program} {expanded : Bool} {owner : String}

/-- None of the nodes breaks a rule. -/
def RulesKept (p : Program) (expanded : Bool) (owner : String) (nodes : List Node) : Prop :=
  ∀ n ∈ nodes, n.violation? p expanded owner = none

theorem rulesKept_nil : RulesKept p expanded owner [] := by
  simp [RulesKept]

theorem rulesKept_cons {n : Node} {ns : List Node} : RulesKept p expanded owner (n :: ns) ↔
    n.violation? p expanded owner = none ∧ RulesKept p expanded owner ns := by
  simp [RulesKept]

theorem rulesKept_append {ns ms : List Node} : RulesKept p expanded owner (ns ++ ms) ↔
    RulesKept p expanded owner ns ∧ RulesKept p expanded owner ms := by
  simp only [RulesKept, List.mem_append, or_imp, forall_and]

theorem violation?_op {pos : Pos} {o : Op} :
    Node.violation? p expanded owner (.instr (.op pos o)) = none ↔
      o.Valid (p.Allows expanded) := by
  cases o <;> simp [Node.violation?, Op.Valid, Program.Allows]

theorem violation?_branch {pos : Pos} {c b : Block} {es : List Arm} {o : Block} :
    Node.violation? p expanded owner (.instr (.branch pos c b es o)) = none ↔
      c.isPresent ∧ b.isPresent := by
  simp [Node.violation?]

theorem violation?_loop {pos : Pos} {c b : Block} :
    Node.violation? p expanded owner (.instr (.loop pos c b)) = none ↔
      c.isPresent ∧ b.isPresent := by
  simp [Node.violation?]

mutual

theorem Instr.nodes_rules (x : Instr) :
    RulesKept p expanded owner (x.nodes fun _ => true) ↔ x.Valid (p.Allows expanded) := by
  match x with
  | .op pos o =>
    rw [Instr.nodes, Instr.Valid, rulesKept_cons, violation?_op]
    simp only [rulesKept_nil, and_true]
  | .branch pos c b es o =>
    rw [Instr.nodes, Instr.Valid, if_pos rfl, rulesKept_cons, rulesKept_append, rulesKept_append,
      rulesKept_append, violation?_branch, c.nodes_rules, b.nodes_rules, Arm.nodesList_rules es,
      o.nodes_rules]
    simp only [and_assoc]
  | .loop pos c b =>
    rw [Instr.nodes, Instr.Valid, if_pos rfl, rulesKept_cons, rulesKept_append, violation?_loop,
      c.nodes_rules, b.nodes_rules]

theorem Block.nodes_rules (b : Block) :
    RulesKept p expanded owner (b.nodes fun _ => true) ↔ b.Valid (p.Allows expanded) := by
  match b with
  | .absent => simp only [Block.nodes, Block.Valid, rulesKept_nil]
  | .mk pos xs =>
    rw [Block.nodes, Block.Valid, if_pos rfl, rulesKept_cons, Instr.nodesList_rules xs]
    simp only [Node.violation?, true_and]

theorem Instr.nodesList_rules (xs : List Instr) :
    RulesKept p expanded owner (Instr.nodesList (fun _ => true) xs) ↔
      Instr.ValidList (p.Allows expanded) xs := by
  match xs with
  | [] => simp only [Instr.nodesList, Instr.ValidList, rulesKept_nil]
  | x :: xs =>
    rw [Instr.nodesList, Instr.ValidList, rulesKept_append, x.nodes_rules,
      Instr.nodesList_rules xs]

theorem Arm.nodesList_rules (es : List Arm) :
    RulesKept p expanded owner (Arm.nodesList (fun _ => true) es) ↔
      Arm.ValidList (p.Allows expanded) es := by
  match es with
  | [] => simp only [Arm.nodesList, Arm.ValidList, rulesKept_nil]
  | .mk pos c b :: rest =>
    rw [Arm.nodesList, Arm.ValidList, if_pos rfl, rulesKept_cons, rulesKept_append,
      rulesKept_append, c.nodes_rules, b.nodes_rules, Arm.nodesList_rules rest]
    simp only [Node.violation?, true_and]

end

theorem Block.violations_eq_nil_iff {b : Block} :
    b.violations p expanded owner = [] ↔ b.Valid (p.Allows expanded) := by
  rw [Block.violations, List.filterMap_eq_nil_iff]
  exact b.nodes_rules

/-- Before inlines are expanded, more names may be used than after. -/
theorem Block.valid_relaxed (b : Block) (owner : String) (h : b.Valid (p.Allows true)) :
    b.Valid (p.Allows false) := by
  have kept : RulesKept p true owner (b.nodes fun _ => true) := b.nodes_rules.mpr h
  have relaxed : RulesKept p false owner (b.nodes fun _ => true) := by
    intro n hn
    have rule := kept n hn
    cases n with
    | instr x =>
      cases x with
      | op pos o =>
        refine violation?_op.mpr ?_
        have valid := violation?_op.mp rule
        cases o with
        | ident name => simp [Op.Valid, Program.Allows]
        | _ => exact valid
      | _ => exact rule
    | _ => exact rule
  exact b.nodes_rules.mp relaxed

/-- Declarations that break no rule of their own. -/
def Decl.Valid (p : Program) (expanded : Bool) : Decl → Prop
  | .proc r => r.body.isPresent ∧ r.body.lastIsReturn ∧ r.body.Valid (p.Allows expanded)
  | .inline r => r.body.isPresent ∧ r.body.Valid fun _ => True
  | .memory m => 0 < m.size

theorem Decl.violations_eq_nil_iff {d : Decl} :
    d.violations p expanded = [] ↔ d.Valid p expanded := by
  cases d with
  | proc r =>
    by_cases present : r.body.isPresent <;> by_cases last : r.body.lastIsReturn <;>
      simp [Decl.violations, Decl.Valid, present, last, Block.violations_eq_nil_iff]
  | inline r =>
    by_cases present : r.body.isPresent <;>
      simp [Decl.violations, Decl.Valid, present, Block.violations_eq_nil_iff, p.allows_false]
  | memory m => simp [Decl.violations, Decl.Valid]

theorem nameViolations_eq_nil_iff {seen : List String} {ds : List Decl} :
    nameViolations p seen ds = [] ↔
      (∀ d ∈ ds, d.name ∉ seen ∧ p.lookup d.name = some d) ∧ (ds.map Decl.name).Nodup := by
  induction ds generalizing seen with
  | nil => simp [nameViolations]
  | cons d rest ih =>
    rw [nameViolations, List.append_eq_nil_iff, List.append_eq_nil_iff, ih]
    simp only [List.mem_cons, List.map_cons, List.nodup_cons, List.mem_map]
    constructor
    · rintro ⟨⟨hs, hl⟩, hr, nodup⟩
      have hs : d.name ∉ seen := by simpa using hs
      have hl : p.lookup d.name = some d := by simpa using hl
      refine ⟨?_, ?_, nodup⟩
      · rintro e (rfl | he)
        · exact ⟨hs, hl⟩
        · exact ⟨fun h => (hr e he).1 (.inr h), (hr e he).2⟩
      · rintro ⟨e, he, same⟩
        exact (hr e he).1 (.inl same)
    · rintro ⟨hr, fresh, nodup⟩
      obtain ⟨hs, hl⟩ := hr d (.inl rfl)
      refine ⟨by simp [hs, hl], ?_, nodup⟩
      intro e he
      refine ⟨?_, (hr e (.inr he)).2⟩
      rintro (same | h)
      · exact fresh ⟨e, he, same⟩
      · exact (hr e (.inr he)).1 h

namespace Program

/-- The entries of the three maps, each with the declaration that it holds. -/
def entries (p : Program) : List (String × Decl) :=
  p.procs.entries.map (fun e => (e.1, .proc e.2)) ++
    p.inlines.entries.map (fun e => (e.1, .inline e.2)) ++
    p.memories.entries.map (fun e => (e.1, .memory e.2))

theorem length_entries (p : Program) : p.entries.length = p.registered := by
  simp [entries, registered, Table.size, Nat.add_assoc]

theorem mem_entries_proc {name : String} {r : Routine} :
    (name, .proc r) ∈ p.entries ↔ p.procs.get? name = some r := by
  simp [entries, Table.get?_eq_some_iff]

theorem mem_entries_inline {name : String} {r : Routine} :
    (name, .inline r) ∈ p.entries ↔ p.inlines.get? name = some r := by
  simp [entries, Table.get?_eq_some_iff]

theorem mem_entries_memory {name : String} {m : Memory} :
    (name, .memory m) ∈ p.entries ↔ p.memories.get? name = some m := by
  simp [entries, Table.get?_eq_some_iff]

theorem mem_entries_of_lookup {name : String} {d : Decl} (h : p.lookup name = some d) :
    (name, d) ∈ p.entries := by
  rcases Option.or_eq_some_iff.mp h with h | ⟨_, h⟩
  · obtain ⟨r, hr, rfl⟩ := Option.map_eq_some_iff.mp h
    exact mem_entries_proc.mpr hr
  · rcases Option.or_eq_some_iff.mp h with h | ⟨_, h⟩
    · obtain ⟨r, hr, rfl⟩ := Option.map_eq_some_iff.mp h
      exact mem_entries_inline.mpr hr
    · obtain ⟨m, hm, rfl⟩ := Option.map_eq_some_iff.mp h
      exact mem_entries_memory.mpr hm

theorem nodup_entries (p : Program) : p.entries.Nodup := by
  have tagged {α : Type} (t : Table String α) (f : α → Decl) (hf : Function.Injective f) :
      (t.entries.map fun e => (e.1, f e.2)).Nodup := by
    refine t.nodup.of_map.map fun e e' h => ?_
    obtain ⟨key, value⟩ := Prod.mk.inj h
    exact Prod.ext key (hf value)
  have apart {α β : Type} (t : Table String α) (u : Table String β) (f : α → Decl) (g : β → Decl)
      (h : ∀ a b, f a ≠ g b) :
      List.Disjoint (t.entries.map fun e => (e.1, f e.2))
        (u.entries.map fun e => (e.1, g e.2)) := by
    intro entry ht hu
    obtain ⟨e, _, rfl⟩ := List.mem_map.mp ht
    obtain ⟨e', _, same⟩ := List.mem_map.mp hu
    exact h _ _ (Prod.mk.inj same).2.symm
  refine List.nodup_append'.mpr ⟨List.nodup_append'.mpr ⟨?_, ?_, ?_⟩, ?_, ?_⟩
  · exact tagged p.procs .proc fun _ _ => Decl.proc.inj
  · exact tagged p.inlines .inline fun _ _ => Decl.inline.inj
  · exact apart p.procs p.inlines .proc .inline nofun
  · exact tagged p.memories .memory fun _ _ => Decl.memory.inj
  · exact List.disjoint_append_left.mpr ⟨apart p.procs p.memories .proc .memory nofun,
      apart p.inlines p.memories .inline .memory nofun⟩

/-- The entries that the maps have if they hold what is listed. -/
def listed (p : Program) : List (String × Decl) :=
  p.decls.map fun d => (d.name, d)

theorem mem_listed {name : String} {d : Decl} :
    (name, d) ∈ p.listed ↔ d ∈ p.decls ∧ d.name = name := by
  rw [listed, List.mem_map]
  constructor
  · rintro ⟨e, he, h⟩
    cases h
    exact ⟨he, rfl⟩
  · rintro ⟨hd, rfl⟩
    exact ⟨d, hd, rfl⟩

theorem nodup_listed (h : (p.decls.map Decl.name).Nodup) : p.listed.Nodup := by
  refine List.Nodup.of_map Prod.fst ?_
  simpa [listed, List.map_map, Function.comp_def] using h

/-- Declarations that are all found under their own names fill the maps if they are as many as the
entries, so that the maps hold nothing else. -/
theorem coherent_of_registered (nodup : (p.decls.map Decl.name).Nodup)
    (found : ∀ d ∈ p.decls, p.lookup d.name = some d) (count : p.registered = p.decls.length) :
    p.Coherent := by
  have held : p.listed ⊆ p.entries := by
    rintro ⟨name, d⟩ he
    obtain ⟨hd, rfl⟩ := mem_listed.mp he
    exact mem_entries_of_lookup (found d hd)
  have short : p.entries.length ≤ p.listed.length := by
    simp [listed, length_entries, count]
  have perm := (List.subperm_of_subset (nodup_listed nodup) held).perm_of_length_le short
  have only {name : String} {d : Decl} : (name, d) ∈ p.entries ↔ d ∈ p.decls ∧ d.name = name :=
    perm.mem_iff.symm.trans mem_listed
  exact ⟨nodup, mem_entries_proc.symm.trans only, mem_entries_inline.symm.trans only,
    mem_entries_memory.symm.trans only, count⟩

/-- Maps that hold exactly what is listed have as many entries as the list. -/
theorem registered_of_held (nodup : (p.decls.map Decl.name).Nodup)
    (held : ∀ name d, (name, d) ∈ p.entries ↔ d ∈ p.decls ∧ d.name = name) :
    p.registered = p.decls.length := by
  have perm : p.entries.Perm p.listed :=
    (List.perm_ext_iff_of_nodup p.nodup_entries (nodup_listed nodup)).mpr fun e =>
      (held e.1 e.2).trans mem_listed.symm
  rw [← length_entries, perm.length_eq, listed, List.length_map]

/-- No rule is broken exactly when the entry procedure is there, the maps are those of the listed
declarations, and no declaration breaks a rule of its own. -/
theorem violations_eq_nil_iff : p.violations expanded = [] ↔
    p.entry?.isSome ∧ p.Coherent ∧ ∀ d ∈ p.decls, d.Valid p expanded := by
  have parts : p.violations expanded = [] ↔
      p.entry?.isSome ∧ nameViolations p [] p.decls = [] ∧ p.registered = p.decls.length ∧
        ∀ d ∈ p.decls, d.Valid p expanded := by
    simp only [violations, List.append_eq_nil_iff, List.flatMap_eq_nil_iff,
      Decl.violations_eq_nil_iff, ite_eq_left_iff, List.cons_ne_nil, imp_false, not_not, and_assoc]
  rw [parts, nameViolations_eq_nil_iff]
  constructor
  · rintro ⟨entry, ⟨found, nodup⟩, count, valid⟩
    exact ⟨entry, coherent_of_registered nodup (fun d hd => (found d hd).2) count, valid⟩
  · rintro ⟨entry, coherent, valid⟩
    exact ⟨entry, ⟨fun d hd => ⟨by simp, coherent.lookup_of_mem hd⟩, coherent.nodup⟩,
      coherent.count, valid⟩

theorem verify_eq_ok_iff : p.verify expanded = .ok () ↔ p.violations expanded = [] := by
  unfold verify
  cases p.violations expanded <;> simp

/-- Verification pins the name space: names are listed once, each map holds exactly the listed
declarations of its kind, under their own names, and the entry procedure is listed. All else that
it asks is what a declaration owes by itself. -/
theorem verify_pins_namespace (p : Program) (expanded : Bool) : p.verify expanded = .ok () ↔
    (p.decls.map Decl.name).Nodup ∧
    (∀ name r, p.procs.get? name = some r ↔ .proc r ∈ p.decls ∧ r.name = name) ∧
    (∀ name r, p.inlines.get? name = some r ↔ .inline r ∈ p.decls ∧ r.name = name) ∧
    (∀ name m, p.memories.get? name = some m ↔ .memory m ∈ p.decls ∧ m.name = name) ∧
    (∃ r, .proc r ∈ p.decls ∧ r.name = Source.entryPoint) ∧
    ∀ d ∈ p.decls, d.Valid p expanded := by
  rw [verify_eq_ok_iff, violations_eq_nil_iff]
  constructor
  · rintro ⟨entry, coherent, valid⟩
    obtain ⟨r, hr⟩ := Option.isSome_iff_exists.mp entry
    exact ⟨coherent.nodup, fun _ _ => coherent.proc_iff, fun _ _ => coherent.inline_iff,
      fun _ _ => coherent.memory_iff, ⟨r, coherent.proc_iff.mp hr⟩, valid⟩
  · rintro ⟨nodup, procs, inlines, memories, ⟨r, hr⟩, valid⟩
    have held (name : String) (d : Decl) :
        (name, d) ∈ p.entries ↔ d ∈ p.decls ∧ d.name = name := by
      cases d with
      | proc r => exact mem_entries_proc.trans (procs name r)
      | inline r => exact mem_entries_inline.trans (inlines name r)
      | memory m => exact mem_entries_memory.trans (memories name m)
    have entry : p.entry? = some r := (procs _ r).mpr hr
    exact ⟨by simp [entry],
      ⟨nodup, procs _ _, inlines _ _, memories _ _, registered_of_held nodup held⟩, valid⟩

theorem violations_relaxed (hv : p.violations true = []) : p.violations false = [] := by
  obtain ⟨entry, coherent, valid⟩ := violations_eq_nil_iff.mp hv
  refine violations_eq_nil_iff.mpr ⟨entry, coherent, fun d hd => ?_⟩
  have own := valid d hd
  cases d with
  | proc r => exact ⟨own.1, own.2.1, r.body.valid_relaxed r.name own.2.2⟩
  | _ => exact own

end Program

end StackLang
