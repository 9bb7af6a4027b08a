import StackLang.Listing.Tree
import StackLang.Proofs.Rules
import StackLang.Proofs.Source.Acceptance
/-!
Which programs have a tree. A tree needs every block that a node must hold; the rules ask for all
of them but the condition and the body of a further arm of a conditional.
-/

namespace StackLang

/-- Whether a further arm of a conditional has its condition and its body. -/
def Arm.isWhole : Arm → Bool
  | .mk _ c b => c.isPresent && b.isPresent

/-- Whether a declaration has the body that procedures and inlines have. -/
def Decl.isWhole : Decl → Bool
  | .memory _ => true
  | d => d.body.isPresent

/-- Whether a part of a body has the blocks that a part of its kind must hold. -/
def Node.isWhole : Node → Bool
  | .instr (.branch _ c b _ _) => c.isPresent && b.isPresent
  | .instr (.loop _ c b) => c.isPresent && b.isPresent
  | .arm a => a.isWhole
  | _ => true

/-- All of the parts have the blocks that they must hold. -/
def AllWhole (nodes : List Node) : Prop :=
  ∀ n ∈ nodes, n.isWhole

theorem allWhole_nil : AllWhole [] := by
  simp [AllWhole]

theorem allWhole_cons {n : Node} {ns : List Node} :
    AllWhole (n :: ns) ↔ n.isWhole ∧ AllWhole ns := by
  simp [AllWhole]

theorem allWhole_append {ns ms : List Node} :
    AllWhole (ns ++ ms) ↔ AllWhole ns ∧ AllWhole ms := by
  simp only [AllWhole, List.forall_mem_append]

/-- A step after which it no longer depends on the value whether there is a result. -/
theorem isSome_bind_iff {α β : Type} {x : Option α} {f : α → Option β} {q : Prop}
    (h : ∀ a, (f a).isSome ↔ q) : (x >>= f).isSome ↔ x.isSome ∧ q := by
  cases x with
  | none => simp
  | some a => simpa using h a

mutual

theorem Instr.isSome_tree? (x : Instr) :
    x.tree?.isSome ↔ AllWhole (x.nodes fun _ => true) := by
  match x with
  | .op p o => simp [Instr.tree?, Instr.nodes, AllWhole, Node.isWhole]
  | .branch p c b es o =>
    have parts : (Instr.branch p c b es o).tree?.isSome ↔
        c.tree?.isSome ∧ b.tree?.isSome ∧ (Arm.treeList? es).isSome ∧
          AllWhole (o.nodes fun _ => true) := by
      rw [Instr.tree?]
      refine isSome_bind_iff fun _ => isSome_bind_iff fun _ => isSome_bind_iff fun _ => ?_
      match o with
      | .absent => simp [Block.nodes, allWhole_nil]
      | .mk q xs =>
        have hxs := Instr.isSome_treeList? xs
        refine (isSome_bind_iff (q := True) fun _ => by simp).trans ?_
        simp [Block.nodes, allWhole_cons, Node.isWhole, hxs]
    rw [parts, c.isSome_tree?, b.isSome_tree?, Arm.isSome_treeList? es, Instr.nodes, if_pos rfl,
      allWhole_cons, allWhole_append, allWhole_append, allWhole_append, Node.isWhole,
      Bool.and_eq_true]
    tauto
  | .loop p c b =>
    have parts : (Instr.loop p c b).tree?.isSome ↔ c.tree?.isSome ∧ b.tree?.isSome ∧ True := by
      rw [Instr.tree?]
      exact isSome_bind_iff fun _ => isSome_bind_iff fun _ => by simp
    rw [parts, c.isSome_tree?, b.isSome_tree?, Instr.nodes, if_pos rfl, allWhole_cons,
      allWhole_append, Node.isWhole, Bool.and_eq_true]
    tauto

theorem Block.isSome_tree? (b : Block) :
    b.tree?.isSome ↔ b.isPresent ∧ AllWhole (b.nodes fun _ => true) := by
  match b with
  | .absent => simp [Block.tree?, Block.isPresent]
  | .mk p xs =>
    have hxs := Instr.isSome_treeList? xs
    simp [Block.tree?, Block.isPresent, Block.nodes, allWhole_cons, Node.isWhole, hxs]

theorem Instr.isSome_treeList? (xs : List Instr) :
    (Instr.treeList? xs).isSome ↔ AllWhole (Instr.nodesList (fun _ => true) xs) := by
  match xs with
  | [] => simp [Instr.treeList?, Instr.nodesList, allWhole_nil]
  | x :: xs =>
    have parts : (Instr.treeList? (x :: xs)).isSome ↔
        x.tree?.isSome ∧ (Instr.treeList? xs).isSome ∧ True := by
      rw [Instr.treeList?]
      exact isSome_bind_iff fun _ => isSome_bind_iff fun _ => by simp
    rw [parts, x.isSome_tree?, Instr.isSome_treeList? xs, Instr.nodesList, allWhole_append,
      and_true]

theorem Arm.isSome_treeList? (es : List Arm) :
    (Arm.treeList? es).isSome ↔ AllWhole (Arm.nodesList (fun _ => true) es) := by
  match es with
  | [] => simp [Arm.treeList?, Arm.nodesList, allWhole_nil]
  | .mk p c b :: rest =>
    have parts : (Arm.treeList? (.mk p c b :: rest)).isSome ↔
        c.tree?.isSome ∧ b.tree?.isSome ∧ (Arm.treeList? rest).isSome ∧ True := by
      rw [Arm.treeList?]
      exact isSome_bind_iff fun _ => isSome_bind_iff fun _ => isSome_bind_iff fun _ => by simp
    rw [parts, c.isSome_tree?, b.isSome_tree?, Arm.isSome_treeList? rest, Arm.nodesList,
      if_pos rfl, allWhole_cons, allWhole_append, allWhole_append, Node.isWhole, Arm.isWhole,
      Bool.and_eq_true]
    tauto

end

theorem Decl.isSome_tree? (d : Decl) :
    d.tree?.isSome ↔ d.isWhole ∧ AllWhole (d.nodes fun _ => true) := by
  rw [Decl.nodes, if_pos rfl, allWhole_cons]
  cases d with
  | memory m => simp [Decl.tree?, Decl.isWhole, Decl.body, Block.nodes, allWhole_nil, Node.isWhole]
  | proc r | inline r =>
    simp [Decl.tree?, Decl.isWhole, Decl.body, Node.isWhole, Block.isSome_tree?]

theorem isSome_mapM_iff {α β : Type} {f : α → Option β} {xs : List α} :
    (xs.mapM f).isSome ↔ ∀ x ∈ xs, (f x).isSome := by
  induction xs with
  | nil => simp
  | cons x xs ih =>
    rw [List.mapM_cons, List.forall_mem_cons, ← ih]
    refine isSome_bind_iff fun _ => ?_
    exact (isSome_bind_iff (q := True) fun _ => by simp).trans (and_iff_left trivial)

/-- A program has a tree exactly when every part of it has the blocks that it must hold. -/
theorem Program.isSome_tree? (p : Program) :
    p.tree?.isSome ↔ ∀ d ∈ p.decls, d.isWhole ∧ AllWhole (d.nodes fun _ => true) := by
  rw [Program.tree?, Option.isSome_map, isSome_mapM_iff]
  simp only [Decl.isSome_tree?]

/-! ### The rules, and what they leave open -/

variable {p : Program} {expanded : Bool} {owner : String}

theorem Node.isWhole_of_rule {n : Node} (rule : n.violation? p expanded owner = none)
    (arm : ∀ a, n = .arm a → a.isWhole) : n.isWhole := by
  cases n with
  | decl | block => rfl
  | arm a => exact arm a rfl
  | instr x =>
    cases x with
    | op => rfl
    | branch => simpa [Node.isWhole] using violation?_branch.mp rule
    | loop => simpa [Node.isWhole] using violation?_loop.mp rule

/-- A declaration that breaks no rule lacks at most blocks of further arms. -/
theorem Decl.allWhole_of_valid {d : Decl} (h : d.Valid p expanded)
    (arms : ∀ a, .arm a ∈ d.nodes (fun _ => true) → a.isWhole) :
    d.isWhole ∧ AllWhole (d.nodes fun _ => true) := by
  have inside {b : Block} {all : Bool} (valid : b.Valid (p.Allows all))
      (within : ∀ n ∈ b.nodes fun _ => true, n ∈ d.nodes fun _ => true) :
      AllWhole (b.nodes fun _ => true) := by
    have kept : RulesKept p all "" (b.nodes fun _ => true) := b.nodes_rules.mpr valid
    intro n hn
    refine Node.isWhole_of_rule (kept n hn) ?_
    rintro a rfl
    exact arms a (within _ hn)
  have body : AllWhole (d.nodes fun _ => true) ↔ AllWhole (d.body.nodes fun _ => true) := by
    rw [Decl.nodes, if_pos rfl, allWhole_cons]
    exact and_iff_right rfl
  have within : ∀ n ∈ d.body.nodes fun _ => true, n ∈ d.nodes fun _ => true := by
    intro n hn
    rw [Decl.nodes, if_pos rfl]
    exact List.mem_cons_of_mem _ hn
  rw [body]
  cases d with
  | proc r =>
    obtain ⟨present, _, valid⟩ := h
    exact ⟨present, inside valid within⟩
  | inline r =>
    obtain ⟨present, valid⟩ := h
    rw [← p.allows_false] at valid
    exact ⟨present, inside valid within⟩
  | memory m => exact ⟨rfl, allWhole_nil⟩

/-- A program that breaks no rule has a tree exactly when the further arms of its conditionals, at
whatever depth, have their conditions and bodies. -/
theorem Program.isSome_tree?_iff (hv : p.violations expanded = []) :
    p.tree?.isSome ↔ ∀ a, .arm a ∈ p.nodes (fun _ => true) → a.isWhole := by
  obtain ⟨_, _, valid⟩ := Program.violations_eq_nil_iff.mp hv
  rw [Program.isSome_tree?]
  simp only [Program.nodes, List.mem_flatMap]
  constructor
  · rintro whole a ⟨d, hd, ha⟩
    exact (whole d hd).2 _ ha
  · intro arms d hd
    exact Decl.allWhole_of_valid (valid d hd) fun a ha => arms a ⟨d, hd, ha⟩

/-! ### Programs that are read from tokens -/

namespace Source

theorem allWhole_block {pos : Pos} {xs : List Instr} :
    AllWhole ((Block.mk pos xs).nodes fun _ => true) ↔ AllWhole (Part.block xs).nodes := by
  rw [Block.nodes, if_pos rfl, allWhole_cons]
  exact and_iff_right rfl

theorem Spells.whole {n : Nat} {part : Part} {ts : List Lexeme} (h : Spells n part ts) :
    AllWhole part.nodes := by
  induction h with
  | nil => exact allWhole_nil
  | cons _ _ hx hxs =>
    rw [Part.nodes, Instr.nodesList, allWhole_append]
    exact ⟨hx, hxs⟩
  | plain _ => simp [Part.nodes, Instr.nodes, AllWhole, Node.isWhole]
  | branch _ _ _ _ _ hc hb ht =>
    rw [Part.nodes, Instr.nodes, if_pos rfl, allWhole_cons, List.append_assoc, allWhole_append,
      allWhole_append, allWhole_block, allWhole_block]
    exact ⟨rfl, ⟨hc, hb⟩, ht⟩
  | loop _ _ _ _ _ hc hb =>
    rw [Part.nodes, Instr.nodes, if_pos rfl, allWhole_cons, allWhole_append, allWhole_block,
      allWhole_block]
    exact ⟨rfl, hc, hb⟩
  | close _ => exact allWhole_nil
  | otherwise _ _ _ hb => exact allWhole_block.mpr hb
  | arm _ _ _ _ _ hc hb ht =>
    rw [Part.nodes, Arm.nodesList, if_pos rfl, List.cons_append, List.append_assoc, allWhole_cons,
      allWhole_append, allWhole_append, allWhole_block, allWhole_block]
    exact ⟨rfl, ⟨hc, hb⟩, ht⟩

theorem whole_returning {closing : Pos} {xs : List Instr} (h : AllWhole (Part.block xs).nodes) :
    AllWhole (Part.block (returning closing xs)).nodes := by
  rcases nodes_returning closing xs with same | added
  · rwa [same]
  · rw [added, allWhole_append]
    exact ⟨h, by simp [AllWhole, Node.isWhole]⟩

theorem DeclText.whole {d : Decl} {ts : List Lexeme} (h : DeclText d ts) :
    d.isWhole ∧ AllWhole (d.nodes fun _ => true) := by
  rw [Decl.nodes, if_pos rfl, allWhole_cons]
  cases h with
  | proc _ _ _ hb _ => exact ⟨rfl, rfl, allWhole_block.mpr (whole_returning hb.whole)⟩
  | inline _ _ _ hb _ => exact ⟨rfl, rfl, allWhole_block.mpr hb.whole⟩
  | memory => exact ⟨rfl, rfl, allWhole_nil⟩

theorem DeclsText.whole {ds : List Decl} {ts : List Lexeme} (h : DeclsText ds ts) :
    ∀ d ∈ ds, d.isWhole ∧ AllWhole (d.nodes fun _ => true) := by
  induction h with
  | nil => simp
  | snoc _ hd ih =>
    refine List.forall_mem_append.mpr ⟨ih, ?_⟩
    rw [List.forall_mem_singleton]
    exact hd.whole

end Source

/-- A program that breaks no rule has a tree exactly when the further arms of its conditionals have
their conditions and bodies, and it has one in any case if it was read from tokens. -/
theorem listed_iff_arms_whole (hv : p.violations false = []) :
    (p.tree?.isSome ↔ ∀ a, .arm a ∈ p.nodes (fun _ => true) → a.isWhole) ∧
      ∀ file tokens, (Source.parseTokens file tokens).result = .ok p → p.tree?.isSome := by
  refine ⟨Program.isSome_tree?_iff hv, ?_⟩
  intro file tokens parsed
  rw [Program.isSome_tree?]
  exact (Source.parsed_reads parsed).2.whole

/-- A program with one conditional, below a loop, with a further arm under the given condition. -/
def forked (cond : Block) : Program :=
  let empty : Block := .mk default []
  let branch : Instr := .branch default empty empty [.mk default cond empty] .absent
  let body : Block := .mk default [.loop default empty (.mk default [branch]), .op default .ret]
  ({ file := "" } : Program).insert
    (.proc { name := Source.entryPoint, pos := default, namePos := default, body })

theorem forked_listed : (forked (.mk default [])).violations false = [] ∧
    (forked (.mk default [])).tree?.isSome := by
  have rules : (forked (.mk default [])).violations false = [] := by decide +kernel
  have whole : ((forked (.mk default [])).nodes fun _ => true).all Node.isWhole := by rfl
  exact ⟨rules, (listed_iff_arms_whole rules).1.mpr fun a ha => List.all_eq_true.mp whole _ ha⟩

/-- The rules do not ask for the condition of a further arm, and without it there is no tree. -/
theorem forked_without_condition : (forked .absent).violations false = [] ∧
    (forked .absent).tree? = none :=
  ⟨by decide +kernel, by rfl⟩

end StackLang
