import Mathlib
import StackLang.Proofs.Inline.References
import StackLang.Proofs.Rules
/-!
The search for cycles against the graph of uses. The graph is read off a walk over the bodies, so
that it does not depend on the order in which the search meets the names. The search succeeds
exactly when the graph has no cycle, and what it reports otherwise is one.
-/

namespace StackLang

/-- A name stands at a place somewhere in a block, at whatever depth. -/
def Block.Mentions (b : Block) (name : String) (pos : Pos) : Prop :=
  .instr (.op pos (.ident name)) ∈ b.nodes fun _ => true

mutual

theorem Instr.mem_nodes_ident {name : String} {pos : Pos} (x : Instr) :
    .instr (.op pos (.ident name)) ∈ x.nodes (fun _ => true) ↔ (name, pos) ∈ x.uses := by
  match x with
  | .op p o => cases o <;> simp [Instr.nodes, Instr.uses, and_comm]
  | .branch p c b es o =>
    simp only [Instr.nodes, Instr.uses, if_true, List.mem_cons, List.mem_append,
      c.mem_nodes_ident, b.mem_nodes_ident, Arm.mem_nodesList_ident es, o.mem_nodes_ident]
    simp
  | .loop p c b =>
    simp only [Instr.nodes, Instr.uses, if_true, List.mem_cons, List.mem_append,
      c.mem_nodes_ident, b.mem_nodes_ident]
    simp

theorem Block.mem_nodes_ident {name : String} {pos : Pos} (b : Block) :
    .instr (.op pos (.ident name)) ∈ b.nodes (fun _ => true) ↔ (name, pos) ∈ b.uses := by
  match b with
  | .absent => simp [Block.nodes, Block.uses]
  | .mk p xs =>
    simp only [Block.nodes, Block.uses, if_true, List.mem_cons, Instr.mem_nodesList_ident xs]
    simp

theorem Instr.mem_nodesList_ident {name : String} {pos : Pos} (xs : List Instr) :
    .instr (.op pos (.ident name)) ∈ Instr.nodesList (fun _ => true) xs ↔
      (name, pos) ∈ Instr.usesList xs := by
  match xs with
  | [] => simp [Instr.nodesList, Instr.usesList]
  | x :: xs =>
    simp only [Instr.nodesList, Instr.usesList, List.mem_append, x.mem_nodes_ident,
      Instr.mem_nodesList_ident xs]
    exact or_comm

theorem Arm.mem_nodesList_ident {name : String} {pos : Pos} (es : List Arm) :
    .instr (.op pos (.ident name)) ∈ Arm.nodesList (fun _ => true) es ↔
      (name, pos) ∈ Arm.usesList es := by
  match es with
  | [] => simp [Arm.nodesList, Arm.usesList]
  | .mk p c b :: rest =>
    simp only [Arm.nodesList, Arm.usesList, if_true, List.mem_cons, List.mem_append,
      c.mem_nodes_ident, b.mem_nodes_ident, Arm.mem_nodesList_ident rest]
    simp

end

theorem Block.mentions_iff {b : Block} {name : String} {pos : Pos} :
    b.Mentions name pos ↔ (name, pos) ∈ b.uses :=
  b.mem_nodes_ident

/-- The edges of the graph: the name of one inline stands in the body of another. -/
def Program.Uses (p : Program) (a b : String) : Prop :=
  ∃ d pos, p.inlines.get? a = some d ∧ d.body.Mentions b pos ∧ (p.inlines.get? b).isSome

theorem Program.uses_eq_refers (p : Program) : p.Uses = p.Refers := by
  funext a b
  simp only [Uses, Refers, Block.mentions_iff]

/-- No inline leads back to itself. -/
def Program.Acyclic (p : Program) : Prop :=
  ∀ name, ¬ Relation.TransGen p.Uses name name

/-- What a report of a cycle claims: the names differ, each leads to the next one and the last to
the first, whose name stands at the reported place in the body of the last. -/
def Cycle.Genuine (p : Program) (c : Cycle) : Prop :=
  c.chain.Nodup ∧ ∃ first last d, c.chain.head? = some first ∧ c.chain.getLast? = some last ∧
    (c.chain ++ [first]).IsChain p.Uses ∧ p.inlines.get? last = some d ∧
    d.body.Mentions first c.pos

/-- How the search comes to an inline: along a path of different inlines, each used by the one
before, at a place in the last of them unless the search begins here. -/
structure Program.Met (p : Program) (active : List String) (name : String) (pos : Pos) : Prop where
  nodup : active.Nodup
  chain : active.IsChain p.Uses
  place : ∀ last ∈ active.getLast?, ∃ d, p.inlines.get? last = some d ∧ d.body.Mentions name pos

namespace Program.Met

variable {p : Program} {active : List String} {name : String} {pos : Pos}

theorem link (h : p.Met active name pos) (known : (p.inlines.get? name).isSome) :
    ∀ last ∈ active.getLast?, p.Uses last name := by
  intro last hl
  obtain ⟨d, hd, mentions⟩ := h.place last hl
  exact ⟨d, pos, hd, mentions, known⟩

theorem extend (h : p.Met active name pos) {d : Routine} (hd : p.inlines.get? name = some d)
    (fresh : name ∉ active) {used : String} {place : Pos} (hu : d.body.Mentions used place) :
    p.Met (active ++ [name]) used place := by
  refine ⟨?_, ?_, ?_⟩
  · rw [← List.concat_eq_append]
    exact h.nodup.concat fresh
  · refine List.isChain_append.mpr ⟨h.chain, List.isChain_singleton _, ?_⟩
    intro last hl next hn
    have hn : name = next := by simpa using hn
    subst hn
    exact h.link (by simp [hd]) last hl
  · intro last hl
    have hl : name = last := by simpa using hl
    subst hl
    exact ⟨d, hd, hu⟩

/-- The part of the path from the inline on that is met again is a cycle. -/
theorem genuine (h : p.Met active name pos) (known : (p.inlines.get? name).isSome)
    (again : name ∈ active) : Cycle.Genuine p ⟨pos, active.dropWhile (· != name)⟩ := by
  have suffix : active.dropWhile (· != name) <:+ active := List.dropWhile_suffix _
  have nonempty : active.dropWhile (· != name) ≠ [] := by
    intro empty
    rw [List.dropWhile_eq_nil_iff] at empty
    exact absurd (empty name again) (by simp)
  obtain ⟨first, rest, parts⟩ := List.exists_cons_of_ne_nil nonempty
  have start : first = name := by
    have stops := List.head_dropWhile_not (· != name) nonempty
    simpa [parts] using stops
  subst start
  have last_eq : (active.dropWhile (· != first)).getLast? = active.getLast? := by
    obtain ⟨before, whole⟩ := suffix
    rw [← whole, List.getLast?_append_of_ne_nil _ nonempty, whole]
  obtain ⟨last, hl⟩ := Option.isSome_iff_exists.mp (List.getLast?_isSome.mpr nonempty)
  have hl' : last ∈ active.getLast? := last_eq ▸ hl
  obtain ⟨d, hd, mentions⟩ := h.place last hl'
  refine ⟨h.nodup.sublist suffix.sublist, first, last, d, by rw [parts]; rfl, hl, ?_, hd, mentions⟩
  refine List.isChain_append.mpr ⟨h.chain.suffix suffix, List.isChain_singleton _, ?_⟩
  intro final hf next hn
  have hn : first = next := by simpa using hn
  subst hn
  exact h.link known final (last_eq ▸ hf)

end Program.Met

variable {p : Program}

theorem visitUses_eq_error {visit : List String → Routine → Pos → Except Cycle (List String)}
    {uses : List (String × Pos)} {cleared : List String} {c : Cycle}
    (h : visitUses p visit cleared uses = .error c) :
    ∃ u ∈ uses, ∃ d cleared', p.inlines.get? u.1 = some d ∧ visit cleared' d u.2 = .error c := by
  induction uses generalizing cleared with
  | nil => cases h
  | cons u rest ih =>
    unfold visitUses at h
    split at h
    next =>
      obtain ⟨v, hv, found⟩ := ih h
      exact ⟨v, List.mem_cons_of_mem _ hv, found⟩
    next d hd =>
      rcases bind_eq_error.mp h with stops | ⟨mid, _, h⟩
      · exact ⟨u, List.mem_cons_self, d, cleared, hd, stops⟩
      · obtain ⟨v, hv, found⟩ := ih h
        exact ⟨v, List.mem_cons_of_mem _ hv, found⟩

/-- What a visit reports is a cycle. The induction is on the bound, and the path carries it. -/
theorem visitInline_genuine (own : p.OwnNames) {fuel : Nat} {active cleared : List String}
    {d : Routine} {pos : Pos} {c : Cycle} (hd : p.inlines.get? d.name = some d)
    (met : p.Met active d.name pos) (h : visitInline p fuel active cleared d pos = .error c) :
    c.Genuine p := by
  induction fuel generalizing active cleared d pos with
  | zero => cases h
  | succ fuel ih =>
    unfold visitInline at h
    split at h
    next again =>
      cases h
      exact met.genuine (by simp [hd]) (by simpa using again)
    next fresh =>
      have fresh : d.name ∉ active := by simpa using fresh
      split at h
      next => cases h
      next =>
        rcases bind_eq_error.mp h with stops | ⟨_, _, h⟩
        · obtain ⟨u, hu, e, _, he, stops⟩ := visitUses_eq_error stops
          have name := own he
          have use : d.body.Mentions e.name u.2 := by
            rw [Block.mentions_iff, name]
            exact hu
          exact ih (name ▸ he) (met.extend hd fresh use) stops
        · cases h

theorem checkInlines_genuine (own : p.OwnNames) {ds : List Routine} {c : Cycle}
    (found : ∀ d ∈ ds, p.inlines.get? d.name = some d) (h : checkInlines p ds = .error c) :
    c.Genuine p := by
  induction ds with
  | nil => cases h
  | cons d rest ih =>
    unfold checkInlines at h
    rcases bind_eq_error.mp h with stops | ⟨_, _, h⟩
    · have start : p.Met [] d.name d.namePos := ⟨List.nodup_nil, List.isChain_nil, by simp⟩
      exact visitInline_genuine own (found d List.mem_cons_self) start stops
    · exact ih (fun e he => found e (List.mem_cons_of_mem _ he)) h

theorem Program.Coherent.cycle_genuine (h : p.Coherent) {c : Cycle}
    (hc : p.checkCycles = .error c) : c.Genuine p := by
  refine checkInlines_genuine h.ownNames ?_ hc
  intro d hd
  exact h.inline_iff.mpr ⟨mem_inlineList.mp hd, rfl⟩

theorem Cycle.Genuine.not_acyclic {c : Cycle} (h : c.Genuine p) : ¬ p.Acyclic := by
  obtain ⟨_, first, last, d, head, _, chain, _⟩ := h
  obtain ⟨rest, parts⟩ := List.head?_eq_some_iff.mp head
  rw [parts, List.cons_append] at chain
  have steps : (first :: (rest ++ [first])).IsChain (Relation.TransGen p.Uses) :=
    chain.imp fun _ _ => .single
  exact fun acyclic => acyclic first (steps.rel_cons (by simp))

/-- The search ends without a report exactly when no inline leads back to itself. -/
theorem Program.Coherent.checkCycles_eq_ok_iff (h : p.Coherent) :
    p.checkCycles = .ok () ↔ p.Acyclic := by
  constructor
  · intro hc name
    rw [p.uses_eq_refers]
    exact (h.grounded hc name).not_transGen
  · intro acyclic
    cases hc : p.checkCycles with
    | ok => rfl
    | error c => exact absurd acyclic (h.cycle_genuine hc).not_acyclic

/-- The search for cycles is exact, and every cycle it reports is one. -/
theorem checkCycles_exact (hv : p.violations false = []) :
    (p.checkCycles = .ok () ↔ p.Acyclic) ∧ ∀ c, p.checkCycles = .error c → c.Genuine p := by
  obtain ⟨_, h, _⟩ := Program.violations_eq_nil_iff.mp hv
  exact ⟨h.checkCycles_eq_ok_iff, fun c hc => h.cycle_genuine hc⟩

/-- A program whose first inline is on no cycle and leads to one, below a condition and a loop. -/
def tangled : Program :=
  let name (line : Nat) (s : String) : Instr := .op ⟨"", line, 1⟩ (.ident s)
  let block (xs : List Instr) : Block := .mk default xs
  let routine (s : String) (xs : List Instr) : Routine :=
    { name := s, pos := default, namePos := default, body := block xs }
  let lead := routine "lead" [name 1 "knot"]
  let knot := routine "knot" [.branch default (block []) (block []) [] (block [name 2 "loop"])]
  let loop := routine "loop" [.loop default (block [name 3 "knot"]) (block [])]
  let main := routine Source.entryPoint [.op default .ret]
  (((({ file := "" } : Program).insert (.inline lead)).insert (.inline knot)).insert
    (.inline loop)).insert (.proc main)

theorem tangled_cycle : tangled.violations false = [] ∧
    Cycle.Genuine tangled ⟨⟨"", 3, 1⟩, ["knot", "loop"]⟩ ∧ ¬ tangled.Acyclic := by
  have rules : tangled.violations false = [] := by cbv
  have search : tangled.checkCycles = .error ⟨⟨"", 3, 1⟩, ["knot", "loop"]⟩ := by cbv
  obtain ⟨exact, reported⟩ := checkCycles_exact rules
  refine ⟨rules, reported _ search, ?_⟩
  rw [← exact, search]
  simp

end StackLang
