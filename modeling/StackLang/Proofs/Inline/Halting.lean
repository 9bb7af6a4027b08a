import StackLang.Proofs.Inline.Cycles
import StackLang.Proofs.Inline.Expanded
/-!
Where expansion stops. It stops at the first use that cannot be expanded, in the order in which the
search for cycles goes through the uses. The search leaves out inlines that it has found harmless
before; these expand on every path, so it reports exactly what stops expansion.
-/

namespace StackLang

/-- Why an expansion gives no result. -/
def refusal {α : Type} : Except Halt α → Option Halt
  | .ok _ => none
  | .error h => some h

theorem eq_error_of_refusal {α : Type} {x : Except Halt α} {h : Halt}
    (hx : refusal x = some h) : x = .error h := by
  cases x with
  | ok => cases hx
  | error => exact congrArg Except.error (Option.some.inj hx)

/-- What a search for cycles reports, as a reason for expansion to stop. -/
def reported {α : Type} : Except Cycle α → Option Halt
  | .ok _ => none
  | .error c => some (.cycle c)

/-- Why a use cannot be expanded. -/
def Resolver.halt? (resolve : Resolver) (u : String × Pos) : Option Halt :=
  (resolve u.1 u.2).bind refusal

/-! ### Expansion stops at the first use that cannot be expanded -/

mutual

theorem Instr.expand_halt (resolve : Resolver) (halt : Option Halt) (x : Instr) :
    (x.expand resolve halt).2 = halt.or (x.uses.findSome? resolve.halt?) := by
  match x with
  | .op p o =>
    cases o with
    | ident name =>
      simp only [Instr.expand, Instr.uses, List.findSome?_singleton, Resolver.halt?]
      split
      next => rfl
      next =>
        split
        next hr => simp [hr]
        next hr => simp [hr, refusal]
        next hr => simp [hr, refusal]
    | _ => simp [Instr.expand, Instr.uses]
  | .branch p c b es o =>
    simp only [Instr.expand, Instr.uses, List.findSome?_append, ← Option.or_assoc, c.expand_halt,
      b.expand_halt, Arm.expandList_halt, o.expand_halt]
  | .loop p c b =>
    simp only [Instr.expand, Instr.uses, List.findSome?_append, ← Option.or_assoc, c.expand_halt,
      b.expand_halt]

theorem Block.expand_halt (resolve : Resolver) (halt : Option Halt) (b : Block) :
    (b.expand resolve halt).2 = halt.or (b.uses.findSome? resolve.halt?) := by
  match b with
  | .absent => simp [Block.expand, Block.uses]
  | .mk p xs => simp only [Block.expand, Block.uses, Instr.expandList_halt]

theorem Instr.expandList_halt (resolve : Resolver) (halt : Option Halt) (xs : List Instr) :
    (Instr.expandList resolve halt xs).2 =
      halt.or ((Instr.usesList xs).findSome? resolve.halt?) := by
  match xs with
  | [] => simp [Instr.expandList, Instr.usesList]
  | x :: xs =>
    simp only [Instr.expandList, Instr.usesList, List.findSome?_append, ← Option.or_assoc,
      Instr.expandList_halt, x.expand_halt]

theorem Arm.expandList_halt (resolve : Resolver) (halt : Option Halt) (es : List Arm) :
    (Arm.expandList resolve halt es).2 =
      halt.or ((Arm.usesList es).findSome? resolve.halt?) := by
  match es with
  | [] => simp [Arm.expandList, Arm.usesList]
  | .mk p c b :: rest =>
    simp only [Arm.expandList, Arm.usesList, List.findSome?_append, ← Option.or_assoc,
      c.expand_halt, b.expand_halt, Arm.expandList_halt]

end

theorem Block.isPresent_expand (resolve : Resolver) (halt : Option Halt) (b : Block) :
    (b.expand resolve halt).1.isPresent = b.isPresent := by
  cases b <;> rfl

variable {p : Program}

/-- Below a path that it is not on, an inline is refused for the first use in its body that cannot
be expanded there. -/
theorem refusal_expandInline {bound : Nat} {active : List String} {d : Routine} {pos : Pos}
    (fresh : d.name ∉ active) (present : d.body.isPresent) :
    refusal (expandInline p (bound + 1) active d pos) =
      d.body.uses.findSome? (p.resolverBelow bound (active ++ [d.name])).halt? := by
  have halt := d.body.expand_halt (p.resolverBelow bound (active ++ [d.name])) none
  rw [Option.none_or] at halt
  rw [← halt]
  have whole := Block.isPresent_expand (p.resolverBelow bound (active ++ [d.name])) none d.body
  rw [present] at whole
  unfold Program.resolverBelow at whole ⊢
  have hc : ¬ active.contains d.name := by simpa using fresh
  simp only [expandInline, if_neg hc]
  split
  next hx => simp [refusal, hx]
  next hx => simp [hx, Block.isPresent] at whole
  next hx => simp [refusal, hx]

/-! ### The search reports what stops expansion -/

/-- A visitor of inlines that reports what stops expansion below a path, as long as only harmless
inlines are left out. -/
def Reports (p : Program) (visit : List String → Routine → Pos → Except Cycle (List String))
    (bound : Nat) (active : List String) (u : String × Pos) : Prop :=
  ∀ {cleared : List String} {d : Routine}, (∀ c ∈ cleared, p.Grounded c) →
    p.inlines.get? u.1 = some d →
    refusal (expandInline p bound active d u.2) = reported (visit cleared d u.2)

theorem findSome?_reported (own : p.OwnNames)
    {visit : List String → Routine → Pos → Except Cycle (List String)} (clears : Clears p visit)
    {bound : Nat} {active cleared : List String} {uses : List (String × Pos)}
    (hc : ∀ c ∈ cleared, p.Grounded c) (reports : ∀ u ∈ uses, Reports p visit bound active u) :
    uses.findSome? (p.resolverBelow bound active).halt? =
      reported (visitUses p visit cleared uses) := by
  induction uses generalizing cleared with
  | nil => rfl
  | cons u rest ih =>
    obtain ⟨here, later⟩ := List.forall_mem_cons.mp reports
    rw [List.findSome?_cons, visitUses, Resolver.halt?, Program.resolverBelow]
    cases hd : p.inlines.get? u.1 with
    | none => exact ih hc later
    | some d =>
      have same := here hc hd
      have name := own hd
      dsimp only [Option.map_some, Option.bind_some]
      rw [same]
      cases hv : visit cleared d u.2 with
      | error c => rfl
      | ok cleared' => exact ih (clears (name ▸ hd) hc hv).2 later

/-- A visit reports what stops the expansion of the inline below the same path. The induction is on
the bound of the visit; expansion has a bound of its own. -/
theorem refusal_eq_reported (own : p.OwnNames) (bodied : p.Bodied) {fuel bound : Nat}
    {active cleared : List String} {d : Routine} (hd : p.inlines.get? d.name = some d)
    (path : p.Path fuel active) (room : p.Path bound active)
    (chain : ∀ a ∈ active, Relation.TransGen p.Refers a d.name)
    (hc : ∀ c ∈ cleared, p.Grounded c) (pos : Pos) :
    refusal (expandInline p bound active d pos) =
      reported (visitInline p fuel active cleared d pos) := by
  induction fuel generalizing bound active cleared d pos with
  | zero => exact absurd path.fuel_pos (Nat.lt_irrefl 0)
  | succ fuel ih =>
    obtain ⟨bound, rfl⟩ : ∃ b, bound = b + 1 := ⟨bound - 1, by have := room.fuel_pos; omega⟩
    by_cases again : d.name ∈ active
    · simp [visitInline, expandInline, again, refusal, reported]
    · by_cases old : d.name ∈ cleared
      · rw [expandInline_of_grounded own bodied hd (hc _ old) room chain]
        simp [visitInline, again, old, refusal, reported]
      · have known : (p.inlines.get? d.name).isSome := by simp [hd]
        have deeper := path.extend again known
        have reports : ∀ u ∈ d.body.uses,
            Reports p (visitInline p fuel (active ++ [d.name])) bound (active ++ [d.name]) u := by
          intro u hu cleared' e hc' he
          have name := own he
          have refers : p.Refers d.name e.name := by
            refine ⟨d, u.2, hd, ?_, by simp [name, he]⟩
            rw [name]
            exact hu
          refine ih (name ▸ he) deeper (room.extend again known) ?_ hc' u.2
          intro a ha
          rcases List.mem_append.mp ha with ha | ha
          · exact (chain a ha).tail refers
          · rw [List.mem_singleton.mp ha]
            exact .single refers
        rw [refusal_expandInline again (bodied hd),
          findSome?_reported own (visitInline_grounded own deeper) hc reports]
        simp only [visitInline, List.contains_eq_mem, again, old, decide_false, Bool.false_eq_true,
          if_false]
        cases visitUses p (visitInline p fuel (active ++ [d.name])) cleared d.body.uses <;> rfl

/-- A visit that begins here reports what stops the expansion of the inline, under whatever bound
beyond the number of inlines. -/
theorem refusal_eq_reported_fresh (own : p.OwnNames) (bodied : p.Bodied) {d : Routine}
    (hd : p.inlines.get? d.name = some d) (pos : Pos) {bound : Nat} (h : p.inlines.size < bound) :
    refusal (expandInline p bound [] d pos) =
      reported (visitInline p (p.inlines.size + 2) [] [] d pos) := by
  have harmless : ∀ c ∈ ([] : List String), p.Grounded c := by simp
  exact refusal_eq_reported own bodied hd (Program.path_nil (by omega)) (Program.path_nil h)
    (by simp) harmless pos

/-- The bound never cuts expansion short: any other one beyond the number of inlines gives the same
result. -/
theorem expandInline_bound (own : p.OwnNames) (bodied : p.Bodied) {d : Routine}
    (hd : p.inlines.get? d.name = some d) (pos : Pos) {bound : Nat} (h : p.inlines.size < bound) :
    expandInline p bound [] d pos = expandInline p (p.inlines.size + 1) [] d pos := by
  have least : p.inlines.size < p.inlines.size + 1 := Nat.lt_succ_self _
  have here := refusal_eq_reported_fresh own bodied hd pos h
  have there := refusal_eq_reported_fresh own bodied hd pos least
  cases hv : visitInline p (p.inlines.size + 2) [] [] d pos with
  | ok cleared =>
    have path : p.Path (p.inlines.size + 2) [] := Program.path_nil (by omega)
    have ends := (visitInline_grounded own path hd (by simp) hv).1
    rw [expandInline_of_grounded own bodied hd ends (Program.path_nil h) (by simp),
      expandInline_of_grounded own bodied hd ends (Program.path_nil least) (by simp)]
  | error c =>
    rw [hv] at here there
    rw [eq_error_of_refusal here, eq_error_of_refusal there]

/-- A block of one name. -/
def Block.ofName (place : Pos) (name : String) (pos : Pos) : Block :=
  .mk place [.op pos (.ident name)]

theorem expandBlock_ofName {d : Routine} (hd : p.inlines.get? d.name = some d) (place pos : Pos) :
    (p.expandBlock (.ofName place d.name pos)).2 =
      refusal (expandInline p (p.inlines.size + 1) [] d pos) := by
  rw [Program.expandBlock, Block.expand_halt, Option.none_or]
  simp [Block.ofName, Block.uses, Instr.usesList, Instr.uses, Resolver.halt?, Program.resolver, hd]

/-- The search through listed inlines reports what stops the expansion of the first of their names
that cannot be expanded. -/
theorem reported_checkInlines (own : p.OwnNames) (bodied : p.Bodied) (place : Pos)
    {ds : List Routine} (found : ∀ d ∈ ds, p.inlines.get? d.name = some d) :
    reported (checkInlines p ds) =
      ds.findSome? fun d => (p.expandBlock (.ofName place d.name d.namePos)).2 := by
  induction ds with
  | nil => rfl
  | cons d rest ih =>
    obtain ⟨here, later⟩ := List.forall_mem_cons.mp found
    rw [List.findSome?_cons, expandBlock_ofName here,
      refusal_eq_reported_fresh own bodied here d.namePos (Nat.lt_succ_self _), checkInlines]
    cases visitInline p (p.inlines.size + 2) [] [] d d.namePos with
    | ok => exact ih later
    | error c => rfl

theorem Program.Coherent.bodied (h : p.Coherent) (valid : ∀ d ∈ p.decls, d.Valid p false) :
    p.Bodied :=
  fun hd => (valid _ (h.inline_iff.mp hd).1).1

/-- The search for cycles and expansion agree. Where every inline stands under its own name and has
a body, a visit of an inline fails exactly when its name cannot be expanded at that place, and with
the same cycle; expansion comes to its end by itself, whatever bound is set on it. In a program that
breaks no rule the search reports what stops the first listed inline whose name cannot be
expanded. -/
theorem search_agrees_with_expansion (p : Program) :
    (p.OwnNames → p.Bodied → ∀ name d, p.inlines.get? name = some d → ∀ place pos,
      (p.expandBlock (.ofName place d.name pos)).2 =
        reported (visitInline p (p.inlines.size + 2) [] [] d pos) ∧
      ∀ bound, p.inlines.size < bound →
        expandInline p bound [] d pos = expandInline p (p.inlines.size + 1) [] d pos) ∧
    (p.violations false = [] → ∀ place, reported p.checkCycles =
      p.inlineList.findSome? fun d => (p.expandBlock (.ofName place d.name d.namePos)).2) := by
  constructor
  · intro own bodied name d hd place pos
    rw [← own hd] at hd
    refine ⟨?_, fun bound h => expandInline_bound own bodied hd pos h⟩
    rw [expandBlock_ofName hd]
    exact refusal_eq_reported_fresh own bodied hd pos (Nat.lt_succ_self _)
  · intro hv place
    obtain ⟨_, h, valid⟩ := Program.violations_eq_nil_iff.mp hv
    refine reported_checkInlines h.ownNames (h.bodied valid) place ?_
    intro d hd
    exact h.inline_iff.mpr ⟨Program.mem_inlineList.mp hd, rfl⟩

/-- A program whose entry procedure uses a harmless inline. Another inline uses that one and a third
one, which uses itself in the condition of a loop; no procedure leads there. -/
def stranded : Program :=
  let name (line : Nat) (s : String) : Instr := .op ⟨"", line, 1⟩ (.ident s)
  let block (xs : List Instr) : Block := .mk default xs
  let routine (s : String) (xs : List Instr) : Routine :=
    { name := s, pos := default, namePos := default, body := block xs }
  let leaf := routine "leaf" []
  let lead := routine "lead" [name 1 "knot", name 2 "leaf"]
  let knot := routine "knot" [.loop default (block [name 3 "knot"]) (block [])]
  let main := routine Source.entryPoint [name 4 "leaf", .op default .ret]
  (((({ file := "" } : Program).insert (.inline leaf)).insert (.inline lead)).insert
    (.inline knot)).insert (.proc main)

theorem stranded_search_agrees :
    stranded.OwnNames ∧ stranded.Bodied ∧ stranded.violations false = [] ∧
      (∃ d, stranded.inlines.get? "lead" = some d ∧ ∀ place pos,
        (stranded.expandBlock (.ofName place d.name pos)).2 =
          some (.cycle ⟨⟨"", 3, 1⟩, ["knot"]⟩)) ∧
      reported stranded.checkCycles = stranded.inlineList.findSome? fun d =>
        (stranded.expandBlock (.ofName default d.name d.namePos)).2 := by
  have rules : stranded.violations false = [] := by cbv
  obtain ⟨_, h, valid⟩ := Program.violations_eq_nil_iff.mp rules
  obtain ⟨each, first⟩ := search_agrees_with_expansion stranded
  refine ⟨h.ownNames, h.bodied valid, rules, ?_, first rules default⟩
  refine ⟨_, rfl, fun place pos => ?_⟩
  rw [(each h.ownNames (h.bodied valid) "lead" _ rfl place pos).1]
  cbv

/-! ### The pass over a program changes all of it or nothing -/

/-- Expansion of a program that breaks no rule fails exactly when inlines lead back to themselves.
What stops it is then a cycle, and the program is as it was: once the search has found no cycle,
no procedure stops expansion any more. -/
theorem expansion_all_or_nothing (hv : p.violations false = []) :
    ((∃ h, p.expandInlines.2 = some h) ↔ ¬ p.Acyclic) ∧
      (∀ h, p.expandInlines.2 = some h → (∃ c, h = .cycle c) ∧ p.expandInlines.1 = p) ∧
      (p.checkCycles = .ok () → (expandProcs p p.procDecls).2 = none) := by
  obtain ⟨_, h, valid⟩ := Program.violations_eq_nil_iff.mp hv
  cases hc : p.checkCycles with
  | error c =>
    have stopped : p.expandInlines = (p, some (.cycle c)) := by simp [Program.expandInlines, hc]
    have cyclic : ¬ p.Acyclic := (h.cycle_genuine hc).not_acyclic
    rw [stopped]
    simp [cyclic]
  | ok u =>
    cases u
    have done := h.expandInlines_eq (h.expandable hc valid) hc
    have loop : p.expandInlines = expandProcs p p.procDecls := by simp [Program.expandInlines, hc]
    have acyclic : p.Acyclic := h.checkCycles_eq_ok_iff.mp hc
    rw [← loop, done]
    simp [acyclic]

theorem stranded_unchanged : stranded.violations false = [] ∧ ¬ stranded.Acyclic ∧
    stranded.expandInlines.1 = stranded := by
  have rules : stranded.violations false = [] := by cbv
  have stops : stranded.expandInlines.2 = some (.cycle ⟨⟨"", 3, 1⟩, ["knot"]⟩) := by cbv
  obtain ⟨fails, nothing, _⟩ := expansion_all_or_nothing rules
  exact ⟨rules, fails.mp ⟨_, stops⟩, (nothing _ stops).2⟩

end StackLang
