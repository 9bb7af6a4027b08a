import StackLang.Proofs.Target.Assembled
import StackLang.Proofs.Target.Pieces
import StackLang.Proofs.Machine.Calls
/-!
The bodies of procedures where they stand in a whole program. A place inside a body is one from
which the rest of the body is in pieces; what stands there is a return, a call, or a plain line, and
the lines that can follow are inside the same body.
-/

namespace StackLang.Target

open Line

/-- The symbols on labels can be found in code made of pieces, and pieces follow them. -/
theorem Pieces.split_label {ctx : Context} {n : Nat} {code : List Line} (h : Pieces ctx n code)
    {x : Symbol} (hx : x ∈ labels code) :
    ∃ before rest, code = before ++ label x :: rest ∧ Pieces ctx n (label x :: rest) := by
  induction h with
  | nil => cases hx
  | @plain l rest hl later ih =>
    by_cases here : l = label x
    · subst here
      exact ⟨[], rest, rfl, .plain hl later⟩
    · have hx : x ∈ labels rest := by
        rw [mem_labels, List.mem_cons] at hx
        exact mem_labels.mpr (hx.resolve_left fun same => here same.symm)
      obtain ⟨before, after, rfl, pieces⟩ := ih hx
      exact ⟨l :: before, after, rfl, pieces⟩
  | @call name back rest known later ih =>
    rw [labels_append, List.mem_append] at hx
    rcases hx with hx | hx
    · have same : x = .label back := by simpa [callLines] using hx
      subst same
      exact ⟨(callLines ctx.depth name (.label back)).take 6, rest, rfl, .plain rfl later⟩
    · obtain ⟨before, after, rfl, pieces⟩ := ih hx
      exact ⟨callLines ctx.depth name (.label back) ++ before, after, by simp, pieces⟩
  | leave later ih =>
    have none : labels (returnLines ctx.proc) = [] := by
      unfold returnLines
      split <;> rfl
    rw [labels_append, none, List.nil_append] at hx
    obtain ⟨before, after, rfl, pieces⟩ := ih hx
    exact ⟨returnLines ctx.proc ++ before, after, by simp, pieces⟩

section

variable (p : Program) (s : Settings) (lines : List Line) (strings : Nat)

/-- The body of a procedure as it stands in the program, without its last return. -/
structure Stands (proc : String) (start : Nat) (front : List Line) : Prop where
  entry : lines[start]? = some (.label (.proc proc))
  code : CodeAt lines (start + 1) (front ++ returnLines proc)
  fragment : Fragment ⟨p, s.actualDepth, false, proc⟩ strings [] front

/-- A place in the body of a procedure at which a piece begins. -/
def Inside (proc : String) (pc : Nat) : Prop :=
  ∃ start before rest, Stands p s lines strings proc start (before ++ rest) ∧
    Pieces ⟨p, s.actualDepth, false, proc⟩ strings rest ∧ pc = start + 1 + before.length

end

variable {p : Program} {s : Settings} {lines code : List Line} {pool : Pool} {n : Nat}
  {proc : String} {pc : Nat}

theorem Assembled.stands (a : Assembled p s lines code pool) (rules : p.violations true = [])
    {r : Routine} (hr : p.procs.get? proc = some r) :
    ∃ start front, Stands p s lines pool.strings.length proc start front := by
  obtain ⟨listed, rfl⟩ := a.coherent.proc_iff.mp hr
  obtain ⟨_, _, valid⟩ := Program.violations_eq_nil_iff.mp rules
  obtain ⟨_, last, body⟩ := valid _ listed
  obtain ⟨start, lowered, mid, mid', entry, placed, made, grows⟩ := a.proc_code hr
  have flat : Context.Flat ⟨p, s.actualDepth, false, r.name⟩ :=
    ⟨rfl, fun _ region => a.coherent.not_proc_of_memory region⟩
  obtain ⟨serial, name, pos, namePos, block⟩ := r
  cases block with
  | absent => cases last
  | mk q xs =>
    obtain ⟨ys, y, rfl⟩ : ∃ ys y, xs = ys ++ [y] := by
      rcases List.eq_nil_or_concat' xs with rfl | split
      · cases last
      · exact split
    -- the last instruction is a return, and what comes before it is made of pieces
    have ret : y.isReturn = true := by simpa [Block.lastIsReturn, Block.instrs] using last
    obtain ⟨at', rfl⟩ : ∃ at', y = .op at' .ret := by
      cases y with
      | op at' o => cases o <;> first | exact ⟨at', rfl⟩ | cases ret
      | _ => cases ret
    change listLines _ _ (ys ++ [.op at' .ret]) mid = _ at made
    rw [listLines_append] at made
    obtain ⟨front, mid₁, hf, made⟩ := lowering_bind_eq_ok.mp made
    obtain ⟨back, mid₂, hb, made⟩ := lowering_bind_eq_ok.mp made
    obtain ⟨rfl, rfl⟩ := lowering_pure_eq_ok.mp made
    have final : back = returnLines name ∧ mid₁ = mid₂ := by
      rw [listLines_singleton, instrLines_op (by simp)] at hb
      obtain ⟨lines', mid₃, ho, hb⟩ := lowering_bind_eq_ok.mp hb
      obtain ⟨rfl, rfl⟩ := lowering_pure_eq_ok.mp ho
      obtain ⟨rfl, rfl⟩ := lowering_pure_eq_ok.mp hb
      exact ⟨rfl, rfl⟩
    obtain ⟨rfl, rfl⟩ := final
    have laid := lays_listLines flat ys (Instr.validList_append.mp body).1 hf
    exact ⟨start, front, entry, placed, laid.fragment.mono grows.length_le (List.Subset.refl _)⟩

theorem Stands.inside {start : Nat} {front : List Line} (h : Stands p s lines n proc start front) :
    Inside p s lines n proc (start + 1) :=
  ⟨start, [], front, h, h.fragment.pieces, rfl⟩

/-- A local label that a body mentions stands in it. -/
theorem Stands.inside_label {start : Nat} {front : List Line} (nodup : (labels lines).Nodup)
    (h : Stands p s lines n proc start front) {x : Symbol} (hx : x ∈ mentions front)
    (near : x.isLocal = true) {j : Nat} (found : labelLine? lines x = some j) :
    Inside p s lines n proc j := by
  have own : x ∈ labels front := (h.fragment.closed x hx near).resolve_right (by simp)
  obtain ⟨before, rest, rfl, pieces⟩ := h.fragment.pieces.split_label own
  have placed := h.code
  rw [List.append_assoc] at placed
  have here := (codeAt_append.mp placed).2.1
  rw [labelLine?_eq nodup here, Option.some.injEq] at found
  exact ⟨start, before, label x :: rest, h, pieces, found.symm⟩

theorem Inside.cases (nodup : (labels lines).Nodup) (h : Inside p s lines n proc pc) :
    CodeAt lines pc (returnLines proc) ∨
    (∃ l next, lines[pc]? = some l ∧ lines[pc + 1]? = some next ∧ l.isPlain p n = true ∧
      Inside p s lines n proc (pc + 1) ∧
      ∀ x ∈ l.mentions, x.isLocal = true → ∀ j, labelLine? lines x = some j →
        Inside p s lines n proc j) ∨
    ∃ name back, p.procs.contains name = true ∧
      CodeAt lines pc (callLines s.actualDepth name (.label back)) ∧
      Inside p s lines n proc (pc + 6) := by
  obtain ⟨start, before, rest, stands, pieces, rfl⟩ := h
  have placed := stands.code
  rw [List.append_assoc] at placed
  have here := (codeAt_append.mp placed).2
  cases pieces with
  | nil => exact .inl here
  | @plain l rest plain later =>
    have shifted : Stands p s lines n proc start (before ++ [l] ++ rest) := by simpa using stands
    obtain ⟨first, others⟩ := here
    obtain ⟨next, follows⟩ : ∃ next, lines[start + 1 + before.length + 1]? = some next := by
      cases rest with
      | cons next rest => exact ⟨next, others.1⟩
      | nil =>
        unfold returnLines at others
        split at others <;> exact ⟨_, others.1⟩
    refine .inr (.inl ⟨l, next, first, follows, plain, ?_, ?_⟩)
    · exact ⟨start, before ++ [l], rest, shifted, later, by simp; omega⟩
    · intro x hx near j found
      refine stands.inside_label nodup ?_ near found
      rw [mentions_append]
      exact List.mem_append_right _ (mem_mentions.mpr ⟨l, List.mem_cons_self, hx⟩)
  | @call name back rest known later =>
    refine .inr (.inr ⟨name, back, known, ?_, ?_⟩)
    -- the label behind the call is a piece of its own
    · rw [List.append_assoc] at here
      exact (codeAt_append.mp here).1
    · refine ⟨start, before ++ (callLines s.actualDepth name (.label back)).take 6,
        label (.label back) :: rest, ?_, .plain rfl later, ?_⟩
      · have whole : before ++ (callLines s.actualDepth name (.label back)).take 6 ++
            label (.label back) :: rest =
            before ++ (callLines s.actualDepth name (.label back) ++ rest) := by
          simp [callLines]
        rw [whole]
        exact stands
      · simp [callLines]
        omega
  | leave later =>
    rw [List.append_assoc] at here
    exact .inl (codeAt_append.mp here).1

/-! ### Plain lines -/

theorem Symbol.isGuarded_of_isPlain {x : Symbol} (h : x.isPlain p n = true) :
    x.isGuarded = false := by
  cases x <;> first | rfl | cases h

theorem Inst.sparesIndex_of_isPlain {i : Inst} (h : i.isPlain = true) : i.sparesIndex = true := by
  cases i with
  | binary op target source =>
    have plain := (Bool.and_eq_true_iff.mp h).1
    cases target with
    | sized size a => cases a <;> first | rfl | cases plain
    | reg | part => exact plain
    | _ => cases plain
  | jump x => cases x <;> first | rfl | cases h
  | unary | set => exact h
  | lea | leaRel | jumpReg => cases h
  | _ => rfl

theorem Line.isInert_of_isPlain {l : Line} (h : l.isPlain p n = true) : l.isInert = true := by
  cases l with
  | label x => cases x <;> first | rfl | cases h
  | inst i =>
    obtain ⟨plain, known⟩ := Bool.and_eq_true_iff.mp h
    refine Bool.and_eq_true_iff.mpr ⟨Inst.sparesIndex_of_isPlain plain, ?_⟩
    rw [List.all_eq_true]
    intro x hx
    rw [Symbol.isGuarded_of_isPlain (List.all_eq_true.mp known x hx)]
    rfl
  | _ => cases h

/-- Where a plain line leads: to the next line, to a label it mentions, or into the printing
routine. -/
theorem plain_step {w : Platform} {m m' : Processor} {l : Line} (plain : l.isPlain p n = true)
    (here : lines[m.pc]? = some l) (h : m.stepInto w lines = some (.runs m')) :
    m'.regs .r13 = m.regs .r13 ∧ (m'.pc = m.pc + 1 ∨
      (∃ x ∈ l.mentions, x.isLocal = true ∧ labelLine? lines x = some m'.pc) ∨
      l = .inst (.call .printInt) ∧ labelLine? lines .printInt = some m'.pc ∧
        m'.ram.word (m'.regs .rsp) = w.code (m.pc + 1)) := by
  have straight {i : Inst} (hl : l = .inst i) (hp : i.isPlain = true)
      (exec : m.exec w lines i = (m.effect w lines i).map fun m => .runs m.next)
      (other : ∀ x, i ≠ .call x) : m'.regs .r13 = m.regs .r13 ∧ m'.pc = m.pc + 1 := by
    subst hl
    rw [Processor.stepInto_eq here (by simpa using other), Processor.step_inst here, exec] at h
    obtain ⟨mid, effect, moved⟩ := Option.map_eq_some_iff.mp h
    cases moved
    have index : mid.regs .r13 = m.regs .r13 :=
      Processor.effect_index (Inst.sparesIndex_of_isPlain hp) effect
    exact ⟨index, congrArg (· + 1) (Processor.effect_pc effect)⟩
  cases l with
  | label x =>
    rw [Processor.stepInto_label here] at h
    cases h
    exact ⟨rfl, .inl rfl⟩
  | inst i =>
    have hp := (Bool.and_eq_true_iff.mp plain).1
    cases i with
    | jump x =>
      obtain ⟨j, found, rfl⟩ := Processor.stepInto_jump here h
      refine ⟨rfl, .inr (.inl ⟨x, by simp [Line.mentions, Inst.mentions], ?_, found⟩)⟩
      cases x with
      | label k => simp [Symbol.isLocal_eq]
      | _ => cases hp
    | jumpIf c x =>
      obtain ⟨f, _, ⟨_, rfl⟩ | ⟨_, j, found, rfl⟩⟩ := Processor.stepInto_jumpIf here h
      · exact ⟨rfl, .inl rfl⟩
      · refine ⟨rfl, .inr (.inl ⟨x, by simp [Line.mentions, Inst.mentions], ?_, found⟩)⟩
        cases x with
        | label k => simp [Symbol.isLocal_eq]
        | _ => cases hp
    | call x =>
      cases x with
      | printInt =>
        simp only [Processor.stepInto, here] at h
        obtain ⟨j, found, moved⟩ := Option.map_eq_some_iff.mp h
        cases moved
        exact ⟨rfl, .inr (.inr ⟨rfl, found, Ram.word_putWord _ _ _⟩)⟩
      | _ => cases hp
    | nullary op =>
      cases op with
      | syscall =>
        obtain ⟨value, changes, _, rfl⟩ := Processor.stepInto_syscall here h
        exact ⟨rfl, .inl rfl⟩
      | cqo => exact (straight rfl hp rfl (by simp)).imp_right .inl
      | leave | ret => cases hp
    | binary op target source => exact (straight rfl hp rfl (by simp)).imp_right .inl
    | unary op r => exact (straight rfl hp rfl (by simp)).imp_right .inl
    | push source => exact (straight rfl hp rfl (by simp)).imp_right .inl
    | set c r => exact (straight rfl hp rfl (by simp)).imp_right .inl
    | lea | leaRel | jumpReg => cases hp
  | _ => cases plain

end StackLang.Target
