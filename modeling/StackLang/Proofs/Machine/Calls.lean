import StackLang.Proofs.Machine.Arithmetic
import StackLang.Proofs.Target.Mirror
import StackLang.Proofs.Target.Scoping
/-!
Runs of the processor in which calls are made one by one: a call puts the address of the next line
on the stack, and the lines of the routine follow. Along with a run go the calls of procedures that
have not come back. What has no part in them leaves the index of the return stack alone.
-/

namespace StackLang.Target

open Line

/-- One line, a call being a jump that leaves the address of the next line on the stack. -/
def Processor.stepInto (w : Platform) (prog : List Line) (m : Processor) : Option Move :=
  match prog[m.pc]? with
  | some (.inst (.call s)) => (m.pushed (w.code (m.pc + 1))).jumpTo (labelLine? prog s)
  | _ => m.step w prog

/-- The calls that have not come back after a line, the latest first, each as the line behind it. A
call is a jump to a procedure with a label behind it; jumps to addresses are returns. -/
def outstanding (prog : List Line) (pc : Nat) (calls : List Nat) : List Nat :=
  match prog[pc]?, prog[pc + 1]? with
  -- the jump to the entry procedure has no label behind it
  | some (.inst (.jump (.proc _))), some (.label _) => (pc + 1) :: calls
  | some (.inst (.jumpReg _)), _ => calls.tail
  | _, _ => calls

def Line.writesByName : Line → Bool
  | .inst (.binary _ (.mem (.symbol _)) _) | .inst (.binary _ (.mem (.symbolSlot ..)) _) => true
  | _ => false

/-- A step leaves the return stack as it is, unless the line names the place it writes to: neither
the data stack, nor an address that the program computes, nor the system leads there. -/
def Spares (w : Platform) (prog : List Line) (depth : Nat) (m m' : Processor) : Prop :=
  (prog[m.pc]?.any Line.writesByName) = false → ∀ k ≤ depth, m'.slot w k = m.slot w k

/-- A step that keeps to this, with the calls that are outstanding before and after it. -/
structure Proceeds (w : Platform) (prog : List Line) (depth : Nat) (m : Processor)
    (calls : List Nat) (m' : Processor) (calls' : List Nat) : Prop where
  step : m.stepInto w prog = some (.runs m')
  spares : Spares w prog depth m m'
  calls_eq : calls' = outstanding prog m.pc calls

/-- Runs of a number of such steps. -/
inductive Runs (w : Platform) (prog : List Line) (depth : Nat) (m₀ : Processor) :
    Nat → Processor → List Nat → Prop
  | start : Runs w prog depth m₀ 0 m₀ []
  | next {n : Nat} {m m' : Processor} {calls calls' : List Nat} : Runs w prog depth m₀ n m calls →
      Proceeds w prog depth m calls m' calls' → Runs w prog depth m₀ (n + 1) m' calls'

instance {w : Platform} {prog : List Line} {depth : Nat} {m m' : Processor} :
    Decidable (Spares w prog depth m m') :=
  inferInstanceAs (Decidable (_ → ∀ k ≤ depth, _))

/-- The end of a run of a number of steps, if there is one. -/
def follow (w : Platform) (prog : List Line) (depth : Nat) (m₀ : Processor) :
    Nat → Option (Processor × List Nat)
  | 0 => some (m₀, [])
  | n + 1 =>
    match follow w prog depth m₀ n with
    | none => none
    | some (m, calls) =>
      match m.stepInto w prog with
      | some (.runs m') =>
        if Spares w prog depth m m' then some (m', outstanding prog m.pc calls) else none
      | _ => none

theorem runs_of_follow {w : Platform} {prog : List Line} {depth : Nat} {m₀ m : Processor} {n : Nat}
    {calls : List Nat} (h : follow w prog depth m₀ n = some (m, calls)) :
    Runs w prog depth m₀ n m calls := by
  induction n generalizing m calls with
  | zero =>
    cases h
    exact .start
  | succ n ih =>
    rw [follow] at h
    split at h
    next => cases h
    next before =>
      split at h
      next step =>
        split at h
        next spares =>
          cases h
          exact (ih before).next ⟨step, spares, rfl⟩
        next => cases h
      next => cases h

/-! ### Lines that have no part in calls -/

/-- The symbols that calls and returns use. -/
def Symbol.isGuarded : Symbol → Bool
  | .returnStack | .stackUnderflow | .stackOverflow => true
  | _ => false

def Operand.isInert : Operand → Bool
  | .reg r | .part r _ => r ≠ .r13
  | .mem (.symbol _) | .mem (.symbolSlot ..) | .sized _ (.symbol _) | .sized _ (.symbolSlot ..) =>
    false
  | _ => true

def Inst.sparesIndex : Inst → Bool
  | .binary _ target _ => target.isInert
  | .unary _ r | .set _ r | .lea r _ | .leaRel r _ => r ≠ .r13
  | .jumpReg _ => false
  | .jump (.proc _) => false
  | _ => true

/-- Lines that neither belong to calls and returns nor touch what these use. -/
def Line.isInert : Line → Bool
  | .inst i => i.sparesIndex && i.mentions.all fun s => !s.isGuarded
  | .label s => !s.isGuarded
  | _ => false

namespace Processor

variable {w : Platform} {prog : List Line} {m m' m'' : Processor} {i : Inst} {l : Line}

theorem stepInto_eq (h : prog[m.pc]? = some l) (other : ∀ s, l ≠ .inst (.call s)) :
    m.stepInto w prog = m.step w prog := by
  unfold stepInto
  split
  next s hs =>
    rw [h, Option.some.injEq] at hs
    exact absurd hs (other s)
  next => rfl

theorem write_index {size : Size} {v : Word} {o : Operand} (inert : o.isInert = true)
    (h : m.write w size v o = some m') : m'.regs .r13 = m.regs .r13 := by
  cases o with
  | reg r | part r s =>
    cases h
    have other : Reg.r13 ≠ r := fun same => of_decide_eq_true inert same.symm
    rw [set_regs_of_ne other]
  | _ => cases h <;> rfl

theorem combine_index {f : Word → Word → Word} {target source : Operand}
    (inert : target.isInert = true) (h : m.combine w f target source = some m') :
    m'.regs .r13 = m.regs .r13 := by
  obtain ⟨size, _, h⟩ := Option.bind_eq_some_iff.mp h
  split at h
  · obtain ⟨mid, hw, rfl⟩ := Option.map_eq_some_iff.mp h
    rw [mixed_regs]
    exact write_index inert hw
  · cases h

theorem comparison_index {f : Word → Word → Flags} {target source : Operand}
    (h : m.comparison w f target source = some m') : m'.regs .r13 = m.regs .r13 := by
  unfold comparison at h
  split at h <;> cases h
  rfl

theorem binary_index {op : Binary} {target source : Operand} (inert : target.isInert = true)
    (h : m.binary w op target source = some m') : m'.regs .r13 = m.regs .r13 := by
  cases op <;> rw [binary] at h
  case mov | movzx =>
    obtain ⟨size, _, h⟩ := Option.bind_eq_some_iff.mp h
    exact write_index inert h
  case cmp | test => exact comparison_index h
  all_goals exact combine_index inert h

theorem unary_index {op : Unary} {r : Reg} (other : Reg.r13 ≠ r) (h : m.unary op r = some m') :
    m'.regs .r13 = m.regs .r13 := by
  cases op with
  | div =>
    simp only [unary, divide] at h
    split at h <;> cases h
    rfl
  | idiv =>
    simp only [unary, divideSigned] at h
    split at h <;> cases h
    rfl
  | pop =>
    cases h
    exact popped_regs_of_ne other (by decide)
  | _ =>
    cases h
    rw [mixed_regs, set_regs_of_ne other]

theorem effect_index (inert : i.sparesIndex = true) (h : m.effect w prog i = some m') :
    m'.regs .r13 = m.regs .r13 := by
  cases i with
  | binary op target source => exact binary_index inert h
  | unary op r =>
    have other : Reg.r13 ≠ r := fun same => of_decide_eq_true inert same.symm
    exact unary_index other h
  | nullary op => cases op <;> cases h <;> rfl
  | push source =>
    obtain ⟨v, _, rfl⟩ := Option.map_eq_some_iff.mp h
    rfl
  | set c r =>
    obtain ⟨f, _, rfl⟩ := Option.map_eq_some_iff.mp h
    have other : Reg.r13 ≠ r := fun same => of_decide_eq_true inert same.symm
    rw [set_regs_of_ne other]
  | lea r a | leaRel r s =>
    cases h
    have other : Reg.r13 ≠ r := fun same => of_decide_eq_true inert same.symm
    rw [set_regs_of_ne other]
  | _ => cases h

/-- A straight way through some lines. -/
inductive Walks (w : Platform) (prog : List Line) : Processor → List Line → Processor → Prop
  | nil {m : Processor} : Walks w prog m [] m
  | inst {m mid m' : Processor} {i : Inst} {rest : List Line} : m.effect w prog i = some mid →
      Walks w prog mid.next rest m' → Walks w prog m (.inst i :: rest) m'
  | label {m m' : Processor} {s : Symbol} {rest : List Line} : Walks w prog m.next rest m' →
      Walks w prog m (.label s :: rest) m'

theorem stepInto_effect (here : prog[m.pc]? = some (.inst i)) (h : m.effect w prog i = some m') :
    m.stepInto w prog = some (.runs m'.next) := by
  have other : ∀ s, Line.inst i ≠ .inst (.call s) := by
    rintro s same
    cases same
    cases h
  rw [stepInto_eq here other, step_inst here, exec_of_effect h]

theorem stepInto_label {s : Symbol} (here : prog[m.pc]? = some (.label s)) :
    m.stepInto w prog = some (.runs m.next) := by
  rw [stepInto_eq here (fun _ h => nomatch h), step_label here]

theorem Walks.advance {rest : List Line} (h : Walks w prog m (l :: rest) m'')
    (here : prog[m.pc]? = some l) (inert : l.isInert = true) :
    ∃ m', m.stepInto w prog = some (.runs m') ∧ m'.pc = m.pc + 1 ∧
      m'.regs .r13 = m.regs .r13 ∧ Walks w prog m' rest m'' := by
  cases h with
  | @inst _ mid _ i _ effect later =>
    obtain ⟨spares, _⟩ := Bool.and_eq_true_iff.mp inert
    have index : mid.regs .r13 = m.regs .r13 := effect_index spares effect
    exact ⟨mid.next, stepInto_effect here effect, congrArg (· + 1) (effect_pc effect), index, later⟩
  | label later => exact ⟨m.next, stepInto_label here, rfl, rfl, later⟩

theorem Walks.append {first second : List Line} (h : Walks w prog m first m')
    (h' : Walks w prog m' second m'') : Walks w prog m (first ++ second) m'' := by
  induction h with
  | nil => exact h'
  | inst effect _ ih => exact .inst effect (ih h')
  | label _ ih => exact .label (ih h')

theorem Walks.pc {code : List Line} (h : Walks w prog m code m') :
    m'.pc = m.pc + code.length := by
  induction h with
  | nil => rfl
  | inst effect _ ih =>
    rw [ih, next_pc, effect_pc effect, List.length_cons]
    omega
  | label _ ih =>
    rw [ih, next_pc, List.length_cons]
    omega

theorem stepInto_jumpIf_eq {c : Cond} {s : Symbol}
    (here : prog[m.pc]? = some (.inst (.jumpIf c s))) :
    m.stepInto w prog = m.exec w prog (.jumpIf c s) := by
  rw [stepInto_eq here (fun _ h => nomatch h), step_inst here]

theorem stepInto_jumpIf {c : Cond} {s : Symbol} (here : prog[m.pc]? = some (.inst (.jumpIf c s)))
    (h : m.stepInto w prog = some (.runs m')) : ∃ f, m.flags = some f ∧
      ((f.holds c = false ∧ m' = m.next) ∨
        f.holds c = true ∧ ∃ j, labelLine? prog s = some j ∧ m' = { m with pc := j }) := by
  rw [stepInto_jumpIf_eq here, exec] at h
  obtain ⟨f, flags, h⟩ := Option.bind_eq_some_iff.mp h
  refine ⟨f, flags, ?_⟩
  split at h
  next holds =>
    obtain ⟨j, hj, moved⟩ := Option.map_eq_some_iff.mp h
    cases moved
    exact .inr ⟨holds, j, hj, rfl⟩
  next holds =>
    cases h
    exact .inl ⟨by simpa using holds, rfl⟩

theorem stepInto_jump {s : Symbol} (here : prog[m.pc]? = some (.inst (.jump s)))
    (h : m.stepInto w prog = some (.runs m')) :
    ∃ j, labelLine? prog s = some j ∧ m' = { m with pc := j } := by
  rw [stepInto_eq here (fun _ h => nomatch h), step_inst here, exec] at h
  obtain ⟨j, hj, moved⟩ := Option.map_eq_some_iff.mp h
  cases moved
  exact ⟨j, hj, rfl⟩

theorem stepInto_syscall (here : prog[m.pc]? = some (.inst (.nullary .syscall)))
    (h : m.stepInto w prog = some (.runs m')) : ∃ value writes,
      w.kernel m.trace.length (argumentRegs.map m.regs) m.ram = .returns value writes ∧
      m' = { ((m.set .rcx (w.code (m.pc + 1))).set .rax value).mixed with
        ram := m.ram.patch writes
        trace := m.trace ++ [.syscall (argumentRegs.map m.regs) m.ram]
        pc := m.pc + 1 } := by
  rw [stepInto_eq here (fun _ h => nomatch h), step_inst here, exec, syscall] at h
  dsimp only at h
  split at h
  next => cases h
  next value writes answer =>
    cases h
    exact ⟨value, writes, answer, rfl⟩

end Processor

/-! ### Where code stands -/

theorem CodeAt.getElem? {prog code : List Line} {pc j : Nat} {l : Line} (h : CodeAt prog pc code)
    (hl : code[j]? = some l) : prog[pc + j]? = some l := by
  induction code generalizing pc j with
  | nil => cases hl
  | cons x rest ih =>
    cases j with
    | zero =>
      cases hl
      exact h.1
    | succ j =>
      have later := ih h.2 hl
      rwa [Nat.add_assoc, Nat.add_comm 1] at later

theorem CodeAt.slice {prog code : List Line} {pc : Nat} (h : CodeAt prog pc code) (j n : Nat) :
    CodeAt prog (pc + j) ((code.drop j).take n) := by
  induction code generalizing pc j n with
  | nil => simp [CodeAt]
  | cons x rest ih =>
    cases j with
    | zero =>
      cases n with
      | zero => trivial
      | succ n => exact ⟨h.1, ih h.2 0 n⟩
    | succ j =>
      have later := ih h.2 j n
      rwa [Nat.add_assoc, Nat.add_comm 1] at later

/-- The processor on a straight way to a stop, past lines that have no part in calls. -/
def Heading (w : Platform) (prog : List Line) (Stop : Processor → Prop) (m : Processor) : Prop :=
  ∃ code m', CodeAt prog m.pc code ∧ code.all Line.isInert = true ∧
    Processor.Walks w prog m code m' ∧ Stop m'

namespace Heading

variable {w : Platform} {prog : List Line} {Stop : Processor → Prop} {m m' : Processor}

theorem stop (h : Stop m) : Heading w prog Stop m :=
  ⟨[], m, trivial, rfl, .nil, h⟩

theorem before {code : List Line} (placed : CodeAt prog m.pc code)
    (inert : code.all Line.isInert = true) (walks : Processor.Walks w prog m code m')
    (h : Heading w prog Stop m') : Heading w prog Stop m := by
  obtain ⟨code', m'', placed', inert', walks', stop⟩ := h
  rw [walks.pc] at placed'
  refine ⟨code ++ code', m'', codeAt_append.mpr ⟨placed, placed'⟩, ?_, walks.append walks', stop⟩
  rw [List.all_append, inert, inert']
  rfl

theorem step (h : Heading w prog Stop m) : Stop m ∨ ∃ l m', prog[m.pc]? = some l ∧
    l.isInert = true ∧ m.stepInto w prog = some (.runs m') ∧ m'.regs .r13 = m.regs .r13 ∧
      Heading w prog Stop m' := by
  obtain ⟨code, m'', placed, inert, walks, stop⟩ := h
  cases code with
  | nil =>
    cases walks
    exact .inl stop
  | cons l rest =>
    obtain ⟨here, later⟩ := placed
    obtain ⟨quiet, inert⟩ := Bool.and_eq_true_iff.mp inert
    obtain ⟨m₁, step, place, index, walks⟩ := walks.advance here quiet
    exact .inr ⟨l, m₁, here, quiet, step, index, rest, m'', place ▸ later, inert, walks, stop⟩

end Heading

/-- Only jumps to procedures and to addresses change which calls are outstanding. -/
theorem outstanding_eq {prog : List Line} {pc : Nat} {l : Line} (here : prog[pc]? = some l)
    (noCall : ∀ name, l ≠ .inst (.jump (.proc name))) (noReturn : ∀ r, l ≠ .inst (.jumpReg r))
    (calls : List Nat) : outstanding prog pc calls = calls := by
  unfold outstanding
  split
  next h _ =>
    rw [here, Option.some.injEq] at h
    exact absurd h (noCall _)
  next h =>
    rw [here, Option.some.injEq] at h
    exact absurd h (noReturn _)
  next => rfl

theorem outstanding_inert {prog : List Line} {pc : Nat} {l : Line} (here : prog[pc]? = some l)
    (inert : l.isInert = true) (calls : List Nat) : outstanding prog pc calls = calls := by
  refine outstanding_eq here ?_ ?_ calls
  · rintro name rfl
    cases inert
  · rintro r rfl
    cases inert

theorem Processor.slot_of_ram {w : Platform} {m m' : Processor} (same : m'.ram = m.ram) (k : Nat) :
    m'.slot w k = m.slot w k := by
  rw [slot, slot, same]

section

variable {w : Platform} {prog : List Line} {depth : Nat} {m m' m'' : Processor}
  {calls calls' calls'' : List Nat} {l : Line}

theorem Proceeds.det (h : Proceeds w prog depth m calls m' calls')
    (h' : Proceeds w prog depth m calls m'' calls'') : m' = m'' ∧ calls' = calls'' := by
  have same := h.step.symm.trans h'.step
  cases same
  exact ⟨rfl, h.calls_eq.trans h'.calls_eq.symm⟩

theorem Proceeds.of_ram (here : prog[m.pc]? = some l)
    (noCall : ∀ name, l ≠ .inst (.jump (.proc name))) (noReturn : ∀ r, l ≠ .inst (.jumpReg r))
    (step : m.stepInto w prog = some (.runs m')) (same : m'.ram = m.ram) :
    Proceeds w prog depth m calls m' calls where
  step := step
  spares := fun _ k _ => Processor.slot_of_ram same k
  calls_eq := (outstanding_eq here noCall noReturn calls).symm

theorem Proceeds.of_jumpIf {c : Cond} {s : Symbol}
    (here : prog[m.pc]? = some (.inst (.jumpIf c s))) (step : m.stepInto w prog = some (.runs m'))
    (same : m'.ram = m.ram) : Proceeds w prog depth m calls m' calls := by
  refine .of_ram here ?_ ?_ step same
  · rintro name ⟨⟩
  · rintro r ⟨⟩

theorem Proceeds.of_effect {i : Inst} (here : prog[m.pc]? = some (.inst i))
    (effect : m.effect w prog i = some m') (same : m'.ram = m.ram) :
    Proceeds w prog depth m calls m'.next calls := by
  -- jumps have no effect in this sense
  refine .of_ram here ?_ ?_ (Processor.stepInto_effect here effect) same
  · rintro name ⟨⟩
    cases effect
  · rintro r ⟨⟩
    cases effect

end

theorem Spares.of_inert {w : Platform} {prog : List Line} {depth : Nat} {m m' : Processor}
    {l : Line} (h : Spares w prog depth m m') (here : prog[m.pc]? = some l)
    (inert : l.isInert = true) : ∀ k ≤ depth, m'.slot w k = m.slot w k := by
  refine h ?_
  rw [here]
  unfold Line.isInert Inst.sparesIndex Operand.isInert at inert
  change l.writesByName = false
  unfold Line.writesByName
  split <;> simp_all

end StackLang.Target
