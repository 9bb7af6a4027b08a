import StackLang.Proofs.Machine.Processor
/-!
Runs of the processor: where code stands, what straight pieces of it do, and where jumps go.
-/

namespace StackLang.Target

/-- Some lines stand in a program from a place on. -/
def CodeAt (prog : List Line) : Nat → List Line → Prop
  | _, [] => True
  | pc, l :: rest => prog[pc]? = some l ∧ CodeAt prog (pc + 1) rest

theorem codeAt_append {prog : List Line} {pc : Nat} {first second : List Line} :
    CodeAt prog pc (first ++ second) ↔
      CodeAt prog pc first ∧ CodeAt prog (pc + first.length) second := by
  induction first generalizing pc with
  | nil => simp [CodeAt]
  | cons l rest ih =>
    rw [List.cons_append, CodeAt, CodeAt, ih, List.length_cons, and_assoc, Nat.add_assoc,
      Nat.add_comm 1]

theorem CodeAt.split {prog : List Line} {pc : Nat} (first : List Line) {second : List Line}
    (h : CodeAt prog pc (first ++ second)) :
    CodeAt prog pc first ∧ CodeAt prog (pc + first.length) second :=
  codeAt_append.mp h

theorem codeAt_middle (before code after : List Line) :
    CodeAt (before ++ code ++ after) before.length code := by
  induction code generalizing before with
  | nil => trivial
  | cons l rest ih =>
    refine ⟨by simp, ?_⟩
    simpa using ih (before ++ [l])

/-- The symbols that lines label. -/
def labels (lines : List Line) : List Symbol :=
  lines.filterMap fun
    | .label s => some s
    | _ => none

@[simp] theorem labels_nil : labels [] = [] := rfl

@[simp] theorem labels_append (first second : List Line) :
    labels (first ++ second) = labels first ++ labels second :=
  List.filterMap_append

@[simp] theorem labels_label (s : Symbol) (rest : List Line) :
    labels (.label s :: rest) = s :: labels rest := rfl

@[simp] theorem labels_inst (i : Inst) (rest : List Line) :
    labels (.inst i :: rest) = labels rest := rfl

@[simp] theorem labels_blank (rest : List Line) : labels (.blank :: rest) = labels rest := rfl

theorem mem_labels {lines : List Line} {s : Symbol} : s ∈ labels lines ↔ .label s ∈ lines := by
  unfold labels
  rw [List.mem_filterMap]
  constructor
  · rintro ⟨l, hl, h⟩
    cases l <;> cases h
    exact hl
  · intro h
    exact ⟨_, h, rfl⟩

/-- A label that stands once is found where it stands. -/
theorem labelLine?_eq {prog : List Line} (nodup : (labels prog).Nodup) {i : Nat} {s : Symbol}
    (h : prog[i]? = some (.label s)) : labelLine? prog s = some i := by
  unfold labelLine?
  induction prog generalizing i with
  | nil => simp at h
  | cons l rest ih =>
    rw [List.findIdx?_cons]
    cases i with
    | zero =>
      have hl : l = .label s := by simpa using h
      simp [hl]
    | succ i =>
      rw [List.getElem?_cons_succ] at h
      have hm : s ∈ labels rest := mem_labels.mpr (List.mem_of_getElem? h)
      have hne : l ≠ .label s := by
        rintro rfl
        rw [labels_label] at nodup
        exact (List.nodup_cons.mp nodup).1 hm
      have later : (labels rest).Nodup := by
        cases l with
        | label => exact (List.nodup_cons.mp nodup).2
        | _ => exact nodup
      rw [if_neg (by simpa using hne), ih later h]
      rfl

namespace Processor

variable {w : Platform} {prog : List Line} {m m' m'' : Processor}

section

variable (m : Processor) (r : Reg) (v : Word) (f : Flags) (ram : Ram)

@[simp] theorem set_pc : (m.set r v).pc = m.pc := rfl
@[simp] theorem set_flags : (m.set r v).flags = m.flags := rfl
@[simp] theorem set_ram : (m.set r v).ram = m.ram := rfl
@[simp] theorem set_trace : (m.set r v).trace = m.trace := rfl
@[simp] theorem set_regs_self : (m.set r v).regs r = v := if_pos rfl
@[simp] theorem next_pc : m.next.pc = m.pc + 1 := rfl
@[simp] theorem next_regs : m.next.regs = m.regs := rfl
@[simp] theorem next_flags : m.next.flags = m.flags := rfl
@[simp] theorem next_ram : m.next.ram = m.ram := rfl
@[simp] theorem next_trace : m.next.trace = m.trace := rfl
@[simp] theorem mixed_pc : m.mixed.pc = m.pc := rfl
@[simp] theorem mixed_regs : m.mixed.regs = m.regs := rfl
@[simp] theorem mixed_ram : m.mixed.ram = m.ram := rfl
@[simp] theorem mixed_trace : m.mixed.trace = m.trace := rfl
@[simp] theorem compared_pc : (m.compared f).pc = m.pc := rfl
@[simp] theorem compared_regs : (m.compared f).regs = m.regs := rfl
@[simp] theorem compared_flags : (m.compared f).flags = some f := rfl
@[simp] theorem compared_ram : (m.compared f).ram = m.ram := rfl
@[simp] theorem compared_trace : (m.compared f).trace = m.trace := rfl
@[simp] theorem withRam_pc : (m.withRam ram).pc = m.pc := rfl
@[simp] theorem withRam_regs : (m.withRam ram).regs = m.regs := rfl
@[simp] theorem withRam_ram : (m.withRam ram).ram = ram := rfl
@[simp] theorem withRam_trace : (m.withRam ram).trace = m.trace := rfl
@[simp] theorem popped_pc : (m.popped r).pc = m.pc := rfl
@[simp] theorem popped_ram : (m.popped r).ram = m.ram := rfl
@[simp] theorem popped_trace : (m.popped r).trace = m.trace := rfl
@[simp] theorem pushed_pc : (m.pushed v).pc = m.pc := rfl
@[simp] theorem pushed_ram : (m.pushed v).ram = m.ram.putWord (m.regs .rsp - 8) v := rfl
@[simp] theorem pushed_trace : (m.pushed v).trace = m.trace := rfl

end

@[simp] theorem set_regs_of_ne {r x : Reg} {v : Word} (h : x ≠ r) :
    (m.set r v).regs x = m.regs x :=
  if_neg h

theorem popped_regs_self {r : Reg} : (m.popped r).regs r = m.ram.word (m.regs .rsp) :=
  if_pos rfl

@[simp] theorem popped_regs_of_ne {r x : Reg} (h : x ≠ r) (hs : x ≠ .rsp) :
    (m.popped r).regs x = m.regs x := by
  rw [popped, set_regs_of_ne h, set_regs_of_ne hs]

@[simp] theorem pushed_regs_of_ne {x : Reg} {v : Word} (h : x ≠ .rsp) :
    (m.pushed v).regs x = m.regs x := by
  rw [pushed, withRam_regs, set_regs_of_ne h]

theorem exec_of_effect {i : Inst} (h : m.effect w prog i = some m') :
    m.exec w prog i = some (.runs m'.next) := by
  cases i with
  | nullary op => cases op <;> simp_all [exec, effect]
  | jump | jumpReg | jumpIf | call => simp [effect] at h
  | _ => simp [exec, h]

theorem write_pc {size : Size} {v : Word} {o : Operand} (h : m.write w size v o = some m') :
    m'.pc = m.pc := by
  cases o <;> cases h <;> rfl

theorem combine_pc {f : Word → Word → Word} {target source : Operand}
    (h : m.combine w f target source = some m') : m'.pc = m.pc := by
  obtain ⟨size, _, h⟩ := Option.bind_eq_some_iff.mp h
  split at h
  · obtain ⟨mid, hw, rfl⟩ := Option.map_eq_some_iff.mp h
    rw [mixed_pc]
    exact write_pc hw
  · cases h

theorem comparison_pc {f : Word → Word → Flags} {target source : Operand}
    (h : m.comparison w f target source = some m') : m'.pc = m.pc := by
  unfold comparison at h
  split at h <;> cases h
  rfl

theorem binary_pc {op : Binary} {target source : Operand}
    (h : m.binary w op target source = some m') : m'.pc = m.pc := by
  cases op <;> rw [binary] at h
  case mov | movzx =>
    obtain ⟨size, _, h⟩ := Option.bind_eq_some_iff.mp h
    exact write_pc h
  case cmp | test => exact comparison_pc h
  all_goals exact combine_pc h

theorem unary_pc {op : Unary} {r : Reg} (h : m.unary op r = some m') : m'.pc = m.pc := by
  cases op with
  | div =>
    simp only [unary, divide] at h
    split at h <;> cases h
    rfl
  | idiv =>
    simp only [unary, divideSigned] at h
    split at h <;> cases h
    rfl
  | _ =>
    cases h
    rfl

theorem effect_pc {i : Inst} (h : m.effect w prog i = some m') : m'.pc = m.pc := by
  cases i with
  | binary => exact binary_pc h
  | unary => exact unary_pc h
  | nullary op => cases op <;> cases h <;> rfl
  | push | set =>
    obtain ⟨_, _, rfl⟩ := Option.map_eq_some_iff.mp h
    rfl
  | lea | leaRel =>
    cases h
    rfl
  | _ => cases h

/-- A straight run through some lines: instructions that go on to the next line, and conditional
jumps that are not made. -/
inductive Executes (w : Platform) (prog : List Line) : Processor → List Line → Processor → Prop
  | nil {m : Processor} : Executes w prog m [] m
  | inst {m mid m' : Processor} {i : Inst} {rest : List Line} : m.effect w prog i = some mid →
      Executes w prog mid.next rest m' → Executes w prog m (.inst i :: rest) m'
  | pass {m m' : Processor} {f : Flags} {c : Cond} {s : Symbol} {rest : List Line} :
      m.flags = some f → f.holds c = false → Executes w prog m.next rest m' →
      Executes w prog m (.inst (.jumpIf c s) :: rest) m'

theorem Executes.append {first second : List Line} (h : Executes w prog m first m')
    (h' : Executes w prog m' second m'') : Executes w prog m (first ++ second) m'' := by
  induction h with
  | nil => exact h'
  | inst effect _ ih => exact .inst effect (ih h')
  | pass flags fails _ ih => exact .pass flags fails (ih h')

theorem reaches_one (h : m.step w prog = some (.runs m')) : Reaches w prog m m' :=
  .single h

theorem Executes.reaches {code : List Line} (h : Executes w prog m code m')
    (hc : CodeAt prog m.pc code) : Reaches w prog m m' ∧ m'.pc = m.pc + code.length := by
  induction h with
  | nil => exact ⟨.refl, rfl⟩
  | @inst m mid m' i rest effect _ ih =>
    obtain ⟨here, later⟩ := hc
    have place : mid.pc = m.pc := effect_pc effect
    have first : m.step w prog = some (.runs mid.next) := by
      rw [step, here]
      exact exec_of_effect effect
    rw [← place] at later
    obtain ⟨steps, there⟩ := ih later
    refine ⟨.head first steps, ?_⟩
    rw [there, next_pc, place, List.length_cons]
    omega
  | @pass m m' f c s rest flags fails _ ih =>
    obtain ⟨here, later⟩ := hc
    have first : m.step w prog = some (.runs m.next) := by
      simp [step, here, exec, flags, fails]
    obtain ⟨steps, there⟩ := ih later
    refine ⟨.head first steps, ?_⟩
    rw [there, next_pc, List.length_cons]
    omega

theorem step_inst {i : Inst} (h : prog[m.pc]? = some (.inst i)) :
    m.step w prog = m.exec w prog i := by
  rw [step, h]

theorem step_label {s : Symbol} (h : prog[m.pc]? = some (.label s)) :
    m.step w prog = some (.runs m.next) := by
  rw [step, h]

theorem step_jump {s : Symbol} {i : Nat} (h : prog[m.pc]? = some (.inst (.jump s)))
    (hs : labelLine? prog s = some i) : m.step w prog = some (.runs { m with pc := i }) := by
  simp [step_inst h, exec, hs, jumpTo]

theorem step_jumpIf {s : Symbol} {i : Nat} {c : Cond} {f : Flags}
    (h : prog[m.pc]? = some (.inst (.jumpIf c s))) (flags : m.flags = some f)
    (holds : f.holds c = true) (hs : labelLine? prog s = some i) :
    m.step w prog = some (.runs { m with pc := i }) := by
  simp [step_inst h, exec, flags, holds, hs, jumpTo]

end Processor

end StackLang.Target
