import StackLang.Proofs.Target.Bodies
import StackLang.Proofs.Target.Printing
/-!
Calls and returns line by line. The return stack holds the addresses behind the calls that have not
come back, and its index is their number; a call and a return are a few lines in which this holds
step by step.
-/

namespace StackLang.Target

open Line

/-- The return stack holds the addresses of some lines, the latest on top. -/
def Saved (w : Platform) (m : Processor) : List Nat → Prop
  | [] => True
  | back :: rest => m.slot w (rest.length + 1) = w.code back ∧ Saved w m rest

theorem Saved.congr {w : Platform} {m m' : Processor} {calls : List Nat} (h : Saved w m calls)
    (same : ∀ k ≤ calls.length, m'.slot w k = m.slot w k) : Saved w m' calls := by
  induction calls with
  | nil => trivial
  | cons back rest ih =>
    obtain ⟨top, below⟩ := h
    refine ⟨?_, ih below fun k hk => same k (Nat.le_succ_of_le hk)⟩
    exact (same _ (Nat.le_refl _)).trans top

/-- What a program needs of its platform and its lines for calls and returns. -/
structure Scene (w : Platform) (p : Program) (s : Settings) (lines : List Line) (strings : Nat) :
    Prop where
  nodup : (labels lines).Nodup
  depth_eq : (s.actualDepth.toNat : Int) = s.actualDepth
  low : s.actualDepth.toNat < 2 ^ 31
  slots : (w.place .returnStack).toNat + 8 * (s.actualDepth.toNat + 1) ≤ 2 ^ 31
  returns : ∀ {k : Nat} {x : Inst} {l : Line}, lines[k]? = some (.inst x) →
    lines[k + 1]? = some l → Processor.lineAt? w lines (w.code (k + 1)) = some (k + 1)
  stands : ∀ {name : String}, p.procs.contains name = true →
    ∃ start front, Stands p s lines strings name start front
  printing : CodeAt lines 5 printInt
  overflow : CodeAt lines 49 (fatal .stackOverflow .overflow)
  entry : p.procs.contains Source.entryPoint = true
  kept : ∀ (ram : Ram) (v : Word), (ram.putWord (w.place .stackOrigin) v).word
    (w.place .returnIndex) = ram.word (w.place .returnIndex)
  exits : w.Exits
  writes : w.Writes

section

variable (w : Platform) (p : Program) (s : Settings) (lines : List Line) (strings : Nat)

/-- The return stack belongs to some calls, and its index is a number. -/
structure Holding (index : Nat) (m : Processor) (calls : List Nat) : Prop where
  index : m.regs .r13 = BitVec.ofNat 64 index
  saved : Saved w m calls
  le : calls.length ≤ s.actualDepth.toNat

/-- A procedure runs below some calls: each of them stands inside the one that was called before,
and the first in the entry procedure. -/
inductive Pending : String → List Nat → Prop
  | entry : Pending Source.entryPoint []
  | call {proc callee : String} {back : Nat} {rest : List Nat} : Pending proc rest →
      Inside p s lines strings proc back →
      Processor.lineAt? w lines (w.code back) = some back → Pending callee (back :: rest)

structure CallSite (proc name : String) (line : Nat) (calls : List Nat) : Prop where
  pending : Pending w p s lines strings proc calls
  known : p.procs.contains name = true
  code : ∃ n, CodeAt lines line (callLines s.actualDepth name (.label n))
  behind : Inside p s lines strings proc (line + 6)

structure Overflowing (m : Processor) (calls : List Nat) : Prop where
  pc : m.pc = 49
  holding : Holding w s calls.length m calls
  full : calls.length = s.actualDepth.toNat

/-- The processor so many lines behind the beginning of a call. -/
inductive Calling (line : Nat) : Nat → Processor → List Nat → Prop
  | guard {m : Processor} {calls : List Nat} : m.pc = line + 1 → Holding w s calls.length m calls →
      m.flags = some (Flags.compare (m.regs .r13) (BitVec.ofInt 64 s.actualDepth)) →
      Calling line 1 m calls
  | bump {m : Processor} {calls : List Nat} : m.pc = line + 2 → Holding w s calls.length m calls →
      calls.length < s.actualDepth.toNat → Calling line 2 m calls
  -- from here on the index counts the call, and its slot is still to be written
  | mark {m : Processor} {calls : List Nat} : m.pc = line + 3 →
      Holding w s (calls.length + 1) m calls → calls.length < s.actualDepth.toNat →
      Calling line 3 m calls
  | save {m : Processor} {calls : List Nat} : m.pc = line + 4 →
      Holding w s (calls.length + 1) m calls → calls.length < s.actualDepth.toNat →
      m.regs .rax = w.code (line + 6) → Calling line 4 m calls
  | dive {m : Processor} {calls : List Nat} : m.pc = line + 5 →
      Holding w s (calls.length + 1) m ((line + 6) :: calls) → Calling line 5 m calls

structure ReturnSite (line back : Nat) (rest : List Nat) : Prop where
  pending : ∃ proc, Pending w p s lines strings proc rest ∧ Inside p s lines strings proc back
  found : Processor.lineAt? w lines (w.code back) = some back
  code : ∃ proc ≠ Source.entryPoint, CodeAt lines line (returnLines proc)

/-- The processor so many lines behind the beginning of a return. -/
inductive Leaving (line back : Nat) (rest : List Nat) : Nat → Processor → Prop
  | check {m : Processor} : m.pc = line + 1 → Holding w s (rest.length + 1) m (back :: rest) →
      m.flags = some (Flags.test (m.regs .r13)) → Leaving line back rest 1 m
  | fetch {m : Processor} : m.pc = line + 2 → Holding w s (rest.length + 1) m (back :: rest) →
      Leaving line back rest 2 m
  | drop {m : Processor} : m.pc = line + 3 → Holding w s (rest.length + 1) m (back :: rest) →
      m.regs .rdx = w.code back → Leaving line back rest 3 m
  -- the call is not counted any more, and its address is in a register
  | land {m : Processor} : m.pc = line + 4 → Holding w s rest.length m rest →
      m.regs .rdx = w.code back → Leaving line back rest 4 m

end

variable {w : Platform} {p : Program} {s : Settings} {lines : List Line} {strings : Nat}
  {m m' : Processor} {calls rest : List Nat} {line back index : Nat}

theorem Holding.toNat (h : Holding w s index m calls) (low : index < 2 ^ 64) :
    (m.regs .r13).toNat = index := by
  rw [h.index, BitVec.toNat_ofNat, Nat.mod_eq_of_lt low]

theorem Holding.congr (h : Holding w s index m calls) (index_eq : m'.regs .r13 = m.regs .r13)
    (same : ∀ k ≤ s.actualDepth.toNat, m'.slot w k = m.slot w k) : Holding w s index m' calls :=
  ⟨index_eq.trans h.index, h.saved.congr fun k hk => same k (Nat.le_trans hk h.le), h.le⟩

/-! ### Calls -/

section

variable {name : String} {stage : Nat} (scene : Scene w p s lines strings)
  (code : ∃ n, CodeAt lines line (callLines s.actualDepth name (.label n)))

include code

theorem bump_counts (here : m.pc = line + 2) (h : Holding w s calls.length m calls)
    (more : calls.length < s.actualDepth.toNat) :
    ∃ m', Proceeds w lines s.actualDepth.toNat m calls m' calls ∧ Calling w s line 3 m' calls := by
  obtain ⟨n, code⟩ := code
  have third : lines[m.pc]? = some (.inst (.unary .inc .r13)) := by
    rw [here]
    exact code.getElem? rfl
  refine ⟨_, .of_effect third rfl rfl, .mark ?_ ⟨?_, ?_, h.le⟩ more⟩
  · exact congrArg (· + 1) here
  · change m.regs .r13 + 1 = _
    rw [h.index, BitVec.ofNat_add]
    rfl
  · exact h.saved.congr fun k _ => Processor.slot_of_ram rfl k

include scene

theorem call_begins (here : m.pc = line) (h : Holding w s calls.length m calls) :
    ∃ m', Proceeds w lines s.actualDepth.toNat m calls m' calls ∧ Calling w s line 1 m' calls := by
  obtain ⟨n, code⟩ := code
  have low := scene.low
  have depth := scene.depth_eq
  have fits : fits32 s.actualDepth = true := by
    simp only [fits32, Bool.and_eq_true, decide_eq_true_eq]
    omega
  have cmp : m.effect w lines (.binary .cmp (.reg .r13) (.imm s.actualDepth)) =
      some (m.compared (Flags.compare (m.regs .r13) (BitVec.ofInt 64 s.actualDepth))) :=
    comparison_imm w m .r13 _ fits
  have first : lines[m.pc]? = some (.inst (.binary .cmp (.reg .r13) (.imm s.actualDepth))) := by
    rw [here]
    exact code.1
  refine ⟨_, .of_effect first cmp rfl, .guard ?_ ?_ rfl⟩
  · rw [Processor.next_pc, Processor.compared_pc, here]
  · exact h.congr rfl fun k _ => Processor.slot_of_ram rfl k

/-- The guard lets a call pass unless the return stack is full. -/
theorem guard_decides (here : m.pc = line + 1) (h : Holding w s calls.length m calls)
    (flags : m.flags = some (Flags.compare (m.regs .r13) (BitVec.ofInt 64 s.actualDepth))) :
    ∃ m', Proceeds w lines s.actualDepth.toNat m calls m' calls ∧
      ((calls.length < s.actualDepth.toNat ∧ Calling w s line 2 m' calls) ∨
        Overflowing w s m' calls) := by
  obtain ⟨n, code⟩ := code
  have low := scene.low
  have depth := scene.depth_eq
  have within := h.le
  have second : lines[m.pc]? = some (.inst (.jumpIf .ae .stackOverflow)) := by
    rw [here]
    exact code.getElem? rfl
  have target : labelLine? lines .stackOverflow = some 49 :=
    labelLine?_eq scene.nodup scene.overflow.1
  -- the comparison is one of numbers without a sign, and the index is the number of calls
  have bound : (BitVec.ofInt 64 s.actualDepth).toNat = s.actualDepth.toNat := by
    rw [← depth, BitVec.ofInt_natCast, BitVec.toNat_ofNat, Int.toNat_natCast]
    exact Nat.mod_eq_of_lt (by omega)
  have decides : (Flags.compare (m.regs .r13) (BitVec.ofInt 64 s.actualDepth)).holds .ae =
      !decide (calls.length < s.actualDepth.toNat) := by
    change (!decide _) = _
    rw [bound, h.toNat (by omega)]
  have step := Processor.stepInto_jumpIf_eq (w := w) second
  by_cases more : calls.length < s.actualDepth.toNat
  · refine ⟨m.next, .of_jumpIf second ?_ rfl, .inl ⟨more, .bump ?_ ?_ more⟩⟩
    · simp [step, Processor.exec, flags, decides, more]
    · rw [Processor.next_pc, here]
    · exact h.congr rfl fun k _ => Processor.slot_of_ram rfl k
  · refine ⟨{ m with pc := 49 }, .of_jumpIf second ?_ rfl, .inr ⟨rfl, ?_, by omega⟩⟩
    · simp [step, Processor.exec, flags, decides, more, target, Processor.jumpTo]
    · exact h.congr rfl fun k _ => Processor.slot_of_ram rfl k

theorem mark_takes (here : m.pc = line + 3) (h : Holding w s (calls.length + 1) m calls)
    (more : calls.length < s.actualDepth.toNat) :
    ∃ m', Proceeds w lines s.actualDepth.toNat m calls m' calls ∧ Calling w s line 4 m' calls := by
  obtain ⟨n, code⟩ := code
  have fourth : lines[m.pc]? = some (.inst (.leaRel .rax (.label n))) := by
    rw [here]
    exact code.getElem? rfl
  have there : labelLine? lines (.label n) = some (line + 6) :=
    labelLine?_eq scene.nodup (code.getElem? rfl)
  have effect : m.effect w lines (.leaRel .rax (.label n)) =
      some (m.set .rax (w.code (line + 6))) := by
    rw [Processor.effect, there]
    rfl
  refine ⟨_, .of_effect fourth effect rfl, .save ?_ ?_ more rfl⟩
  · exact congrArg (· + 1) here
  · exact h.congr rfl fun k _ => Processor.slot_of_ram rfl k

theorem save_keeps (here : m.pc = line + 4) (h : Holding w s (calls.length + 1) m calls)
    (more : calls.length < s.actualDepth.toNat) (marked : m.regs .rax = w.code (line + 6)) :
    ∃ m', Proceeds w lines s.actualDepth.toNat m calls m' calls ∧ Calling w s line 5 m' calls := by
  obtain ⟨n, code⟩ := code
  have fifth : lines[m.pc]? =
      some (.inst (.binary .mov (.mem (.symbolSlot .returnStack .r13)) (.reg .rax))) := by
    rw [here]
    exact code.getElem? rfl
  let top := w.place .returnStack + BitVec.ofNat 64 (calls.length + 1) * 8
  have effect : m.effect w lines
      (.binary .mov (.mem (.symbolSlot .returnStack .r13)) (.reg .rax)) =
        some (m.withRam (m.ram.putWord top (w.code (line + 6)))) := by
    have address : m.address w (.symbolSlot .returnStack .r13) = top := by
      rw [Processor.address, h.index]
    change m.move w _ _ = _
    rw [move_to_mem, address, marked]
  have named : Spares w lines s.actualDepth.toNat m
      (m.withRam (m.ram.putWord top (w.code (line + 6)))).next := by
    intro quiet
    rw [fifth] at quiet
    cases quiet
  -- the slot is above those of the calls that are outstanding, and still in the return stack
  have slots := scene.slots
  have place : top.toNat = _ := toNat_slotPlace slots (k := calls.length + 1) more
  refine ⟨_, ⟨Processor.stepInto_effect fifth effect, named, ?_⟩,
    .dive ?_ ⟨h.index, ⟨?_, ?_⟩, more⟩⟩
  · exact (outstanding_eq fifth (fun _ h => nomatch h) (fun _ h => nomatch h) calls).symm
  · exact congrArg (· + 1) here
  · exact Ram.word_putWord _ _ _
  · refine h.saved.congr fun k hk => ?_
    have place' := toNat_slotPlace slots (k := k) (by omega)
    exact Ram.word_putWord_apart ⟨by omega, by omega, by omega⟩

theorem Calling.advance (h : Calling w s line stage m calls) (low : 2 ≤ stage) (high : stage < 5) :
    ∃ m', Proceeds w lines s.actualDepth.toNat m calls m' calls ∧
      Calling w s line (stage + 1) m' calls := by
  cases h with
  | guard => omega
  | bump here h more => exact bump_counts code here h more
  | mark here h more => exact mark_takes scene code here h more
  | save here h more marked => exact save_keeps scene code here h more marked
  | dive => omega

theorem dive_enters (known : p.procs.contains name = true) (here : m.pc = line + 5) :
    ∃ start, lines[start]? = some (.label (.proc name)) ∧
      Inside p s lines strings name (start + 1) ∧
      Proceeds w lines s.actualDepth.toNat m calls { m with pc := start }
        ((line + 6) :: calls) := by
  obtain ⟨n, code⟩ := code
  obtain ⟨start, front, stands⟩ := scene.stands known
  have sixth : lines[m.pc]? = some (.inst (.jump (.proc name))) := by
    rw [here]
    exact code.getElem? rfl
  have seventh : lines[m.pc + 1]? = some (.label (.label n)) := by
    rw [here, Nat.add_assoc]
    exact code.getElem? rfl
  have target := labelLine?_eq scene.nodup stands.entry
  refine ⟨start, stands.entry, stands.inside, ?_, fun _ k _ => Processor.slot_of_ram rfl k, ?_⟩
  · rw [Processor.stepInto_eq sixth (fun _ h => nomatch h)]
    exact Processor.step_jump sixth target
  · simp only [outstanding, sixth, seventh]
    rw [here]

theorem call_overflows {m₀ : Processor} {n : Nat}
    (runs : Runs w lines s.actualDepth.toNat m₀ n m calls) (here : m.pc = line)
    (h : Holding w s calls.length m calls) (full : calls.length = s.actualDepth.toNat) :
    ∃ m', Runs w lines s.actualDepth.toNat m₀ (n + 2) m' calls ∧
      lines[m'.pc]? = some (.label .stackOverflow) := by
  obtain ⟨m₁, first, calling⟩ := call_begins scene code here h
  cases calling with
  | guard here h flags =>
    obtain ⟨m₂, second, ⟨more, _⟩ | excess⟩ := guard_decides scene code here h flags
    · omega
    · refine ⟨m₂, (runs.next first).next second, ?_⟩
      rw [excess.pc]
      exact scene.overflow.1

theorem call_completes {m₀ : Processor} {n : Nat} (known : p.procs.contains name = true)
    (runs : Runs w lines s.actualDepth.toNat m₀ n m calls) (here : m.pc = line)
    (h : Holding w s calls.length m calls) (more : calls.length < s.actualDepth.toNat) :
    ∃ m', Runs w lines s.actualDepth.toNat m₀ (n + 6) m' ((line + 6) :: calls) ∧
      lines[m'.pc]? = some (.label (.proc name)) := by
  obtain ⟨m₁, first, calling⟩ := call_begins scene code here h
  cases calling with
  | guard here h flags =>
    obtain ⟨m₂, second, ⟨_, calling⟩ | excess⟩ := guard_decides scene code here h flags
    · obtain ⟨m₃, third, calling⟩ := calling.advance scene code (by omega) (by omega)
      obtain ⟨m₄, fourth, calling⟩ := calling.advance scene code (by omega) (by omega)
      obtain ⟨m₅, fifth, calling⟩ := calling.advance scene code (by omega) (by omega)
      cases calling with
      | dive here h =>
        obtain ⟨start, entry, _, sixth⟩ := dive_enters scene code known here
        exact ⟨_, (((((runs.next first).next second).next third).next fourth).next fifth).next
          sixth, entry⟩
    · have full := excess.full
      omega

end

/-! ### Returns -/

theorem returnLines_other {proc : String} (other : proc ≠ Source.entryPoint) :
    returnLines proc = [both .test .r13 .r13, inst (.jumpIf .z .stackUnderflow),
      mov .rdx (.mem (.symbolSlot .returnStack .r13)), inst (.unary .dec .r13),
      inst (.jumpReg .rdx)] :=
  if_neg other

section

variable {stage : Nat} (low : s.actualDepth.toNat < 2 ^ 31)
  (code : ∃ proc ≠ Source.entryPoint, CodeAt lines line (returnLines proc))

include code

theorem return_begins (here : m.pc = line)
    (h : Holding w s (rest.length + 1) m (back :: rest)) :
    ∃ m', Proceeds w lines s.actualDepth.toNat m (back :: rest) m' (back :: rest) ∧
      Leaving w s line back rest 1 m' := by
  obtain ⟨proc, other, code⟩ := code
  rw [returnLines_other other] at code
  have first : lines[m.pc]? = some (.inst (.binary .test (.reg .r13) (.reg .r13))) := by
    rw [here]
    exact code.1
  refine ⟨_, .of_effect first (effect_test w m .r13 lines) rfl, .check ?_ ?_ rfl⟩
  · exact congrArg (· + 1) here
  · exact h.congr rfl fun k _ => Processor.slot_of_ram rfl k

theorem fetch_reads (here : m.pc = line + 2)
    (h : Holding w s (rest.length + 1) m (back :: rest)) :
    ∃ m', Proceeds w lines s.actualDepth.toNat m (back :: rest) m' (back :: rest) ∧
      Leaving w s line back rest 3 m' := by
  obtain ⟨proc, other, code⟩ := code
  rw [returnLines_other other] at code
  have third : lines[m.pc]? =
      some (.inst (.binary .mov (.reg .rdx) (.mem (.symbolSlot .returnStack .r13)))) := by
    rw [here]
    exact code.getElem? rfl
  have top : m.ram.word (m.address w (.symbolSlot .returnStack .r13)) = w.code back := by
    rw [Processor.address, h.index]
    exact h.saved.1
  refine ⟨_, .of_effect third (move_mem w m .rdx _) rfl, .drop ?_ ?_ top⟩
  · exact congrArg (· + 1) here
  · exact h.congr rfl fun k _ => Processor.slot_of_ram rfl k

theorem drop_counts (here : m.pc = line + 3)
    (h : Holding w s (rest.length + 1) m (back :: rest)) (read : m.regs .rdx = w.code back) :
    ∃ m', Proceeds w lines s.actualDepth.toNat m (back :: rest) m' (back :: rest) ∧
      Leaving w s line back rest 4 m' := by
  obtain ⟨proc, other, code⟩ := code
  rw [returnLines_other other] at code
  have fourth : lines[m.pc]? = some (.inst (.unary .dec .r13)) := by
    rw [here]
    exact code.getElem? rfl
  refine ⟨_, .of_effect fourth rfl rfl, .land ?_ ⟨?_, ?_, ?_⟩ read⟩
  · exact congrArg (· + 1) here
  · change m.regs .r13 - 1 = _
    rw [h.index, BitVec.ofNat_add]
    exact BitVec.add_sub_cancel _ _
  · exact h.saved.2.congr fun k _ => Processor.slot_of_ram rfl k
  · exact Nat.le_of_succ_le h.le

theorem land_returns (found : Processor.lineAt? w lines (w.code back) = some back)
    (here : m.pc = line + 4) (read : m.regs .rdx = w.code back) :
    Proceeds w lines s.actualDepth.toNat m (back :: rest) { m with pc := back } rest := by
  obtain ⟨proc, other, code⟩ := code
  rw [returnLines_other other] at code
  have fifth : lines[m.pc]? = some (.inst (.jumpReg .rdx)) := by
    rw [here]
    exact code.getElem? rfl
  refine ⟨?_, fun _ k _ => Processor.slot_of_ram rfl k, ?_⟩
  · rw [Processor.stepInto_eq fifth (fun _ h => nomatch h), Processor.step_inst fifth,
      Processor.exec, read, found]
    rfl
  · simp [outstanding, fifth]

include low

theorem check_passes (here : m.pc = line + 1)
    (h : Holding w s (rest.length + 1) m (back :: rest))
    (flags : m.flags = some (Flags.test (m.regs .r13))) :
    ∃ m', Proceeds w lines s.actualDepth.toNat m (back :: rest) m' (back :: rest) ∧
      Leaving w s line back rest 2 m' := by
  obtain ⟨proc, other, code⟩ := code
  rw [returnLines_other other] at code
  have within : rest.length + 1 ≤ s.actualDepth.toNat := h.le
  have second : lines[m.pc]? = some (.inst (.jumpIf .z .stackUnderflow)) := by
    rw [here]
    exact code.getElem? rfl
  -- there is a call to come back from, so the index is not zero
  have fails : (Flags.test (m.regs .r13)).holds .z = false := by
    have nonzero : m.regs .r13 ≠ 0 := by
      intro zero
      have number := h.toNat (by omega)
      rw [zero] at number
      cases number
    simpa [Flags.holds, Flags.test] using nonzero
  refine ⟨m.next, .of_jumpIf second ?_ rfl, .fetch ?_ ?_⟩
  · rw [Processor.stepInto_jumpIf_eq second]
    simp [Processor.exec, flags, fails]
  · rw [Processor.next_pc, here]
  · exact h.congr rfl fun k _ => Processor.slot_of_ram rfl k

theorem Leaving.advance (h : Leaving w s line back rest stage m) (high : stage < 4) :
    ∃ m', Proceeds w lines s.actualDepth.toNat m (back :: rest) m' (back :: rest) ∧
      Leaving w s line back rest (stage + 1) m' := by
  cases h with
  | check here h flags => exact check_passes low code here h flags
  | fetch here h => exact fetch_reads code here h
  | drop here h read => exact drop_counts code here h read
  | land => omega

theorem return_completes {m₀ : Processor} {n : Nat}
    (found : Processor.lineAt? w lines (w.code back) = some back)
    (runs : Runs w lines s.actualDepth.toNat m₀ n m (back :: rest)) (here : m.pc = line)
    (h : Holding w s (rest.length + 1) m (back :: rest)) :
    ∃ m', Runs w lines s.actualDepth.toNat m₀ (n + 5) m' rest ∧ m'.pc = back := by
  obtain ⟨m₁, first, leaving⟩ := return_begins code here h
  obtain ⟨m₂, second, leaving⟩ := leaving.advance low code (by omega)
  obtain ⟨m₃, third, leaving⟩ := leaving.advance low code (by omega)
  obtain ⟨m₄, fourth, leaving⟩ := leaving.advance low code (by omega)
  cases leaving with
  | land here h read =>
    have fifth : Proceeds w lines s.actualDepth.toNat _ (back :: rest) _ rest :=
      land_returns code found here read
    exact ⟨_, ((((runs.next first).next second).next third).next fourth).next fifth, rfl⟩

end

end StackLang.Target
