import StackLang.Proofs.Target.Correctness
import StackLang.Proofs.Target.ReturnStack
/-!
The discipline of calls and returns in every run of the generated code, from the first instruction
on and of any length.
-/

namespace StackLang.Target

open Line

section

variable (w : Platform) (lines : List Line) (depth : Int) (m₀ : Processor)

/-- A return address is put on the return stack or taken from it, at an index in range. -/
def UsesSlot (m : Processor) (i : Inst) : Prop :=
  (i = .binary .mov (.mem (.symbolSlot .returnStack .r13)) (.reg .rax) ∨
    i = .binary .mov (.reg .rdx) (.mem (.symbolSlot .returnStack .r13))) ∧
  1 ≤ (m.regs .r13).toNat ∧ (m.regs .r13).toNat ≤ depth.toNat

/-- A call leads to its procedure and is outstanding then, or, if there can be no more calls, to the
label for that. -/
def CallLeads (n : Nat) (m : Processor) (calls : List Nat) (name : String) : Prop :=
  (calls.length < depth.toNat ∧
    ∃ m', Runs w lines depth.toNat m₀ (n + 6) m' ((m.pc + 6) :: calls) ∧
      lines[m'.pc]? = some (.label (.proc name))) ∨
  (calls.length = depth.toNat ∧
    ∃ m', Runs w lines depth.toNat m₀ (n + 2) m' calls ∧
      lines[m'.pc]? = some (.label .stackOverflow))

/-- So many steps lead behind the latest call, which is not outstanding then. -/
def ReturnLeads (n : Nat) (calls : List Nat) (steps : Nat) : Prop :=
  ∃ back rest m', calls = back :: rest ∧ Runs w lines depth.toNat m₀ (n + steps) m' rest ∧
    m'.pc = back

/-- A call was made two steps ago, with as many calls outstanding as there can be. -/
def CalledInExcess (n : Nat) (calls : List Nat) : Prop :=
  calls.length = depth.toNat ∧ ∃ k m name back, n = k + 2 ∧
    Runs w lines depth.toNat m₀ k m calls ∧ CodeAt lines m.pc (callLines depth name (.label back))

/-- What holds of calls and returns where a run is after a number of steps. It takes three steps to
load the index of the return stack. -/
structure Orderly (n : Nat) (m : Processor) (calls : List Nat) : Prop where
  index : (n < 3 ∧ m.regs .r13 = m₀.regs .r13) ∨ (m.regs .r13).toNat ≤ depth.toNat
  access : ∀ i, lines[m.pc]? = some (.inst i) → .returnStack ∈ i.mentions → UsesSlot depth m i
  call : ∀ name back, CodeAt lines m.pc (callLines depth name (.label back)) →
    CallLeads w lines depth m₀ n m calls name
  ret : ∀ proc ≠ Source.entryPoint, CodeAt lines m.pc (returnLines proc) →
    ReturnLeads w lines depth m₀ n calls 5
  jump : ∀ r, lines[m.pc]? = some (.inst (.jumpReg r)) → ReturnLeads w lines depth m₀ n calls 1
  underflow : lines[m.pc]? ≠ some (.label .stackUnderflow)
  overflow : lines[m.pc]? = some (.label .stackOverflow) → CalledInExcess w lines depth m₀ n calls

end

/-! ### What lines have to do with calls -/

/-- The part a line has in calls and returns: it may begin one, use the return stack, jump to an
address, or be one of the labels for errors. -/
inductive Role
  | idle | call | ret | access | jump | underflow | overflow

def Inst.role (i : Inst) : Role :=
  if .returnStack ∈ i.mentions then .access else
  match i with
  | .binary .cmp (.reg .r13) _ => .call
  | .binary .test (.reg .r13) _ => .ret
  | .jumpReg _ => .jump
  | _ => .idle

def Line.role : Line → Role
  | .inst i => i.role
  | .label .stackUnderflow => .underflow
  | .label .stackOverflow => .overflow
  | _ => .idle

theorem Inst.role_of_inert {i : Inst} (h : (Line.inst i).isInert = true) : i.role = .idle := by
  obtain ⟨spares, plain⟩ := Bool.and_eq_true_iff.mp h
  have absent : Symbol.returnStack ∉ i.mentions := by
    intro named
    cases List.all_eq_true.mp plain _ named
  unfold role
  rw [if_neg absent]
  split
  next => cases spares
  next => cases spares
  next => cases spares
  next => rfl

theorem Line.role_of_inert {l : Line} (h : l.isInert = true) : l.role = .idle := by
  cases l with
  | inst i => exact Inst.role_of_inert h
  | label x => cases x <;> first | rfl | cases h
  | _ => rfl

section

variable {w : Platform} {lines : List Line} {depth : Int} {m₀ m : Processor} {n : Nat}
  {calls : List Nat} {l : Line}

/-- Only what the role of a line asks for has to be shown. -/
theorem Orderly.of_role (here : lines[m.pc]? = some l)
    (index : (n < 3 ∧ m.regs .r13 = m₀.regs .r13) ∨ (m.regs .r13).toNat ≤ depth.toNat)
    (access : l.role = .access → ∀ i, l = .inst i → UsesSlot depth m i)
    (call : l.role = .call → ∀ name back,
      CodeAt lines m.pc (callLines depth name (.label back)) →
        CallLeads w lines depth m₀ n m calls name)
    (ret : l.role = .ret → ReturnLeads w lines depth m₀ n calls 5)
    (jump : l.role = .jump → ReturnLeads w lines depth m₀ n calls 1)
    (underflow : l.role ≠ .underflow)
    (overflow : l.role = .overflow → CalledInExcess w lines depth m₀ n calls) :
    Orderly w lines depth m₀ n m calls where
  index := index
  access := by
    intro i hi named
    obtain rfl := Option.some.inj (here.symm.trans hi)
    exact access (if_pos named) i rfl
  call := by
    intro name back code
    obtain rfl := Option.some.inj (here.symm.trans code.1)
    exact call rfl name back code
  ret := by
    intro proc other code
    rw [returnLines_other other] at code
    obtain rfl := Option.some.inj (here.symm.trans code.1)
    exact ret rfl
  jump := by
    intro r hr
    obtain rfl := Option.some.inj (here.symm.trans hr)
    exact jump rfl
  underflow := by
    intro hl
    obtain rfl := Option.some.inj (here.symm.trans hl)
    exact underflow rfl
  overflow := by
    intro hl
    obtain rfl := Option.some.inj (here.symm.trans hl)
    exact overflow rfl

theorem Orderly.of_idle (here : lines[m.pc]? = some l) (idle : l.role = .idle)
    (index : (n < 3 ∧ m.regs .r13 = m₀.regs .r13) ∨ (m.regs .r13).toNat ≤ depth.toNat) :
    Orderly w lines depth m₀ n m calls := by
  refine .of_role here index ?_ ?_ ?_ ?_ ?_ ?_ <;> simp [idle]

end

/-! ### Stations -/

section

variable {w : Platform} {p : Program} {s : Settings} {lines : List Line} {strings : Nat}
  {m₀ m : Processor} {n line : Nat} {calls : List Nat} {proc : String}
  (scene : Scene w p s lines strings)

include scene

theorem Holding.index_le {index : Nat} (h : Holding w s index m calls)
    (bound : index ≤ s.actualDepth.toNat) : (m.regs .r13).toNat ≤ s.actualDepth.toNat := by
  have low := scene.low
  rw [h.toNat (by omega)]
  exact bound

theorem Holding.orderly_of_idle {index : Nat} {l : Line} (h : Holding w s index m calls)
    (bound : index ≤ s.actualDepth.toNat) (here : lines[m.pc]? = some l) (idle : l.role = .idle)
    (calls' : List Nat) : Orderly w lines s.actualDepth m₀ n m calls' :=
  .of_idle here idle (.inr (h.index_le scene bound))

theorem Holding.usesSlot {index : Nat} (h : Holding w s (index + 1) m calls)
    (bound : index + 1 ≤ s.actualDepth.toNat) {i : Inst}
    (use : i = .binary .mov (.mem (.symbolSlot .returnStack .r13)) (.reg .rax) ∨
      i = .binary .mov (.reg .rdx) (.mem (.symbolSlot .returnStack .r13))) :
    UsesSlot s.actualDepth m i := by
  have low := scene.low
  have number := h.toNat (by omega)
  exact ⟨use, by omega, by omega⟩

theorem call_orderly {name : String} (runs : Runs w lines s.actualDepth.toNat m₀ n m calls)
    (h : Holding w s calls.length m calls) (known : p.procs.contains name = true) {back : Nat}
    (code : CodeAt lines m.pc (callLines s.actualDepth name (.label back))) :
    Orderly w lines s.actualDepth m₀ n m calls := by
  refine .of_role code.1 (.inr (h.index_le scene h.le)) nofun (fun _ name' back' code' => ?_) nofun
    nofun nofun nofun
  -- the lines of a call determine the procedure
  have jump : lines[m.pc + 5]? = some (.inst (.jump (.proc name))) := code.getElem? rfl
  have jump' : lines[m.pc + 5]? = some (.inst (.jump (.proc name'))) := code'.getElem? rfl
  have same := Option.some.inj (jump.symm.trans jump')
  cases same
  rcases Nat.lt_or_eq_of_le h.le with more | full
  · exact .inl ⟨more, call_completes scene ⟨back, code⟩ known runs rfl h more⟩
  · exact .inr ⟨full, call_overflows scene ⟨back, code⟩ runs rfl h full⟩

theorem return_orderly (runs : Runs w lines s.actualDepth.toNat m₀ n m calls)
    (h : Holding w s calls.length m calls) (pending : Pending w p s lines strings proc calls)
    (other : proc ≠ Source.entryPoint) (code : CodeAt lines m.pc (returnLines proc)) :
    Orderly w lines s.actualDepth m₀ n m calls := by
  have first := code
  rw [returnLines_other other] at first
  refine .of_role first.1 (.inr (h.index_le scene h.le)) nofun nofun (fun _ => ?_) nofun nofun nofun
  obtain ⟨entry, _⟩ | ⟨back, rest, rfl, _, found⟩ := pending.entry_or
  · exact absurd entry other
  · obtain ⟨m', runs', place⟩ := return_completes scene.low ⟨proc, other, code⟩ found runs rfl h
    exact ⟨back, rest, m', rfl, runs', place⟩

theorem inside_orderly (runs : Runs w lines s.actualDepth.toNat m₀ n m calls)
    (h : Holding w s calls.length m calls) (pending : Pending w p s lines strings proc calls)
    (inside : Inside p s lines strings proc m.pc) :
    Orderly w lines s.actualDepth m₀ n m calls := by
  rcases inside.cases scene.nodup with code | ⟨l, _, here, _, plain, _, _⟩ |
    ⟨name, back, known, code, _⟩
  · by_cases main : proc = Source.entryPoint
    · subst main
      exact h.orderly_of_idle scene h.le code.1 rfl calls
    · exact return_orderly scene runs h pending main code
  · have inert := Line.isInert_of_isPlain plain
    exact h.orderly_of_idle scene h.le here (Line.role_of_inert inert) calls
  · exact call_orderly scene runs h known code

theorem calling_orderly {name : String} {stage : Nat} (h : Calling w s line stage m calls)
    (code : ∃ back, CodeAt lines line (callLines s.actualDepth name (.label back))) :
    Orderly w lines s.actualDepth m₀ n m calls := by
  obtain ⟨back, code⟩ := code
  cases h with
  | guard here h _ | bump here h _ =>
    exact h.orderly_of_idle scene h.le (here ▸ code.getElem? rfl) rfl calls
  | mark here h more => exact h.orderly_of_idle scene more (here ▸ code.getElem? rfl) rfl calls
  | save here h more _ =>
    have store : lines[m.pc]? =
        some (.inst (.binary .mov (.mem (.symbolSlot .returnStack .r13)) (.reg .rax))) :=
      here ▸ code.getElem? rfl
    refine .of_role store (.inr (h.index_le scene more)) (fun _ i hi => ?_) nofun nofun nofun nofun
      nofun
    cases hi
    exact h.usesSlot scene more (.inl rfl)
  | dive here h => exact h.orderly_of_idle scene h.le (here ▸ code.getElem? rfl) rfl calls

theorem leaving_orderly {rest : List Nat} {back stage : Nat}
    (runs : Runs w lines s.actualDepth.toNat m₀ n m (back :: rest))
    (h : Leaving w s line back rest stage m)
    (found : Processor.lineAt? w lines (w.code back) = some back)
    (code : ∃ proc ≠ Source.entryPoint, CodeAt lines line (returnLines proc)) :
    Orderly w lines s.actualDepth m₀ n m (back :: rest) := by
  obtain ⟨proc, other, placed⟩ := code
  have code := placed
  rw [returnLines_other other] at code
  cases h with
  | check here h _ | drop here h _ =>
    exact h.orderly_of_idle scene h.le (here ▸ code.getElem? rfl) rfl _
  | fetch here h =>
    have load : lines[m.pc]? =
        some (.inst (.binary .mov (.reg .rdx) (.mem (.symbolSlot .returnStack .r13)))) :=
      here ▸ code.getElem? rfl
    refine .of_role load (.inr (h.index_le scene h.le)) (fun _ i hi => ?_) nofun nofun nofun nofun
      nofun
    cases hi
    exact h.usesSlot scene h.le (.inr rfl)
  | land here h read =>
    have jump : lines[m.pc]? = some (.inst (.jumpReg .rdx)) := here ▸ code.getElem? rfl
    refine .of_role jump (.inr (h.index_le scene h.le)) nofun nofun nofun (fun _ => ?_) nofun nofun
    have step : Proceeds w lines s.actualDepth.toNat m (back :: rest) _ rest :=
      land_returns ⟨proc, other, placed⟩ found here read
    exact ⟨back, rest, _, rfl, runs.next step, rfl⟩

theorem Station.orderly (runs : Runs w lines s.actualDepth.toNat m₀ n m calls)
    (h : Station w p s lines strings m calls) : Orderly w lines s.actualDepth m₀ n m calls := by
  cases h with
  | launch code holding => exact holding.orderly_of_idle scene (Nat.zero_le _) code.1 rfl []
  | entry holding _ here _ => exact holding.orderly_of_idle scene holding.le here rfl calls
  | inside holding pending inside => exact inside_orderly scene runs holding pending inside
  | printing holding _ _ _ printing =>
    obtain ⟨l, here, inert⟩ := printing.inert scene.printing
    exact holding.orderly_of_idle scene holding.le here (Line.role_of_inert inert) calls
  | calling site calling _ => exact calling_orderly scene calling site.code
  | leaving site leaving => exact leaving_orderly scene runs leaving site.found site.code
  | ending holding ending =>
    obtain ⟨l, here, inert⟩ := ending.inert scene
    exact holding.orderly_of_idle scene holding.le here (Line.role_of_inert inert) calls

end

/-! ### Runs -/

section

variable (w : Platform) (p : Program) (s : Settings) (lines : List Line) (strings : Nat)
  (m₀ : Processor)

/-- The processor before the index of the return stack is loaded. -/
structure Booting (n : Nat) (m : Processor) : Prop where
  early : n < 3
  code : CodeAt lines m.pc (startRoutine.drop n)
  index : m.regs .r13 = m₀.regs .r13
  zero : m.ram.word (w.place .returnIndex) = 0

/-- Where a run can be after a number of steps. The guard of a call and the label of a full return
stack know the run up to the call. -/
inductive Reached (n : Nat) (m : Processor) (calls : List Nat) : Prop
  | booting : calls = [] → Booting w lines m₀ n m → Reached n m calls
  | station : Station w p s lines strings m calls → Reached n m calls
  | guard {k : Nat} {m₁ : Processor} {proc name : String} : n = k + 1 →
      Runs w lines s.actualDepth.toNat m₀ k m₁ calls →
      CallSite w p s lines strings proc name m₁.pc calls → Calling w s m₁.pc 1 m calls →
      Reached n m calls
  | overflowing {k : Nat} {m₁ : Processor} {proc name : String} : n = k + 2 →
      Runs w lines s.actualDepth.toNat m₀ k m₁ calls →
      CallSite w p s lines strings proc name m₁.pc calls → Overflowing w s m calls →
      Reached n m calls

end

section

variable {w : Platform} {p : Program} {s : Settings} {lines : List Line} {strings : Nat}
  {m₀ m m' : Processor} {n : Nat} {calls calls' : List Nat}

theorem Booting.step (scene : Scene w p s lines strings) (h : Booting w lines m₀ n m)
    (hp : Proceeds w lines s.actualDepth.toNat m [] m' calls') :
    Reached w p s lines strings m₀ (n + 1) m' calls' := by
  obtain ⟨early, code, index, zero⟩ := h
  rcases n with - | - | - | n
  · obtain ⟨here, later⟩ := code
    have step : Proceeds w lines s.actualDepth.toNat m [] m.next [] :=
      .of_ram here nofun nofun (Processor.stepInto_label here) rfl
    obtain ⟨rfl, rfl⟩ := step.det hp
    exact .booting rfl ⟨by decide, later, index, zero⟩
  · obtain ⟨here, later⟩ := code
    have effect := move_to_mem w m .rsp (.symbol .stackOrigin)
    have same := (Processor.stepInto_effect here effect).symm.trans hp.step
    cases same
    rw [hp.calls_eq, outstanding_eq here nofun nofun]
    exact .booting rfl ⟨by decide, later, index, (scene.kept _ _).trans zero⟩
  · obtain ⟨here, later⟩ := code
    have step : Proceeds w lines s.actualDepth.toNat m [] _ [] :=
      .of_effect here (move_mem w m .r13 (.symbol .returnIndex)) rfl
    obtain ⟨rfl, rfl⟩ := step.det hp
    exact .station (.launch later ⟨zero, trivial, Nat.zero_le _⟩)
  · omega

theorem Reached.step (scene : Scene w p s lines strings)
    (runs : Runs w lines s.actualDepth.toNat m₀ n m calls)
    (h : Reached w p s lines strings m₀ n m calls)
    (hp : Proceeds w lines s.actualDepth.toNat m calls m' calls') :
    Reached w p s lines strings m₀ (n + 1) m' calls' := by
  cases h with
  | booting none booting =>
    subst none
    exact booting.step scene hp
  | station station =>
    obtain station | ⟨rfl, proc, name, site, calling⟩ := station.step scene hp
    · exact .station station
    · exact .guard rfl runs site calling
  | guard count before site calling =>
    subst count
    obtain ⟨rfl, station | excess⟩ := step_guard scene hp site calling
    · exact .station station
    · exact .overflowing rfl before site excess
  | overflowing _ _ _ excess => exact .station (step_overflowing scene hp excess)

theorem Runs.reached (scene : Scene w p s lines strings)
    (boots : Booting w lines m₀ 0 m₀) (runs : Runs w lines s.actualDepth.toNat m₀ n m calls) :
    Reached w p s lines strings m₀ n m calls := by
  induction runs with
  | start => exact .booting rfl boots
  | next before hp ih => exact ih.step scene before hp

theorem Reached.orderly (scene : Scene w p s lines strings)
    (runs : Runs w lines s.actualDepth.toNat m₀ n m calls)
    (h : Reached w p s lines strings m₀ n m calls) :
    Orderly w lines s.actualDepth m₀ n m calls := by
  cases h with
  | booting none booting =>
    obtain ⟨early, code, index, zero⟩ := booting
    have idle : ∃ l, lines[m.pc]? = some l ∧ l.role = .idle := by
      rcases n with - | - | - | n
      · exact ⟨_, code.1, rfl⟩
      · exact ⟨_, code.1, rfl⟩
      · exact ⟨_, code.1, rfl⟩
      · omega
    obtain ⟨l, here, idle⟩ := idle
    exact .of_idle here idle (.inl ⟨early, index⟩)
  | station station => exact station.orderly scene runs
  | guard _ _ site calling => exact calling_orderly scene calling site.code
  | @overflowing k m₁ proc name count before site excess =>
    obtain ⟨back, code⟩ := site.code
    have label : lines[m.pc]? = some (.label .stackOverflow) := by
      rw [excess.pc]
      exact scene.overflow.1
    refine .of_role label (.inr (excess.holding.index_le scene excess.holding.le)) nofun nofun nofun
      nofun nofun (fun _ => ?_)
    exact ⟨excess.full, k, m₁, name, back, count, before, code⟩

end

section

variable {p : Program} {s : Settings} {lines code : List Line} {pool : Pool} {w : Platform}

theorem Assembled.runtime (a : Assembled p s lines code pool) :
    CodeAt lines 5 printInt ∧ CodeAt lines 49 (fatal .stackOverflow .overflow) := by
  have placed := codeAt_middle (header p.file false) routines
    (code ++ memorySection p.memoryDecls ++ dataSection s.actualDepth false pool.strings)
  have whole : header p.file false ++ routines ++
      (code ++ memorySection p.memoryDecls ++ dataSection s.actualDepth false pool.strings) =
      lines := by
    rw [a.lines_eq]
    simp only [List.append_assoc]
  rw [whole] at placed
  -- between the two stands what is done about an empty return stack, ten lines
  exact ⟨placed.slice 0 34, placed.slice 44 10⟩

theorem Assembled.scene (a : Assembled p s lines code pool) (rules : p.violations true = [])
    (loads : w.Loads lines) (exits : w.Exits) (writes : w.Writes) :
    Scene w p s lines pool.strings.length where
  nodup := a.nodup_labels
  depth_eq := a.depth_eq
  low := a.depth_lt
  slots := by
    have below := loads.below _ a.mem_slots
    rwa [List.length_replicate] at below
  returns := loads.lineAt?_eq
  stands := by
    intro name known
    obtain ⟨r, hr⟩ := Option.isSome_iff_exists.mp known
    exact a.stands rules hr
  printing := a.runtime.1
  overflow := a.runtime.2
  entry := (Program.violations_eq_nil_iff.mp rules).1
  kept := a.index_kept loads
  exits := exits
  writes := writes

/-- The processor when the process begins: at the line labelled `_start`, with the data in memory.
The registers and the rest of the memory hold anything. -/
structure Starts (w : Platform) (lines : List Line) (m : Processor) : Prop where
  pc : labelLine? lines .start = some m.pc
  data : ∀ d ∈ dataOf lines, ∀ (i : Nat) (b : BitVec 8), d.2[i]? = some b →
    m.ram (w.place d.1 + BitVec.ofNat 64 i) = b

end

theorem countdown_writes : countdownPlatform.Writes := by
  intro _ _ _ _ _ h
  cases h
  rfl

end StackLang.Target
