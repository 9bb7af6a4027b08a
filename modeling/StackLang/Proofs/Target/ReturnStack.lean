import StackLang.Proofs.Target.CallSequence
/-!
Where the processor can be in a run of the generated code, and that it stays there: at every place
the return stack belongs to the calls that are outstanding.
-/

namespace StackLang.Target

open Line
open Processor (Walks)

section

variable (w : Platform) (p : Program) (s : Settings) (lines : List Line) (strings : Nat)

/-- The system is asked to write the message of a full return stack, or to end the process. -/
inductive EndStop (m : Processor) : Prop
  | message : m.pc = 49 + 5 → EndStop m
  | exit : lines[m.pc]? = some (.inst (.nullary .syscall)) →
      m.regs .rax = BitVec.ofInt 64 sysExit → EndStop m

def Ending : Processor → Prop :=
  Heading w lines (EndStop lines)

/-- Where the processor can be once the index of the return stack is loaded, the guard of a call
and the label of a full return stack apart. -/
inductive Station : Processor → List Nat → Prop
  | launch {m : Processor} : CodeAt lines m.pc (startRoutine.drop 3) → Holding w s 0 m [] →
      Station m []
  | entry {m : Processor} {calls : List Nat} {proc : String} : Holding w s calls.length m calls →
      Pending w p s lines strings proc calls → lines[m.pc]? = some (.label (.proc proc)) →
      Inside p s lines strings proc (m.pc + 1) → Station m calls
  | inside {m : Processor} {calls : List Nat} {proc : String} : Holding w s calls.length m calls →
      Pending w p s lines strings proc calls → Inside p s lines strings proc m.pc → Station m calls
  | printing {m : Processor} {calls : List Nat} {proc : String} {back : Nat} :
      Holding w s calls.length m calls → Pending w p s lines strings proc calls →
      Inside p s lines strings proc back →
      Processor.lineAt? w lines (w.code back) = some back → Printing w 5 back lines m →
      Station m calls
  | calling {m : Processor} {calls : List Nat} {proc name : String} {line stage : Nat} :
      CallSite w p s lines strings proc name line calls → Calling w s line stage m calls →
      2 ≤ stage → Station m calls
  | leaving {m : Processor} {rest : List Nat} {line back stage : Nat} :
      ReturnSite w p s lines strings line back rest → Leaving w s line back rest stage m →
      Station m (back :: rest)
  | ending {m : Processor} {calls : List Nat} : Holding w s calls.length m calls →
      Ending w lines m → Station m calls

end

variable {w : Platform} {p : Program} {s : Settings} {lines : List Line} {strings : Nat}
  {m m' : Processor} {calls calls' : List Nat} {proc : String}

/-- The entry procedure leaves by ending the process. -/
theorem Ending.exit (code : CodeAt lines m.pc (returnLines Source.entryPoint)) :
    Ending w lines m := by
  let m₁ := (m.set .rax (BitVec.ofInt 64 sysExit)).next
  let m₂ := (m₁.set .rdi (m₁.regs .rdi ^^^ m₁.regs .rdi)).mixed.next
  have walks : Walks w lines m ((returnLines Source.entryPoint).take 2) m₂ :=
    .inst (move_imm w m ..) (.inst (combine_regs w m₁ ..) .nil)
  refine ⟨_, m₂, code.slice 0 2, rfl, walks, .exit ?_ rfl⟩
  rw [walks.pc]
  exact code.getElem? rfl

theorem Pending.entry_or (h : Pending w p s lines strings proc calls) :
    (proc = Source.entryPoint ∧ calls = []) ∨ ∃ back rest, calls = back :: rest ∧
      (∃ caller, Pending w p s lines strings caller rest ∧ Inside p s lines strings caller back) ∧
      Processor.lineAt? w lines (w.code back) = some back := by
  cases h with
  | entry => exact .inl ⟨rfl, rfl⟩
  | call pending inside found => exact .inr ⟨_, _, rfl, ⟨_, pending, inside⟩, found⟩

/-! ### One step -/

section

variable (scene : Scene w p s lines strings)
  (hp : Proceeds w lines s.actualDepth.toNat m calls m' calls')

include hp

theorem Holding.inert {index : Nat} {l : Line} (h : Holding w s index m calls)
    (here : lines[m.pc]? = some l) (inert : l.isInert = true)
    (same : m'.regs .r13 = m.regs .r13) : calls' = calls ∧ Holding w s index m' calls :=
  ⟨hp.calls_eq.trans (outstanding_inert here inert calls),
    h.congr same (hp.spares.of_inert here inert)⟩

include scene

theorem step_ending (h : Holding w s calls.length m calls) (ending : Ending w lines m) :
    Station w p s lines strings m' calls' := by
  obtain stop | ⟨l, m₁, here, quiet, step, index, later⟩ := Heading.step ending
  · cases stop with
    | message place =>
      have here : lines[m.pc]? = some (.inst (.nullary .syscall)) := by
        rw [place]
        exact scene.overflow.getElem? rfl
      obtain ⟨value, changes, _, moved⟩ := Processor.stepInto_syscall here hp.step
      have index : m'.regs .r13 = m.regs .r13 := by
        rw [moved]
        rfl
      have place' : m'.pc = 49 + 6 := by rw [moved, place]
      let m₁ := (m'.set .rax (BitVec.ofInt 64 sysExit)).next
      let m₂ := (m₁.set .rdi (BitVec.ofInt 64 1)).next
      have walks : Walks w lines m' (((fatal .stackOverflow .overflow).drop 6).take 2) m₂ :=
        .inst (move_imm w m' ..) (.inst (move_imm w m₁ ..) .nil)
      obtain ⟨rfl, holding⟩ := h.inert hp here rfl index
      refine .ending holding ⟨_, m₂, place' ▸ scene.overflow.slice 6 2, rfl, walks, .exit ?_ rfl⟩
      have final : m₂.pc = 49 + 8 := by
        rw [walks.pc, place']
        rfl
      rw [final]
      exact scene.overflow.getElem? rfl
    | exit here call =>
      obtain ⟨value, changes, answer, _⟩ := Processor.stepInto_syscall here hp.step
      have values : argumentRegs.map m.regs =
          m.regs .rax :: m.regs .rdi :: argumentRegs.tail.tail.map m.regs := rfl
      -- this call does not come back, so there is no such step
      rw [values, call, scene.exits] at answer
      cases answer
  · have same := step.symm.trans hp.step
    cases same
    obtain ⟨rfl, holding⟩ := h.inert hp here quiet index
    exact .ending holding later

omit hp in
theorem Ending.inert (h : Ending w lines m) :
    ∃ l, lines[m.pc]? = some l ∧ l.isInert = true := by
  obtain stop | ⟨l, _, here, quiet, _⟩ := Heading.step h
  · cases stop with
    | message place => exact ⟨_, place ▸ scene.overflow.getElem? rfl, rfl⟩
    | exit here _ => exact ⟨_, here, rfl⟩
  · exact ⟨l, here, quiet⟩

theorem step_overflowing (h : Overflowing w s m calls) :
    Station w p s lines strings m' calls' := by
  have here : lines[m.pc]? = some (.label .stackOverflow) := by
    rw [h.pc]
    exact scene.overflow.1
  have same := (Processor.stepInto_label here).symm.trans hp.step
  cases same
  have place : m.next.pc = 49 + 1 := by rw [Processor.next_pc, h.pc]
  let m₁ := (m.next.set .rax (BitVec.ofInt 64 sysWrite)).next
  let m₂ := (m₁.set .rdi (BitVec.ofInt 64 stderrFile)).next
  let m₃ := (m₂.set .rsi ((labelLine? lines (.notice .overflow)).elim
    (w.place (.notice .overflow)) w.code)).next
  let m₄ := (m₃.set .rdx (w.place (.noticeLength .overflow))).next
  have walks : Walks w lines m.next (((fatal .stackOverflow .overflow).drop 1).take 4) m₄ :=
    .inst (move_imm w m.next ..) (.inst (move_imm w m₁ ..) (.inst rfl (.inst rfl .nil)))
  have ending : Ending w lines m.next := by
    refine ⟨_, m₄, place ▸ scene.overflow.slice 1 4, rfl, walks, .message ?_⟩
    rw [walks.pc, place]
    rfl
  rw [hp.calls_eq, outstanding_eq here (fun _ h => nomatch h) (fun _ h => nomatch h)]
  exact .ending (h.holding.congr rfl fun k _ => Processor.slot_of_ram rfl k) ending

theorem step_launch (code : CodeAt lines m.pc (startRoutine.drop 3)) (h : Holding w s 0 m [])
    (none : calls = []) : Station w p s lines strings m' calls' := by
  obtain ⟨here, behind, _⟩ := code
  obtain ⟨start, front, stands⟩ := scene.stands scene.entry
  obtain ⟨j, found, moved⟩ := Processor.stepInto_jump here hp.step
  rw [labelLine?_eq scene.nodup stands.entry, Option.some.injEq] at found
  subst found moved none
  -- a blank line stands behind this jump, so it is not a call
  have same : calls' = [] := by
    rw [hp.calls_eq]
    simp only [outstanding, here, behind]
  subst same
  have holding : Holding w s 0 { m with pc := start } [] :=
    h.congr rfl fun k _ => Processor.slot_of_ram rfl k
  exact .entry holding .entry stands.entry stands.inside

theorem step_plain {l next : Line} (h : Holding w s calls.length m calls)
    (pending : Pending w p s lines strings proc calls) (here : lines[m.pc]? = some l)
    (follows : lines[m.pc + 1]? = some next) (plain : l.isPlain p strings = true)
    (behind : Inside p s lines strings proc (m.pc + 1))
    (targets : ∀ x ∈ l.mentions, x.isLocal = true → ∀ j, labelLine? lines x = some j →
      Inside p s lines strings proc j) :
    Station w p s lines strings m' calls' := by
  obtain ⟨index, leads⟩ := plain_step plain here hp.step
  obtain ⟨rfl, holding⟩ := h.inert hp here (Line.isInert_of_isPlain plain) index
  rcases leads with place | ⟨x, hx, near, found⟩ | ⟨rfl, found, top⟩
  · exact .inside holding pending (place ▸ behind)
  · exact .inside holding pending (targets x hx near _ found)
  · have entry := labelLine?_eq scene.nodup scene.printing.1
    rw [entry, Option.some.injEq] at found
    exact .printing holding pending behind (scene.returns here follows)
      (.enter scene.printing found.symm top)

theorem step_inside (h : Holding w s calls.length m calls)
    (pending : Pending w p s lines strings proc calls)
    (inside : Inside p s lines strings proc m.pc) :
    Station w p s lines strings m' calls' ∨ (calls' = calls ∧
      ∃ name, CallSite w p s lines strings proc name m.pc calls ∧ Calling w s m.pc 1 m' calls) := by
  rcases inside.cases scene.nodup with code | ⟨l, next, here, follows, plain, behind, targets⟩ |
    ⟨name, n, known, code, behind⟩
  · by_cases main : proc = Source.entryPoint
    · subst main
      exact .inl (step_ending scene hp h (.exit code))
    · -- only the entry procedure runs without a call to come back from
      obtain ⟨entry, _⟩ | ⟨back, rest, rfl, caller, found⟩ := pending.entry_or
      · exact absurd entry main
      · obtain ⟨m₁, step, leaving⟩ := return_begins ⟨proc, main, code⟩ rfl h
        obtain ⟨rfl, rfl⟩ := step.det hp
        exact .inl (.leaving ⟨caller, found, proc, main, code⟩ leaving)
  · exact .inl (step_plain scene hp h pending here follows plain behind targets)
  · obtain ⟨m₁, step, calling⟩ := call_begins scene ⟨n, code⟩ rfl h
    obtain ⟨rfl, rfl⟩ := step.det hp
    exact .inr ⟨rfl, name, ⟨pending, known, ⟨n, code⟩, behind⟩, calling⟩

theorem step_guard {name : String} {line : Nat}
    (site : CallSite w p s lines strings proc name line calls) (h : Calling w s line 1 m calls) :
    calls' = calls ∧ (Station w p s lines strings m' calls ∨ Overflowing w s m' calls) := by
  cases h with
  | guard here h flags =>
    obtain ⟨m₁, step, leads⟩ := guard_decides scene site.code here h flags
    obtain ⟨rfl, rfl⟩ := step.det hp
    refine ⟨rfl, leads.imp_left fun passed => ?_⟩
    exact .calling site passed.2 (Nat.le_refl 2)

theorem step_calling {name : String} {line stage : Nat}
    (site : CallSite w p s lines strings proc name line calls) (h : Calling w s line stage m calls)
    (low : 2 ≤ stage) : Station w p s lines strings m' calls' := by
  by_cases high : stage < 5
  · obtain ⟨m₁, step, calling⟩ := h.advance scene site.code low high
    obtain ⟨rfl, rfl⟩ := step.det hp
    exact .calling site calling (by omega)
  · cases h with
    | dive here h =>
      obtain ⟨start, entry, inside, step⟩ := dive_enters scene site.code site.known here
      obtain ⟨rfl, rfl⟩ := step.det hp
      -- the return will find the label behind the jump by its address
      obtain ⟨n, code⟩ := site.code
      have jump : lines[line + 5]? = some (.inst (.jump (.proc name))) := code.getElem? rfl
      have back : lines[line + 6]? = some (.label (.label n)) := code.getElem? rfl
      have holding : Holding w s (calls.length + 1) { m with pc := start } ((line + 6) :: calls) :=
        h.congr rfl fun k _ => Processor.slot_of_ram rfl k
      exact .entry holding (.call site.pending site.behind (scene.returns jump back)) entry inside
    | _ => omega

theorem step_leaving {rest : List Nat} {line back stage : Nat}
    (site : ReturnSite w p s lines strings line back rest) (h : Leaving w s line back rest stage m)
    (held : calls = back :: rest) : Station w p s lines strings m' calls' := by
  subst held
  by_cases high : stage < 4
  · obtain ⟨m₁, step, leaving⟩ := h.advance scene.low site.code high
    obtain ⟨rfl, rfl⟩ := step.det hp
    exact .leaving site leaving
  · cases h with
    | land here h read =>
      have step : Proceeds w lines s.actualDepth.toNat m (back :: rest) _ rest :=
        land_returns site.code site.found here read
      obtain ⟨rfl, rfl⟩ := step.det hp
      obtain ⟨caller, pending, inside⟩ := site.pending
      exact .inside (h.congr rfl fun k _ => Processor.slot_of_ram rfl k) pending inside
    | _ => omega

/-- A step from a station leads to a station or to the guard of a call. -/
theorem Station.step (h : Station w p s lines strings m calls) :
    Station w p s lines strings m' calls' ∨ (calls' = calls ∧ ∃ proc name,
      CallSite w p s lines strings proc name m.pc calls ∧ Calling w s m.pc 1 m' calls) := by
  cases h with
  | launch code holding => exact .inl (step_launch scene hp code holding rfl)
  | entry holding pending here inside =>
    have same := (Processor.stepInto_label here).symm.trans hp.step
    cases same
    obtain ⟨rfl, holding⟩ := holding.inert hp here rfl rfl
    exact .inl (.inside holding pending inside)
  | inside holding pending inside =>
    refine (step_inside scene hp holding pending inside).imp_right fun ⟨same, name, site⟩ => ?_
    exact ⟨same, _, name, site⟩
  | printing holding pending inside found printing =>
    obtain ⟨l, here, quiet⟩ := printing.inert scene.printing
    obtain ⟨index, leads⟩ := printing.step scene.printing scene.nodup scene.writes found hp.step
    obtain ⟨rfl, holding⟩ := holding.inert hp here quiet index
    rcases leads with printing | rfl
    · exact .inl (.printing holding pending inside found printing)
    · exact .inl (.inside holding pending inside)
  | calling site calling low => exact .inl (step_calling scene hp site calling low)
  | leaving site leaving => exact .inl (step_leaving scene hp site leaving rfl)
  | ending holding ending => exact .inl (step_ending scene hp holding ending)

end

end StackLang.Target
