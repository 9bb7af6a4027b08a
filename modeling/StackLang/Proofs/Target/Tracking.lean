import StackLang.Proofs.Machine.Arithmetic
import StackLang.Proofs.Target.Mirror
/-!
The generated code keeps pace with a run: whatever way a part of a body ends, the processor gets to
where that way leads.
-/

namespace StackLang.Target

open Semantics (Setting State Outcome)
open Processor (Reaches Executes)

/-- What the code of a part of a body does from a state of the processor on, when the part ends in
a given way. The next part begins at the line `pc`, the procedure comes back to the line `back`, and
the process ends as it should. -/
def Simulates (w : Platform) (prog : List Line) (g : Setting) (base : Word) (calls : Nat)
    (m₀ : Processor) (back pc : Nat) (m : Processor) : Outcome → Prop
  | .next s => ∃ m', Reaches w prog m m' ∧ m'.pc = pc ∧ Follows w g base calls m₀ s m'
  | .returned s => ∃ m' n, Reaches w prog m m' ∧ m'.pc = back ∧ calls = n + 1 ∧
      Follows w g base n m₀ s m'
  | .exited status trace => ∃ m' trace', Reaches w prog m m' ∧
      m'.step w prog = some (.exits status trace') ∧ List.Forall₂ (Shows g) trace trace'
  | .faulted _ => True
  | .unfinished => True

variable {w : Platform} {prog : List Line} {g : Setting} {base : Word} {calls back pc pc' : Nat}
  {m₀ m m' : Processor} {s : State} {o : Outcome}

namespace Simulates

theorem after (steps : Reaches w prog m m')
    (h : Simulates w prog g base calls m₀ back pc m' o) :
    Simulates w prog g base calls m₀ back pc m o := by
  cases o with
  | next s =>
    obtain ⟨m'', more, rest⟩ := h
    exact ⟨m'', steps.trans more, rest⟩
  | returned s =>
    obtain ⟨m'', n, more, rest⟩ := h
    exact ⟨m'', n, steps.trans more, rest⟩
  | exited status trace =>
    obtain ⟨m'', trace', more, rest⟩ := h
    exact ⟨m'', trace', steps.trans more, rest⟩
  | faulted | unfinished => trivial

theorem andThen {f : State → Outcome} (h : Simulates w prog g base calls m₀ back pc m o)
    (later : ∀ s m', m'.pc = pc → Follows w g base calls m₀ s m' →
      Simulates w prog g base calls m₀ back pc' m' (f s)) :
    Simulates w prog g base calls m₀ back pc' m (o.andThen f) := by
  cases o with
  | next s =>
    obtain ⟨m', steps, place, follows⟩ := h
    exact (later s m' place follows).after steps
  | _ => exact h

/-- A straight run through the code of a part that goes on to the next one. -/
theorem straight {code : List Line} (hc : CodeAt prog m.pc code)
    (run : Executes w prog m code m') (h : Follows w g base calls m₀ s m') :
    Simulates w prog g base calls m₀ back (m.pc + code.length) m (.next s) := by
  obtain ⟨steps, place⟩ := run.reaches hc
  exact ⟨m', steps, place, h⟩

/-- Another stack is left, for which there must be room. -/
theorem settled {stack : List Word} (h : stack.length ≤ g.room →
      Simulates w prog g base calls m₀ back pc m (.next { s with stack })) :
    Simulates w prog g base calls m₀ back pc m (g.settle s stack) := by
  unfold Setting.settle
  split
  next room => exact h room
  next => trivial

theorem settle {code : List Line} {stack : List Word} (hc : CodeAt prog m.pc code)
    (h : stack.length ≤ g.room →
      ∃ m', Executes w prog m code m' ∧ Follows w g base calls m₀ { s with stack } m') :
    Simulates w prog g base calls m₀ back (m.pc + code.length) m (g.settle s stack) := by
  refine settled fun room => ?_
  obtain ⟨m', run, follows⟩ := h room
  exact straight hc run follows

/-- The jump at the end of a part. -/
theorem jump {target : Symbol} {i : Nat} (h : Simulates w prog g base calls m₀ back pc m o)
    (hj : prog[pc]? = some (.inst (.jump target))) (ht : labelLine? prog target = some i) :
    Simulates w prog g base calls m₀ back i m o := by
  cases o with
  | next s =>
    obtain ⟨m', steps, rfl, follows⟩ := h
    exact ⟨_, steps.tail (Processor.step_jump hj ht), rfl, follows.jumped i⟩
  | _ => exact h

/-- The label at the end of a part. -/
theorem label {target : Symbol} (h : Simulates w prog g base calls m₀ back pc m o)
    (hl : prog[pc]? = some (.label target)) :
    Simulates w prog g base calls m₀ back (pc + 1) m o := by
  cases o with
  | next s =>
    obtain ⟨m', steps, rfl, follows⟩ := h
    exact ⟨_, steps.tail (Processor.step_label hl), rfl, follows.next⟩
  | _ => exact h

/-- The jump that a condition decides. -/
theorem test {target : Symbol} {i : Nat} {yes no : State → Outcome}
    (h : Simulates w prog g base calls m₀ back pc m o) (hc : CodeAt prog pc (jumpIfZero target))
    (ht : labelLine? prog target = some i)
    (hyes : ∀ s m', m'.pc = pc + 3 → Follows w g base calls m₀ s m' →
      Simulates w prog g base calls m₀ back pc' m' (yes s))
    (hno : ∀ s m', m'.pc = i → Follows w g base calls m₀ s m' →
      Simulates w prog g base calls m₀ back pc' m' (no s)) :
    Simulates w prog g base calls m₀ back pc' m (o.test yes no) := by
  refine h.andThen ?_
  rintro ⟨stack, ram, trace⟩ m' rfl follows
  cases stack with
  | nil => trivial
  | cons v st =>
    obtain ⟨taken, value⟩ := follows.popped rfl (r := .rax) (by decide) (by decide)
    have zero : (Flags.test v).holds .z = decide (v = 0) := rfl
    have effect := effect_test w (m'.popped .rax).next .rax prog
    rw [Processor.next_regs, value] at effect
    dsimp only
    by_cases hv : v = 0
    · obtain ⟨first, last, _⟩ := CodeAt.split [pop .rax, both .test .rax .rax] hc
      obtain ⟨steps, place⟩ := (Executes.inst rfl (.inst effect .nil)).reaches first
      rw [if_pos hv]
      have holds : (Flags.test v).holds .z = true := zero.trans (decide_eq_true hv)
      have goes := Processor.step_jumpIf (w := w) (place ▸ last) rfl holds ht
      refine (hno _ _ rfl ?_).after (steps.tail goes)
      exact taken.same rfl rfl rfl rfl
    · have fails : (Flags.test v).holds .z = false := zero.trans (decide_eq_false hv)
      obtain ⟨steps, place⟩ :=
        (Executes.inst rfl (.inst effect (.pass rfl fails .nil))).reaches hc
      rw [if_neg hv]
      exact (hyes _ _ place (taken.same rfl rfl rfl rfl)).after steps

end Simulates

end StackLang.Target
