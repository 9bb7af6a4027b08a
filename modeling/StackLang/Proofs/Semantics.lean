import StackLang.Proofs.Machine.Ram
import StackLang.Proofs.Source.Grammar
/-!
What programs do: a machine with a stack of words, memory by bytes and procedure calls, whose
output is a sequence of printed numbers and system calls.
-/

namespace StackLang

/-- One or zero. -/
def bit (b : Bool) : Word :=
  if b then 1 else 0

/-- What an operator makes of its left and right operand. Division is signed and towards zero, and
has no result where the divisor is zero or the quotient does not fit. -/
def Operator.apply? : Operator → Word → Word → Option Word
  | .add, a, b => some (a + b)
  | .sub, a, b => some (a - b)
  | .mul, a, b => some (a * b)
  | .div, a, b =>
    if b = 0 ∨ a.toInt.tdiv b.toInt = 2 ^ 63 then none
    else some (BitVec.ofInt 64 (a.toInt.tdiv b.toInt))
  | .rem, a, b =>
    if b = 0 ∨ a.toInt.tdiv b.toInt = 2 ^ 63 then none
    else some (BitVec.ofInt 64 (a.toInt.tmod b.toInt))
  | .eql, a, b => some (bit (a = b))
  | .neq, a, b => some (bit (a ≠ b))
  | .lss, a, b => some (bit (a.toInt < b.toInt))
  | .leq, a, b => some (bit (a.toInt ≤ b.toInt))
  | .gtr, a, b => some (bit (a.toInt > b.toInt))
  | .geq, a, b => some (bit (a.toInt ≥ b.toInt))
  | .both, a, b => some (bit (a ≠ 0 ∧ b ≠ 0))
  | .either, a, b => some (bit (a ≠ 0 ∨ b ≠ 0))

namespace Semantics

open Source (Part)

/-- Why a run has no meaning: a value is missing from the stack, the stack is full, a division has
no result, `pick` goes below the stack, memory is touched that is not the program's, calls nest too
deep, a system call has no answer that its values determine, or the program is broken. -/
inductive Fault where
  | underflow
  | full
  | division
  | pick
  | foreign
  | nesting
  | unanswered
  | broken
  deriving DecidableEq

/-- The stack, the top in front, the memory, and what has been seen so far. -/
structure State where
  stack : List Word
  ram : Ram
  trace : List Event

/-- How a part of a body ends: the next part follows, the procedure is left, the process ends, the
run has no meaning, or the steps allowed do not suffice. -/
inductive Outcome where
  | next (s : State)
  | returned (s : State)
  | exited (status : Word) (trace : List Event)
  | faulted (f : Fault)
  | unfinished

/-- What a run depends on: the program, how deep calls may nest, how many words the stack may hold,
where regions and strings stand, which bytes are the program's own, and what the system answers to
the values of a call. -/
structure Setting where
  program : Program
  depth : Nat
  room : Nat
  region : String → Word
  text : String → Word
  owned : Word → Bool
  answer : Nat → List Word → Ram → Option Response

namespace Outcome

/-- Goes on to the next part. -/
def andThen (o : Outcome) (f : State → Outcome) : Outcome :=
  match o with
  | .next s => f s
  | o => o

/-- Takes a condition from the stack. -/
def test (o : Outcome) (yes no : State → Outcome) : Outcome :=
  o.andThen fun s =>
    match s.stack with
    | [] => .faulted .underflow
    | v :: st => if v = 0 then no { s with stack := st } else yes { s with stack := st }

/-- What a call makes of the end of the procedure. -/
def resume : Outcome → Outcome
  | .returned s => .next s
  | o => o

end Outcome

namespace Setting

/-- Goes on with a stack, if it is not too high. -/
def settle (g : Setting) (s : State) (stack : List Word) : Outcome :=
  if stack.length ≤ g.room then .next { s with stack } else .faulted .full

/-- Whether bytes from an address on are the program's own. -/
def owns (g : Setting) (a : Word) (n : Nat) : Bool :=
  (List.range n).all fun i => g.owned (a + BitVec.ofNat 64 i)

/-- A system call with the values that were on the stack. -/
def syscall (g : Setting) (s : State) (values rest : List Word) : Outcome :=
  match g.answer s.trace.length values s.ram with
  | none => .faulted .unanswered
  | some (.exits status) => .exited status s.trace
  | some (.returns v writes) =>
    if writes.all fun e => g.owned e.1 then
      g.settle { s with ram := s.ram.patch writes, trace := s.trace ++ [.syscall values s.ram] }
        (v :: rest)
    else .faulted .foreign

/-- An instruction without parts that is no name. -/
def op (g : Setting) (proc : String) (s : State) : Op → Outcome
  | .pushInt v => g.settle s (v.toBitVec :: s.stack)
  | .pushStr v _ =>
    g.settle s (g.text v :: BitVec.ofNat 64 (Text.bytesOf v).length :: s.stack)
  | .binary (.operator o) =>
    match s.stack with
    | b :: a :: st =>
      match o.apply? a b with
      | some c => g.settle s (c :: st)
      | none => .faulted .division
    | _ => .faulted .underflow
  | .binary _ => .faulted .broken
  | .pop =>
    match s.stack with
    | _ :: st => g.settle s st
    | _ => .faulted .underflow
  | .dup =>
    match s.stack with
    | a :: st => g.settle s (a :: a :: st)
    | _ => .faulted .underflow
  | .swap =>
    match s.stack with
    | a :: b :: st => g.settle s (b :: a :: st)
    | _ => .faulted .underflow
  | .over =>
    match s.stack with
    | a :: b :: st => g.settle s (b :: a :: b :: st)
    | _ => .faulted .underflow
  | .rot =>
    match s.stack with
    | a :: b :: c :: st => g.settle s (c :: a :: b :: st)
    | _ => .faulted .underflow
  | .pick =>
    match s.stack with
    | n :: st =>
      match st[n.toNat]? with
      | some v => g.settle s (v :: st)
      | none => .faulted .pick
    | _ => .faulted .underflow
  | .put =>
    match s.stack with
    | v :: st => g.settle { s with trace := s.trace ++ [.put v] } st
    | _ => .faulted .underflow
  | .size => g.settle s (BitVec.ofNat 64 s.stack.length :: s.stack)
  | .ret => if proc = Source.entryPoint then .exited 0 s.trace else .returned s
  | .load w =>
    match s.stack with
    | a :: st =>
      if g.owns a w.toNat then g.settle s (BitVec.ofNat 64 (s.ram.load a w.toNat) :: st)
      else .faulted .foreign
    | _ => .faulted .underflow
  | .store w =>
    match s.stack with
    | v :: a :: st =>
      if g.owns a w.toNat then g.settle { s with ram := s.ram.store a w.toNat v.toNat } st
      else .faulted .foreign
    | _ => .faulted .underflow
  | .syscall n =>
    if n.toNat ≤ s.stack.length then
      g.syscall s (s.stack.take n.toNat) (s.stack.drop n.toNat)
    else .faulted .underflow
  | .ident _ => .faulted .broken

/-- Runs a part of the body of a procedure, below the given number of calls, with as many nested
steps as the first number allows. -/
def run (g : Setting) : Nat → String → Nat → Part → State → Outcome
  | 0, _, _, _, _ => .unfinished
  | fuel + 1, proc, calls, part, s =>
    let body (b : Block) := run g fuel proc calls (.block b.instrs)
    match part with
    | .block [] => .next s
    | .block (x :: xs) =>
      (run g fuel proc calls (.instr x) s).andThen (run g fuel proc calls (.block xs))
    | .instr (.op _ (.ident name)) =>
      match g.program.inlines.get? name with
      | some d => body d.body s
      | none =>
        if g.program.memories.contains name then g.settle s (g.region name :: s.stack)
        else
          match g.program.procs.get? name with
          | none => .faulted .broken
          | some r =>
            if calls < g.depth then
              (run g fuel r.name (calls + 1) (.block r.body.instrs) s).resume
            else .faulted .nesting
    | .instr (.op _ o) => g.op proc s o
    | .instr (.branch pos c b es o) => run g fuel proc calls (.tail (.mk pos c b :: es) o) s
    | .tail [] o => body o s
    | .tail (.mk _ c b :: es) o =>
      (body c s).test (body b) (run g fuel proc calls (.tail es o))
    | .instr (.loop pos c b) =>
      (body c s).test (fun s => (body b s).andThen (run g fuel proc calls (.instr (.loop pos c b))))
        .next

/-- Runs a program from its entry procedure, with an empty stack. -/
def start (g : Setting) (fuel : Nat) (ram : Ram) : Outcome :=
  match g.program.entry? with
  | none => .faulted .broken
  | some r => g.run fuel r.name 0 (.block r.body.instrs) ⟨[], ram, []⟩

/-- A body that ends by leaving its procedure is never run past. -/
theorem run_ne_next {g : Setting} {fuel : Nat} {proc : String} {calls : Nat} {xs : List Instr}
    (last : xs.getLast?.any Instr.isReturn = true) {s s' : State} :
    g.run fuel proc calls (.block xs) s ≠ .next s' := by
  induction xs generalizing fuel s with
  | nil => cases last
  | cons x xs ih =>
    cases fuel with
    | zero => nofun
    | succ fuel =>
      rw [run]
      cases xs with
      | nil =>
        obtain ⟨p, rfl⟩ : ∃ p, x = .op p .ret := by
          cases x with
          | op p o => cases o <;> first | exact ⟨p, rfl⟩ | cases last
          | branch | loop => cases last
        cases fuel with
        | zero => nofun
        | succ fuel =>
          rw [run, op]
          · split <;> nofun
          · nofun
      | cons y ys =>
        rw [List.getLast?_cons_cons] at last
        cases g.run fuel proc calls (.instr x) s with
        | next s₁ => exact ih last
        | _ => nofun

end Setting

end Semantics

end StackLang
