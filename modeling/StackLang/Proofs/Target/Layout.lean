import Mathlib.Data.List.Pairwise
import StackLang.Proofs.Machine.Execution
import StackLang.Proofs.Semantics
import StackLang.Target.Generate
/-!
The data of a program in memory, and what is taken for granted of the platform it runs on.
-/

namespace StackLang.Target

open Semantics (Setting)

/-- The bytes that a line puts into memory, and the symbol at which they stand. -/
def Line.datum? : Line → Option (Symbol × List (BitVec 8))
  | .reserve s size => some (s, List.replicate size.toNat 0)
  | .word s => some (s, List.replicate 8 0)
  | .words s count => some (s, List.replicate (8 * count.toNat) 0)
  | .data s bytes terminated =>
    some (s, bytes.map UInt8.toBitVec ++ if terminated then [0] else [])
  | _ => none

def dataOf (lines : List Line) : List (Symbol × List (BitVec 8)) :=
  lines.filterMap Line.datum?

/-- Whether the bytes at a symbol are those of a region or a string of the program. -/
def Symbol.isOwn : Symbol → Bool
  | .memory _ => true
  | .string _ => true
  | _ => false

namespace Platform

variable (w : Platform) (lines : List Line)

/-- The memory when the program starts. -/
def image : Ram := fun a =>
  ((dataOf lines).findSome? fun d => d.2[(a - w.place d.1).toNat]?).getD 0

/-- Whether a byte belongs to a region or a string of the program. -/
def owned (a : Word) : Bool :=
  (dataOf lines).any fun d => d.1.isOwn && (a - w.place d.1).toNat < d.2.length

/-- The place of a string, if the line puts it into memory. -/
def textAt? (value : String) : Line → Option Word
  | .data (.string i) bytes true =>
    if bytes = Text.bytesOf value then some (w.place (.string i)) else none
  | _ => none

/-- The place of a string, found among the data by its bytes. -/
def textPlace (value : String) : Word :=
  (lines.findSome? (w.textAt? value)).getD 0

/-- Two data have no byte in common. -/
def Divides (d e : Symbol × List (BitVec 8)) : Prop :=
  (w.place d.1).toNat + d.2.length ≤ (w.place e.1).toNat ∨
    (w.place e.1).toNat + e.2.length ≤ (w.place d.1).toNat

/-- What the assembler, the linker and the loader do with the lines: all data stands apart and can
be addressed with 31 bits, and lines divided by an instruction have different addresses. -/
structure Loads : Prop where
  below : ∀ d ∈ dataOf lines, (w.place d.1).toNat + d.2.length ≤ 2 ^ 31
  apart : (dataOf lines).Pairwise w.Divides
  code : ∀ {i j k : Nat} {x : Inst}, i ≤ k → k < j → j < lines.length →
    lines[k]? = some (.inst x) → w.code i ≠ w.code j

/-- The printing routine prints its argument. It comes back behind the call with the stack as it
was, and changes nothing but the 48 bytes below the stack. -/
structure Prints : Prop where
  pc : ∀ m, (w.print m).pc = m.pc + 1
  trace : ∀ m, (w.print m).trace = m.trace ++ [.put (m.regs .rdi)]
  rsp : ∀ m, (w.print m).regs .rsp = m.regs .rsp
  r13 : ∀ m, (w.print m).regs .r13 = m.regs .r13
  ram : ∀ m a, a.toNat + 48 < (m.regs .rsp).toNat ∨ (m.regs .rsp).toNat ≤ a.toNat →
    (w.print m).ram a = m.ram a

/-- The system call that ends the process does so, with the status it is given. -/
def Exits : Prop :=
  ∀ time status rest ram, w.kernel time (BitVec.ofInt 64 sysExit :: status :: rest) ram =
    .exits status

/-- The system answers as the setting says wherever the values of a call determine the answer: it
does not matter what the other argument registers hold, nor what memory holds that is not the
program's own. -/
def Answers (g : Setting) : Prop :=
  ∀ {time values ram response}, g.answer time values ram = some response →
    ∀ {values' : List Word} {ram' : Ram}, values <+: values' →
      (∀ a, g.owned a → ram' a = ram a) → w.kernel time values' ram' = response

end Platform

/-- The setting in which a program runs on a platform. -/
def setting (p : Program) (s : Settings) (w : Platform) (lines : List Line) (room : Nat)
    (answer : Nat → List Word → Ram → Option Response) : Setting where
  program := p
  depth := s.actualDepth.toNat
  room := room
  region name := w.place (.memory name)
  text := w.textPlace lines
  owned := w.owned lines
  answer := answer

/-- The events of a run and those of the processor: the same numbers are printed, and the same
values are given to the system, in the first argument registers, with the same bytes in the
program's own memory. -/
inductive Shows (g : Setting) : Event → Event → Prop
  | put {v : Word} : Shows g (.put v) (.put v)
  | syscall {values values' : List Word} {ram ram' : Ram} : values <+: values' →
      (∀ a, g.owned a → ram' a = ram a) → Shows g (.syscall values ram) (.syscall values' ram')

/-- Data that lies where the generated code needs it: the stack above all data, and the data of the
runtime apart from that of the program. -/
structure Ground (w : Platform) (g : Setting) (base : Word) : Prop where
  stack : 2 ^ 31 + 8 * g.room + 48 ≤ base.toNat
  origin : (w.place .stackOrigin).toNat + 8 ≤ 2 ^ 31
  slots : (w.place .returnStack).toNat + 8 * (g.depth + 1) ≤ 2 ^ 31
  split : (w.place .stackOrigin).toNat + 8 ≤ (w.place .returnStack).toNat ∨
    (w.place .returnStack).toNat + 8 * (g.depth + 1) ≤ (w.place .stackOrigin).toNat
  owned : ∀ {a}, g.owned a → a.toNat < 2 ^ 31
  owned_origin : ∀ {a}, g.owned a → a.toNat < (w.place .stackOrigin).toNat ∨
    (w.place .stackOrigin).toNat + 8 ≤ a.toNat
  owned_slots : ∀ {a}, g.owned a → a.toNat < (w.place .returnStack).toNat ∨
    (w.place .returnStack).toNat + 8 * (g.depth + 1) ≤ a.toNat

theorem toNat_of_sub_lt {a b : Word} {n : Nat} (h : (a - b).toNat < n) (hb : b.toNat + n ≤ 2 ^ 31) :
    b.toNat ≤ a.toNat ∧ a.toNat < b.toNat + n := by
  rw [BitVec.toNat_sub] at h
  omega

namespace Platform

variable {w : Platform} {lines : List Line}

instance : Std.Symm w.Divides :=
  ⟨fun _ _ h => h.symm⟩

theorem owned_iff {a : Word} : w.owned lines a = true ↔
    ∃ d ∈ dataOf lines, d.1.isOwn = true ∧ (a - w.place d.1).toNat < d.2.length := by
  simp [owned]

/-- The bytes of the program lie apart from any data that is not the program's. -/
theorem Loads.owned_apart (h : w.Loads lines) {a : Word} (ha : w.owned lines a)
    {d : Symbol × List (BitVec 8)} (hd : d ∈ dataOf lines) (foreign : d.1.isOwn = false) :
    a.toNat < (w.place d.1).toNat ∨ (w.place d.1).toNat + d.2.length ≤ a.toNat := by
  obtain ⟨e, he, own, inside⟩ := owned_iff.mp ha
  have bounds := toNat_of_sub_lt inside (h.below e he)
  have hne : d ≠ e := by
    rintro rfl
    rw [foreign] at own
    cases own
  have apart := h.apart.forall hd he hne
  unfold Divides at apart
  omega

theorem Loads.owned_low (h : w.Loads lines) {a : Word} (ha : w.owned lines a) :
    a.toNat < 2 ^ 31 := by
  obtain ⟨e, he, _, inside⟩ := owned_iff.mp ha
  have bounds := toNat_of_sub_lt inside (h.below e he)
  have below := h.below e he
  omega

/-- The memory at the start holds the data. -/
theorem Loads.image_datum (h : w.Loads lines) {d : Symbol × List (BitVec 8)}
    (hd : d ∈ dataOf lines) {i : Nat} {b : BitVec 8} (hb : d.2[i]? = some b) :
    w.image lines (w.place d.1 + BitVec.ofNat 64 i) = b := by
  have hi : i < d.2.length := (List.getElem?_eq_some_iff.mp hb).1
  have below := h.below d hd
  have place : (w.place d.1 + BitVec.ofNat 64 i).toNat = (w.place d.1).toNat + i := by
    rw [BitVec.toNat_add, BitVec.toNat_ofNat]
    omega
  have found : ∀ e ∈ dataOf lines,
      e.2[(w.place d.1 + BitVec.ofNat 64 i - w.place e.1).toNat]? = none ∨ e = d := by
    intro e he
    by_cases hne : e = d
    · exact .inr hne
    · refine .inl (List.getElem?_eq_none ?_)
      have apart := h.apart.forall he hd hne
      have low := h.below e he
      unfold Divides at apart
      rw [BitVec.toNat_sub, place]
      omega
  have here : d.2[(w.place d.1 + BitVec.ofNat 64 i - w.place d.1).toNat]? = some b := by
    rw [Ram.add_sub_toNat (by omega), hb]
  unfold image
  generalize dataOf lines = data at hd found
  induction data with
  | nil => cases hd
  | cons e rest ih =>
    rw [List.findSome?_cons]
    by_cases heq : e = d
    · rw [heq, here]
      rfl
    · have none := (found e (by simp)).resolve_right heq
      rw [none]
      refine ih ?_ fun e he => found e (List.mem_cons_of_mem _ he)
      exact (List.mem_cons.mp hd).resolve_left fun h => heq h.symm

end Platform

end StackLang.Target
