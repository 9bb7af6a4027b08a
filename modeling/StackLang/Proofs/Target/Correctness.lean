import Mathlib
import StackLang.Proofs.Target.Assembled
/-!
The generated assembly of a whole program, from the first instruction to the end of the process.
-/

namespace StackLang.Target

open Line
open Semantics (Setting State)
open Processor (Reaches Executes)

variable {p : Program} {s : Settings} {lines : List Line} {w : Platform}

/-- The processor when the process begins: at the line labelled `_start`, with the data in memory
and an empty stack. -/
structure Boots (w : Platform) (lines : List Line) (base : Word) (m : Processor) : Prop where
  pc : labelLine? lines .start = some m.pc
  rsp : m.regs .rsp = base
  ram : m.ram = w.image lines
  trace : m.trace = []

/-- A word that the program starts with as zero. -/
theorem Platform.Loads.image_word (loads : w.Loads lines) {x : Symbol}
    (hx : (x, List.replicate 8 0) ∈ dataOf lines) : (w.image lines).word (w.place x) = 0 := by
  refine Ram.word_of_zeros fun n hn => ?_
  exact loads.image_datum hx (List.getElem?_replicate_of_lt hn)

section

variable {code : List Line} {pool : Pool} (a : Assembled p s lines code pool)
  (loads : w.Loads lines) {room : Nat} {answer : Nat → List Word → Ram → Option Response}
  {base : Word} (space : 2 ^ 31 + 8 * room + 48 ≤ base.toNat) {m : Processor}
  (boots : Boots w lines base m)

include a

/-- The start of the program stands at its label. -/
theorem Assembled.start_code (pc : labelLine? lines .start = some m.pc) :
    CodeAt lines m.pc startRoutine := by
  have whole : lines = (header p.file false ++ printInt ++ fatal .stackUnderflow .underflow ++
      fatal .stackOverflow .overflow) ++ startRoutine ++ (code ++ memorySection p.memoryDecls ++
        dataSection s.actualDepth false pool.strings) := by
    rw [a.lines_eq, routines]
    simp only [List.append_assoc]
  have placed := codeAt_middle (header p.file false ++ printInt ++
    fatal .stackUnderflow .underflow ++ fatal .stackOverflow .overflow) startRoutine
    (code ++ memorySection p.memoryDecls ++ dataSection s.actualDepth false pool.strings)
  rw [← whole] at placed
  have here := labelLine?_eq a.nodup_labels placed.1
  rw [pc, Option.some.injEq] at here
  rwa [← here] at placed

include loads

/-- Remembering where the stack begins leaves the index of the return stack as it is. -/
theorem Assembled.index_kept (ram : Ram) (v : Word) :
    (ram.putWord (w.place .stackOrigin) v).word (w.place .returnIndex) =
      ram.word (w.place .returnIndex) := by
  have origin : (w.place .stackOrigin).toNat + 8 ≤ 2 ^ 31 := loads.below _ a.mem_origin
  have low : (w.place .returnIndex).toNat + 8 ≤ 2 ^ 31 := loads.below _ a.mem_index
  have apart : (w.place .stackOrigin).toNat + 8 ≤ (w.place .returnIndex).toNat ∨
      (w.place .returnIndex).toNat + 8 ≤ (w.place .stackOrigin).toNat :=
    loads.apart.forall a.mem_origin a.mem_index (by simp)
  exact Ram.word_putWord_apart ⟨by omega, by omega, apart⟩

include space boots

/-- The start of the program leads to the code of its entry procedure. -/
theorem Assembled.reaches_entry {i : Nat}
    (entry : lines[i]? = some (.label (.proc Source.entryPoint))) :
    ∃ m', Reaches w lines m m' ∧ m'.pc = i + 1 ∧
      Follows w (setting p s w lines room answer) base 0 m' ⟨[], w.image lines, []⟩ m' := by
  obtain ⟨here, rest⟩ := a.start_code boots.pc
  obtain ⟨first, jump, _⟩ := CodeAt.split
    [inst (.binary .mov (.mem (.symbol .stackOrigin)) (.reg .rsp)),
     mov .r13 (.mem (.symbol .returnIndex))] rest
  let m₁ := (m.next.withRam (m.next.ram.putWord (w.place .stackOrigin) (m.next.regs .rsp))).next
  let m₂ := (m₁.set .r13 (m₁.ram.word (w.place .returnIndex))).next
  have run : Executes w lines m.next [inst (.binary .mov (.mem (.symbol .stackOrigin)) (.reg .rsp)),
      mov .r13 (.mem (.symbol .returnIndex))] m₂ :=
    .inst (move_to_mem ..) (.inst (move_mem ..) .nil)
  obtain ⟨steps, place⟩ := run.reaches first
  let m₃ : Processor := { m₂ with pc := i }
  have goes : m₂.step w lines = some (.runs m₃) :=
    Processor.step_jump (place ▸ jump) (labelLine?_eq a.nodup_labels entry)
  have enters : m₃.step w lines = some (.runs m₃.next) := Processor.step_label entry
  have all := (((Processor.reaches_one (Processor.step_label here)).trans steps).tail goes).tail
    enters
  have ram : m₂.ram = (w.image lines).putWord (w.place .stackOrigin) base := by
    rw [← boots.ram, ← boots.rsp]
    rfl
  have ground : Ground w (setting p s w lines room answer) base := a.ground loads space
  have origin := ground.origin
  have index : m₁.ram.word (w.place .returnIndex) = 0 := by
    change m₂.ram.word _ = 0
    rw [ram, a.index_kept loads, loads.image_word a.mem_index]
  refine ⟨m₃.next, all, rfl, ⟨Nat.zero_le _, congrArg BitVec.toNat boots.rsp, trivial, ?_, ?_,
    index, Nat.zero_le _, ?_, fun _ _ => rfl⟩⟩
  · intro x hx
    have away := ground.owned_origin hx
    have high := x.isLt
    change m₂.ram x = _
    rw [ram]
    exact Ram.putWord_apart ⟨by omega, by omega, by omega⟩
  · change m₂.ram.word _ = base
    rw [ram, Ram.word_putWord]
  · have none : m₃.next.trace = [] := boots.trace
    rw [none]
    exact .nil

end

/-- A program with an inline, a loop and a call in it, which prints 6, 4 and 2. -/
def countdown : Program :=
  let op (o : Op) : Instr := .op default o
  let block (xs : List Instr) : Block := .mk default xs
  let routine (name : String) (xs : List Instr) : Routine :=
    { name, pos := default, namePos := default, body := block xs }
  let twice := routine "twice" [op .dup, op (.binary (.operator .add))]
  let shown := routine "show" [op .put, op .ret]
  let main := routine Source.entryPoint [op (.pushInt 3),
    .loop default (block [op .dup, op (.pushInt 0), op (.binary (.operator .gtr))])
      (block [op .dup, op (.ident "twice"), op (.ident "show"), op (.pushInt 1),
        op (.binary (.operator .sub))]),
    op .ret]
  ((({ file := "countdown" } : Program).insert (.inline twice)).insert (.proc shown)).insert
    (.proc main)

def countdownLines : List Line :=
  match generate countdown { depth := 1 } with
  | .ok lines => lines
  | .error _ => []

def countdownPlatform : Platform where
  place
    | .stackOrigin => 0x1000
    | .returnIndex => 0x1008
    | .returnStack => 0x1010
    | .notice .underflow => 0x2000
    | .notice .overflow => 0x3000
    | _ => 0x4000
  code := BitVec.ofNat 64
  kernel _ values _ := if values.head? = some 60 then .exits (values.getD 1 0) else .returns 0 []
  print m := { m with pc := m.pc + 1, trace := m.trace ++ [.put (m.regs .rdi)] }

def countdownSetting : Setting :=
  setting countdown { depth := 1 } countdownPlatform countdownLines 10 fun _ _ _ => none

def countdownStart : Processor where
  pc := 59
  regs _ := 0x7fff00000000
  flags := none
  ram := countdownPlatform.image countdownLines
  trace := []

theorem countdown_data : (dataOf countdownLines).map (fun d =>
    ((countdownPlatform.place d.1).toNat, d.2.length)) =
      [(0x1000, 8), (0x1008, 8), (0x1010, 16), (0x2000, 30), (0x3000, 29)] := by
  cbv

theorem countdown_loads : countdownPlatform.Loads countdownLines where
  below := by
    have all : ∀ e ∈ (dataOf countdownLines).map (fun d =>
        ((countdownPlatform.place d.1).toNat, d.2.length)), e.1 + e.2 ≤ 2 ^ 31 := by
      rw [countdown_data]
      decide
    exact List.forall_mem_map.mp all
  apart := by
    have all : ((dataOf countdownLines).map (fun d =>
        ((countdownPlatform.place d.1).toNat, d.2.length))).Pairwise
          (fun d e => d.1 + d.2 ≤ e.1 ∨ e.1 + e.2 ≤ d.1) := by
      rw [countdown_data]
      decide
    rw [List.pairwise_map] at all
    exact all
  code := by
    intro i j k x low high bound _ same
    have length : countdownLines.length ≤ 1000 := by cbv
    have number := congrArg BitVec.toNat same
    simp only [countdownPlatform, BitVec.toNat_ofNat] at number
    omega

theorem countdown_prints : countdownPlatform.Prints where
  pc _ := rfl
  trace _ := rfl
  rsp _ := rfl
  r13 _ := rfl
  ram _ _ _ := rfl

end StackLang.Target
