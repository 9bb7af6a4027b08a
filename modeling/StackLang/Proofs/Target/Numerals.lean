import StackLang.Proofs.Target.Correctness
import StackLang.Proofs.Target.Printing
/-!
What the printing routine prints. It builds the numeral of its argument from right to left below the
saved frame pointer, shows it and comes back, and no line of it writes outside its frame.
-/

namespace StackLang

/-! ### Bytes below an address -/

/-- Whether an address is among so many bytes below another one. -/
def Below (top : Word) (size : Nat) (a : Word) : Prop :=
  0 < (top - a).toNat ∧ (top - a).toNat ≤ size

theorem Below.mono {top a : Word} {size size' : Nat} (h : Below top size a) (le : size ≤ size') :
    Below top size' a :=
  ⟨h.1, Nat.le_trans h.2 le⟩

namespace Ram

variable {ram ram' : Ram} {a b top : Word} {v : Nat}

@[simp] theorem store_byte_self : ram.store a 1 v a = BitVec.ofNat 8 v := by
  simp [store]

theorem store_byte_of_ne (h : b ≠ a) : ram.store a 1 v b = ram b := by
  refine if_neg fun near => h ?_
  have same : (b - a).toNat = 0 := by omega
  exact BitVec.sub_eq_iff_eq_add.mp (BitVec.eq_of_toNat_eq same) |>.trans (BitVec.zero_add a)

/-- A word that is pushed is among the eight bytes below the stack. -/
theorem putWord_below {x : Word} (h : ¬ Below top 8 a) : ram.putWord (top - 8) x a = ram a := by
  refine if_neg fun near => h ?_
  unfold Below
  bv_omega

/-- The characters that stand in memory from an address on, each in a byte. -/
def Spells (ram : Ram) : Word → List Char → Prop
  | _, [] => True
  | a, c :: cs => ram a = BitVec.ofNat 8 c.toNat ∧ ram.Spells (a + 1) cs

theorem succ_offset (a : Word) (i : Nat) :
    a + BitVec.ofNat 64 (i + 1) = a + 1 + BitVec.ofNat 64 i := by
  rw [BitVec.add_assoc, BitVec.ofNat_add, BitVec.add_comm 1]
  rfl

theorem Spells.congr {cs : List Char} (h : ram.Spells a cs)
    (same : ∀ i < cs.length, ram' (a + BitVec.ofNat 64 i) = ram (a + BitVec.ofNat 64 i)) :
    ram'.Spells a cs := by
  induction cs generalizing a with
  | nil => trivial
  | cons c cs ih =>
    obtain ⟨first, rest⟩ := h
    have here := same 0 (by simp)
    rw [BitVec.add_zero] at here
    refine ⟨here.trans first, ih rest fun i hi => ?_⟩
    rw [← succ_offset]
    exact same (i + 1) (by simpa using hi)

theorem Spells.read {cs : List Char} (h : ram.Spells a cs) :
    (List.range cs.length).map (fun i => ram (a + BitVec.ofNat 64 i)) =
      cs.map fun c => BitVec.ofNat 8 c.toNat := by
  induction cs generalizing a with
  | nil => rfl
  | cons c cs ih =>
    obtain ⟨first, rest⟩ := h
    rw [List.length_cons, List.range_succ_eq_map, List.map_cons, List.map_map, List.map_cons,
      ← ih rest, BitVec.add_zero, first]
    simp only [Function.comp_def, succ_offset]

/-- A character in front of others. -/
theorem Spells.store {cs : List Char} (h : ram.Spells a cs) (short : cs.length < 2 ^ 64) {c : Char}
    (hv : BitVec.ofNat 8 v = BitVec.ofNat 8 c.toNat) :
    (ram.store (a - 1) 1 v).Spells (a - 1) (c :: cs) := by
  refine ⟨by rw [store_byte_self, hv], ?_⟩
  rw [BitVec.sub_add_cancel]
  refine h.congr fun i hi => store_byte_of_ne fun same => ?_
  have places := congrArg BitVec.toNat same
  rw [BitVec.toNat_add, BitVec.toNat_sub, BitVec.toNat_ofNat] at places
  have bound := a.isLt
  have one : (1 : Word).toNat = 1 := rfl
  omega

end Ram

namespace Target

open Line

namespace Processor

/-- One line, if it writes to no byte but so many below an address. -/
def StepsBelow (w : Platform) (prog : List Line) (top : Word) (size : Nat) (m m' : Processor) :
    Prop :=
  m.stepInto w prog = some (.runs m') ∧ ∀ a, ¬ Below top size a → m'.ram a = m.ram a

/-- Some such lines one after another. -/
def RunsBelow (w : Platform) (prog : List Line) (top : Word) (size : Nat) :
    Processor → Processor → Prop :=
  Relation.ReflTransGen (StepsBelow w prog top size)

/-- A straight way through some lines that write to no byte but so many below an address. -/
inductive Strides (w : Platform) (prog : List Line) (top : Word) (size : Nat) :
    Processor → List Line → Processor → Prop
  | nil {m : Processor} : Strides w prog top size m [] m
  | inst {m mid m' : Processor} {i : Inst} {rest : List Line} : m.effect w prog i = some mid →
      (∀ a, ¬ Below top size a → mid.ram a = m.ram a) → Strides w prog top size mid.next rest m' →
      Strides w prog top size m (.inst i :: rest) m'
  | label {m m' : Processor} {s : Symbol} {rest : List Line} :
      Strides w prog top size m.next rest m' → Strides w prog top size m (.label s :: rest) m'

variable {w : Platform} {prog : List Line} {top : Word} {size : Nat} {m m' mid : Processor}

/-- An instruction that does not write to memory. -/
theorem Strides.quiet {i : Inst} {rest : List Line} (effect : m.effect w prog i = some mid)
    (same : mid.ram = m.ram) (later : Strides w prog top size mid.next rest m') :
    Strides w prog top size m (.inst i :: rest) m' :=
  .inst effect (fun a _ => congrFun same a) later

theorem Strides.runs {code : List Line} (h : Strides w prog top size m code m')
    (placed : CodeAt prog m.pc code) :
    RunsBelow w prog top size m m' ∧ m'.pc = m.pc + code.length := by
  induction h with
  | nil => exact ⟨.refl, rfl⟩
  | @inst m mid m' i rest effect kept _ ih =>
    have place : mid.next.pc = m.pc + 1 := congrArg (· + 1) (effect_pc effect)
    obtain ⟨runs, pc⟩ := ih (place ▸ placed.2)
    refine ⟨.head ⟨stepInto_effect placed.1 effect, kept⟩ runs, ?_⟩
    rw [pc, place, List.length_cons]
    omega
  | @label m m' s rest _ ih =>
    obtain ⟨runs, pc⟩ := ih placed.2
    refine ⟨.head ⟨stepInto_label placed.1, fun _ _ => rfl⟩ runs, ?_⟩
    rw [pc, next_pc, List.length_cons]
    omega

theorem RunsBelow.kept (h : RunsBelow w prog top size m m') {a : Word} (ha : ¬ Below top size a) :
    m'.ram a = m.ram a := by
  induction h with
  | refl => rfl
  | tail _ step ih => exact (step.2 a ha).trans ih

theorem RunsBelow.mono {top' : Word} {size' : Nat} (h : RunsBelow w prog top size m m')
    (le : ∀ a, Below top size a → Below top' size' a) : RunsBelow w prog top' size' m m' := by
  induction h with
  | refl => exact .refl
  | tail _ step ih => exact ih.tail ⟨step.1, fun a ha => step.2 a (mt (le a) ha)⟩

theorem stepInto_nullary {op : Nullary} (here : prog[m.pc]? = some (.inst (.nullary op))) :
    m.stepInto w prog = m.exec w prog (.nullary op) := by
  refine (stepInto_eq here ?_).trans (step_inst here)
  rintro s ⟨⟩

theorem StepsBelow.jumpIf (top : Word) (size : Nat) {c : Cond} {s : Symbol} {f : Flags} {j : Nat}
    (here : prog[m.pc]? = some (.inst (.jumpIf c s))) (flags : m.flags = some f)
    (label : labelLine? prog s = some j) :
    StepsBelow w prog top size m (if f.holds c then { m with pc := j } else m.next) := by
  refine ⟨?_, fun a _ => by split <;> rfl⟩
  have exec : m.exec w prog (.jumpIf c s) =
      if f.holds c then some (.runs { m with pc := j }) else some (.runs m.next) := by
    simp [exec, flags, jumpTo, label]
  rw [stepInto_jumpIf_eq here, exec]
  split <;> rfl

end Processor

/-- Where the printing routine stands: its lines are there, and its labels lead to them. -/
structure PrintsAt (prog : List Line) (entry : Nat) : Prop where
  code : CodeAt prog entry printInt
  label : labelLine? prog .printInt = some entry
  digits : labelLine? prog .digits = some (entry + 13)
  write : labelLine? prog .write = some (entry + 25)

theorem generate_printsAt {p : Program} {s : Settings} {lines : List Line}
    (h : generate p s = .ok lines) : PrintsAt lines (header p.file s.comments).length := by
  obtain ⟨code, pool, _, _, _, rfl⟩ := generate_eq_ok h
  -- no line before the routine is a label
  have plain (x : Symbol) : labelLine? (header p.file s.comments) x = none := by
    unfold header labelLine?
    split <;> rfl
  have found {x : Symbol} {j : Nat} (hx : labelLine? printInt x = some j) (rest : List Line) :
      labelLine? (header p.file s.comments ++ (printInt ++ rest)) x =
        some ((header p.file s.comments).length + j) := by
    unfold labelLine? at plain hx ⊢
    rw [List.findIdx?_append, plain, List.findIdx?_append, hx]
    simp [Nat.add_comm]
  refine ⟨?_, ?_, ?_, ?_⟩
  all_goals simp only [routines, List.append_assoc]
  · simpa only [List.append_assoc] using codeAt_middle (header p.file s.comments) printInt _
  · exact found (j := 0) rfl _
  · exact found rfl _
  · exact found rfl _

/-- The printing routine on its way: the return address and the frame pointer are saved, and some
characters stand below them. -/
structure Midway (m₀ : Processor) (text : List Char) (m : Processor) : Prop where
  rbp : m.regs .rbp = m₀.regs .rsp - 8
  r13 : m.regs .r13 = m₀.regs .r13
  trace : m.trace = m₀.trace
  saved : m.ram.word (m₀.regs .rsp - 8) = m₀.regs .rbp
  kept : ∀ a, ¬ Below (m₀.regs .rsp) 40 a → m.ram a = m₀.ram a
  place : m.regs .rsi + BitVec.ofNat 64 text.length = m₀.regs .rsp - 8
  spelled : m.ram.Spells (m.regs .rsi) text

namespace Midway

variable {m₀ m m' : Processor} {text : List Char} {c : Char} {v : Nat}

/-- There is room for one more character. -/
theorem below (h : Midway m₀ text m) (room : text.length < 32) :
    Below (m₀.regs .rsp) 40 (m.regs .rsi - 1) := by
  have place := h.place
  unfold Below
  bv_omega

theorem store_kept (h : Midway m₀ text m) (room : text.length < 32) {a : Word}
    (ha : ¬ Below (m₀.regs .rsp) 40 a) : m.ram.store (m.regs .rsi - 1) 1 v a = m.ram a := by
  refine Ram.store_byte_of_ne ?_
  rintro rfl
  exact ha (h.below room)

theorem store (h : Midway m₀ text m) (room : text.length < 32)
    (ram : m'.ram = m.ram.store (m.regs .rsi - 1) 1 v) (rsi : m'.regs .rsi = m.regs .rsi - 1)
    (char : BitVec.ofNat 8 v = BitVec.ofNat 8 c.toNat) (rbp : m'.regs .rbp = m.regs .rbp)
    (r13 : m'.regs .r13 = m.regs .r13) (trace : m'.trace = m.trace) :
    Midway m₀ (c :: text) m' where
  rbp := rbp.trans h.rbp
  r13 := r13.trans h.r13
  trace := trace.trans h.trace
  saved := by
    rw [ram, Ram.word_store_below (d := text.length + 1) _ (by omega) (by omega), h.saved]
    rw [← h.place]
    exact below_decrement rfl
  kept a ha := by rw [ram, h.store_kept room ha, h.kept a ha]
  place := by
    rw [rsi, ← h.place]
    exact (below_decrement rfl).symm
  spelled := by
    rw [ram, rsi]
    exact h.spelled.store (by omega) char

/-- The return address stays on the stack. -/
theorem top (h : Midway m₀ text m) :
    m.ram.word (m₀.regs .rsp) = m₀.ram.word (m₀.regs .rsp) := by
  unfold Ram.word
  rw [Ram.load_congr]
  intro i hi
  refine h.kept _ fun near => ?_
  unfold Below at near
  bv_omega

/-- Lines that change none of this. -/
theorem of_eq (h : Midway m₀ text m) (ram : m'.ram = m.ram) (rsi : m'.regs .rsi = m.regs .rsi)
    (rbp : m'.regs .rbp = m.regs .rbp) (r13 : m'.regs .r13 = m.regs .r13)
    (trace : m'.trace = m.trace) : Midway m₀ text m' where
  rbp := rbp.trans h.rbp
  r13 := r13.trans h.r13
  trace := trace.trans h.trace
  saved := ram ▸ h.saved
  kept a ha := by rw [ram, h.kept a ha]
  place := by rw [rsi, h.place]
  spelled := by
    rw [ram, rsi]
    exact h.spelled

end Midway

theorem toNat_of_nonnegative {a : Word} (h : 0 ≤ a.toInt) : a.toNat = a.toInt.natAbs := by
  have split := BitVec.toInt_eq_toNat_cond a
  have bound := a.isLt
  split at split <;> omega

/-- The least number is its own negative, and without a sign that is its magnitude. -/
theorem toNat_neg_of_negative {a : Word} (h : a.toInt < 0) : (-a).toNat = a.toInt.natAbs := by
  have split := BitVec.toInt_eq_toNat_cond a
  have bound := a.isLt
  rw [BitVec.toNat_neg]
  split at split <;> omega

/-- The byte that is made from a remainder is a digit. -/
theorem digit_byte : ∀ d < 10, BitVec.ofNat 8 (Size.byte.low
    (Size.byte.low (BitVec.ofNat 64 d) + BitVec.ofNat 64 '0'.toNat)).toNat =
      BitVec.ofNat 8 d.digitChar.toNat := by
  decide

/-- The system writes to the standard output and leaves the memory of the process as it is. -/
def Platform.Outputs (w : Platform) : Prop :=
  ∀ time start count rest ram, ∃ value, w.kernel time
    (BitVec.ofInt 64 sysWrite :: BitVec.ofInt 64 stdoutFile :: start :: count :: rest) ram =
      .returns value []

/-- The bytes that a system call writes to the standard output. -/
def output? : Event → Option (List UInt8)
  | .syscall (call :: file :: start :: count :: _) ram =>
    if call = BitVec.ofInt 64 sysWrite ∧ file = BitVec.ofInt 64 stdoutFile then
      some ((List.range count.toNat).map fun i => UInt8.ofBitVec (ram (start + BitVec.ofNat 64 i)))
    else none
  | _ => none

theorem output?_write {m : Processor} (call : m.regs .rax = BitVec.ofInt 64 sysWrite)
    (file : m.regs .rdi = BitVec.ofInt 64 stdoutFile) :
    output? (.syscall (argumentRegs.map m.regs) m.ram) =
      some ((List.range (m.regs .rdx).toNat).map fun i =>
        UInt8.ofBitVec (m.ram (m.regs .rsi + BitVec.ofNat 64 i))) := by
  simp [output?, argumentRegs, call, file]

namespace PrintsAt

open Processor

variable {w : Platform} {prog : List Line} {entry : Nat} {m₀ m : Processor} {text : List Char}

/-- The lines up to the first jump make a frame and write the line feed. -/
theorem opening (prints : PrintsAt prog entry) (w : Platform) (here : m.pc = entry) :
    ∃ m', RunsBelow w prog (m.regs .rsp) 40 m m' ∧ m'.pc = entry + 10 ∧ Midway m ['\n'] m' ∧
      m'.regs .rax = m.regs .rdi ∧ m'.regs .rcx = 10 ∧ m'.regs .r8 = 0 ∧
      m'.flags = some (Flags.test (m.regs .rdi)) := by
  let m₁ := (m.next.pushed (m.regs .rbp)).next
  let m₂ := (m₁.set .rbp (m₁.regs .rsp)).next
  let m₃ := (m₂.set .rsp (m₂.regs .rsp - BitVec.ofInt 64 32)).mixed.next
  let m₄ := (m₃.set .rax (m₃.regs .rdi)).next
  let m₅ := (m₄.set .rsi (m₄.regs .rbp - BitVec.ofNat 64 1)).next
  let m₆ := (m₅.withRam (m₅.ram.store (m₅.regs .rsi) 1 (m₅.read w .byte (.imm 10)).toNat)).next
  let m₇ := (m₆.set .rcx (BitVec.ofInt 64 10)).next
  let m₈ := (m₇.set .r8 (m₇.regs .r8 ^^^ m₇.regs .r8)).mixed.next
  let m₉ := (m₈.compared (Flags.test (m₈.regs .rax))).next
  have sub : m₂.effect w prog (.binary .sub (.reg .rsp) (.imm 32)) =
      some (m₂.set .rsp (m₂.regs .rsp - BitVec.ofInt 64 32)).mixed := combine_imm w m₂ .rsp _ rfl
  have tests : m₈.effect w prog (.binary .test (.reg .rax) (.reg .rax)) =
      some (m₈.compared (Flags.test (m₈.regs .rax))) := effect_test w m₈ .rax prog
  -- the frame as it is before the first character
  have framed : Midway m [] (m₄.set .rsi (m₄.regs .rbp)) := {
    rbp := rfl
    r13 := rfl
    trace := rfl
    saved := Ram.word_putWord ..
    kept := fun a ha => Ram.putWord_below fun near => ha (near.mono (by decide))
    place := BitVec.add_zero _
    spelled := trivial }
  have strides : Strides w prog (m.regs .rsp) 40 m (printInt.take 10) m₉ :=
    .label (.inst rfl (fun a ha => framed.kept a ha) (.quiet (move_reg w m₁ ..) rfl (.quiet sub rfl
      (.quiet (move_reg w m₃ ..) rfl (.quiet rfl rfl (.inst rfl
        (fun a ha => framed.store_kept (by decide) ha) (.quiet (move_imm w m₆ ..) rfl
          (.quiet (combine_regs w m₇ ..) rfl (.quiet tests rfl .nil)))))))))
  obtain ⟨runs, pc⟩ := strides.runs (here ▸ prints.code.slice 0 10)
  refine ⟨m₉, runs, ?_, ?_, rfl, rfl, BitVec.xor_self, rfl⟩
  · rw [pc, here]
    rfl
  · exact framed.store (by decide) rfl rfl rfl rfl rfl rfl

/-- The digits are made from the magnitude, and the sign is remembered. -/
theorem signed (prints : PrintsAt prog entry) (w : Platform) (here : m.pc = entry + 10)
    (midway : Midway m₀ text m) (ten : m.regs .rcx = 10) (plus : m.regs .r8 = 0)
    (flags : m.flags = some (Flags.test (m.regs .rax))) :
    ∃ m', RunsBelow w prog (m₀.regs .rsp) 40 m m' ∧ m'.pc = entry + 13 ∧ Midway m₀ text m' ∧
      m'.regs .rcx = 10 ∧ (m'.regs .rax).toNat = (m.regs .rax).toInt.natAbs ∧
      (m'.regs .r8 = 0 ↔ 0 ≤ (m.regs .rax).toInt) := by
  have line : prog[m.pc]? = some (.inst (.jumpIf .ns .digits)) := here ▸ prints.code.getElem? rfl
  have jump := StepsBelow.jumpIf (w := w) (m₀.regs .rsp) 40 line flags prints.digits
  have decides : (Flags.test (m.regs .rax)).holds .ns = !decide ((m.regs .rax).toInt < 0) := rfl
  by_cases negative : (m.regs .rax).toInt < 0
  · rw [decides, decide_eq_true negative] at jump
    let m₁ := (m.next.set .r8 (BitVec.ofInt 64 1)).next
    let m₂ := (m₁.set .rax (-m₁.regs .rax)).mixed.next
    have strides : Strides w prog (m₀.regs .rsp) 40 m.next ((printInt.drop 11).take 2) m₂ :=
      .quiet (move_imm w m.next ..) rfl (.quiet rfl rfl .nil)
    have place : m.next.pc = entry + 11 := congrArg (· + 1) here
    obtain ⟨runs, pc⟩ := strides.runs (place ▸ prints.code.slice 11 2)
    refine ⟨m₂, .head jump runs, ?_, midway.of_eq rfl rfl rfl rfl rfl, ten, ?_, ?_⟩
    · rw [pc, place]
      rfl
    · exact toNat_neg_of_negative negative
    · have minus : m₂.regs .r8 = 1 := rfl
      rw [minus]
      exact iff_of_false (by decide) (by omega)
  · rw [decides, decide_eq_false negative] at jump
    refine ⟨_, .single jump, rfl, midway.of_eq rfl rfl rfl rfl rfl, ten, ?_, ?_⟩
    · exact toNat_of_nonnegative (Int.not_lt.mp negative)
    · exact iff_of_true plus (by omega)

/-- One round writes one digit. -/
theorem round (prints : PrintsAt prog entry) (w : Platform) (here : m.pc = entry + 13)
    (midway : Midway m₀ text m) (room : text.length < 32) (ten : m.regs .rcx = 10) :
    ∃ m', RunsBelow w prog (m₀.regs .rsp) 40 m m' ∧
      m'.pc = (if (m.regs .rax).toNat < 10 then entry + 21 else entry + 13) ∧
      Midway m₀ (((m.regs .rax).toNat % 10).digitChar :: text) m' ∧ m'.regs .rcx = 10 ∧
      (m'.regs .rax).toNat = (m.regs .rax).toNat / 10 ∧ m'.regs .r8 = m.regs .r8 := by
  have word := (m.regs .rax).isLt
  let m₁ := (m.next.set .rdx (m.next.regs .rdx ^^^ m.next.regs .rdx)).mixed.next
  let m₂ := ((m₁.set .rax (BitVec.ofNat 64 ((m.regs .rax).toNat / 10))).set .rdx
    (BitVec.ofNat 64 ((m.regs .rax).toNat % 10))).mixed.next
  let v := m₂.read w .byte (.part .rdx .byte) + m₂.read w .byte (.char '0')
  let m₃ := (m₂.set .rdx (Size.byte.merge (m₂.regs .rdx) v)).mixed.next
  let m₄ := (m₃.set .rsi (m₃.regs .rsi - 1)).mixed.next
  let m₅ := (m₄.withRam (m₄.ram.store (m₄.regs .rsi) 1
    (m₄.read w .byte (.part .rdx .byte)).toNat)).next
  let m₆ := (m₅.compared (Flags.test (m₅.regs .rax))).next
  have divides : m₁.effect w prog (.unary .div .rcx) =
      some ((m₁.set .rax (BitVec.ofNat 64 ((m.regs .rax).toNat / 10))).set .rdx
        (BitVec.ofNat 64 ((m.regs .rax).toNat % 10))).mixed :=
    effect_div_ten BitVec.xor_self ten
  have tests : m₅.effect w prog (.binary .test (.reg .rax) (.reg .rax)) =
      some (m₅.compared (Flags.test (m₅.regs .rax))) := effect_test w m₅ .rax prog
  have strides : Strides w prog (m₀.regs .rsp) 40 m ((printInt.drop 13).take 7) m₆ :=
    .label (.quiet (combine_regs w m.next ..) rfl (.quiet divides rfl (.quiet rfl rfl (.quiet rfl
      rfl (.inst rfl (fun a ha => midway.store_kept room ha) (.quiet tests rfl .nil))))))
  obtain ⟨runs, pc⟩ := strides.runs (here ▸ prints.code.slice 13 7)
  have digit : BitVec.ofNat 8 (m₄.read w .byte (.part .rdx .byte)).toNat =
      BitVec.ofNat 8 ((m.regs .rax).toNat % 10).digitChar.toNat := by
    have sum : m₄.read w .byte (.part .rdx .byte) = Size.byte.low v := low_merge_byte _ _
    rw [sum]
    exact digit_byte _ (Nat.mod_lt _ (by decide))
  have written : Midway m₀ (((m.regs .rax).toNat % 10).digitChar :: text) m₆ :=
    midway.store room rfl rfl digit rfl rfl rfl
  have left : (m₆.regs .rax).toNat = (m.regs .rax).toNat / 10 := by
    change (BitVec.ofNat 64 ((m.regs .rax).toNat / 10)).toNat = _
    rw [BitVec.toNat_ofNat, Nat.mod_eq_of_lt (by omega)]
  have place : m₆.pc = entry + 20 := by
    rw [pc, here]
    rfl
  have line : prog[m₆.pc]? = some (.inst (.jumpIf .nz .digits)) := place ▸ prints.code.getElem? rfl
  have flags : m₆.flags = some (Flags.test (m₆.regs .rax)) := rfl
  have jump := StepsBelow.jumpIf (w := w) (m₀.regs .rsp) 40 line flags prints.digits
  have decides : (Flags.test (m₆.regs .rax)).holds .nz = !decide (m₆.regs .rax = 0) := rfl
  have zero : m₆.regs .rax = 0 ↔ (m.regs .rax).toNat < 10 := by
    rw [← BitVec.toNat_inj, left]
    change _ / 10 = 0 ↔ _
    omega
  by_cases last : (m.regs .rax).toNat < 10
  · rw [if_pos last]
    rw [decides, decide_eq_true (zero.mpr last)] at jump
    refine ⟨_, .tail runs jump, ?_, written.of_eq rfl rfl rfl rfl rfl, ten, left, rfl⟩
    exact congrArg (· + 1) place
  · rw [if_neg last]
    rw [decides, decide_eq_false (mt zero.mp last)] at jump
    exact ⟨_, .tail runs jump, rfl, written.of_eq rfl rfl rfl rfl rfl, ten, left, rfl⟩

/-- All rounds together write the numeral of the magnitude. -/
theorem digits_written (prints : PrintsAt prog entry) (w : Platform) (here : m.pc = entry + 13)
    (midway : Midway m₀ text m) (ten : m.regs .rcx = 10)
    (room : text.length + (Nat.toDigits 10 (m.regs .rax).toNat).length ≤ 32) :
    ∃ m', RunsBelow w prog (m₀.regs .rsp) 40 m m' ∧ m'.pc = entry + 21 ∧
      Midway m₀ (Nat.toDigits 10 (m.regs .rax).toNat ++ text) m' ∧ m'.regs .r8 = m.regs .r8 := by
  -- by the magnitude, which a round divides by ten
  induction hn : (m.regs .rax).toNat using Nat.strongRecOn generalizing m text with
  | ind n ih =>
    rw [hn] at room
    by_cases last : n < 10
    · rw [Nat.toDigits_of_lt_base last] at room ⊢
      simp only [List.length_singleton] at room
      obtain ⟨m', runs, pc, written, _, _, sign⟩ := prints.round w here midway (by omega) ten
      rw [hn, if_pos last] at pc
      rw [hn, Nat.mod_eq_of_lt last] at written
      exact ⟨m', runs, pc, written, sign⟩
    · have digits := Nat.toDigits_of_base_le (b := 10) (by decide) (Nat.not_lt.mp last)
      rw [digits] at room ⊢
      simp only [List.length_append, List.length_singleton] at room
      obtain ⟨m', runs, pc, written, ten', left, sign⟩ :=
        prints.round w here midway (by omega) ten
      rw [hn, if_neg last] at pc
      rw [hn] at written left
      obtain ⟨m'', runs', pc', written', sign'⟩ := ih (n / 10) (by omega) pc written ten'
        (by rw [left, List.length_cons]; omega) left
      refine ⟨m'', runs.trans runs', pc', ?_, sign'.trans sign⟩
      rwa [List.append_assoc, List.singleton_append]

/-- A number below zero gets its sign. -/
theorem sign_written (prints : PrintsAt prog entry) (w : Platform) (here : m.pc = entry + 21)
    (midway : Midway m₀ text m) (room : text.length < 32) :
    ∃ m', RunsBelow w prog (m₀.regs .rsp) 40 m m' ∧ m'.pc = entry + 25 ∧
      Midway m₀ (if m.regs .r8 = 0 then text else '-' :: text) m' := by
  let m₁ := (m.compared (Flags.test (m.regs .r8))).next
  have tested : Strides w prog (m₀.regs .rsp) 40 m ((printInt.drop 21).take 1) m₁ :=
    .quiet (effect_test w m .r8 prog) rfl .nil
  obtain ⟨runs, pc⟩ := tested.runs (here ▸ prints.code.slice 21 1)
  have place : m₁.pc = entry + 22 := by
    rw [pc, here]
    rfl
  have line : prog[m₁.pc]? = some (.inst (.jumpIf .z .write)) := place ▸ prints.code.getElem? rfl
  have flags : m₁.flags = some (Flags.test (m.regs .r8)) := rfl
  have jump := StepsBelow.jumpIf (w := w) (m₀.regs .rsp) 40 line flags prints.write
  have decides : (Flags.test (m.regs .r8)).holds .z = decide (m.regs .r8 = 0) := rfl
  by_cases plus : m.regs .r8 = 0
  · rw [if_pos plus]
    rw [decides, decide_eq_true plus] at jump
    exact ⟨_, .tail runs jump, rfl, midway.of_eq rfl rfl rfl rfl rfl⟩
  · rw [if_neg plus]
    rw [decides, decide_eq_false plus] at jump
    let m₂ := (m₁.next.set .rsi (m₁.next.regs .rsi - 1)).mixed.next
    let m₃ := (m₂.withRam (m₂.ram.store (m₂.regs .rsi) 1 (m₂.read w .byte (.char '-')).toNat)).next
    have strides : Strides w prog (m₀.regs .rsp) 40 m₁.next ((printInt.drop 23).take 2) m₃ :=
      .quiet rfl rfl (.inst rfl (fun a ha => midway.store_kept room ha) .nil)
    have place' : m₁.next.pc = entry + 23 := congrArg (· + 1) place
    obtain ⟨runs', pc'⟩ := strides.runs (place' ▸ prints.code.slice 23 2)
    refine ⟨m₃, (runs.tail jump).trans runs', ?_, midway.store room rfl rfl rfl rfl rfl rfl⟩
    rw [pc', place']
    rfl

/-- The text is shown, and the routine comes back. -/
theorem shown {back : Nat} (prints : PrintsAt prog entry) (outputs : w.Outputs)
    (here : m.pc = entry + 25) (midway : Midway m₀ text m) (short : text.length < 2 ^ 64)
    (returns : lineAt? w prog (m₀.ram.word (m₀.regs .rsp)) = some back) :
    ∃ m' e, RunsBelow w prog (m₀.regs .rsp) 40 m m' ∧ m'.pc = back ∧
      m'.regs .rsp = m₀.regs .rsp + 8 ∧ m'.regs .rbp = m₀.regs .rbp ∧
      m'.regs .r13 = m₀.regs .r13 ∧ m'.trace = m₀.trace ++ [e] ∧
      output? e = some (text.map fun c => UInt8.ofBitVec (BitVec.ofNat 8 c.toNat)) := by
  let m₁ := (m.next.set .rax (BitVec.ofInt 64 sysWrite)).next
  let m₂ := (m₁.set .rdi (BitVec.ofInt 64 stdoutFile)).next
  let m₃ := (m₂.set .rdx (m₂.regs .rbp)).next
  let m₄ := (m₃.set .rdx (m₃.regs .rdx - m₃.regs .rsi)).mixed.next
  have strides : Strides w prog (m₀.regs .rsp) 40 m ((printInt.drop 25).take 5) m₄ :=
    .label (.quiet (move_imm w m.next ..) rfl (.quiet (move_imm w m₁ ..) rfl
      (.quiet (move_reg w m₂ ..) rfl (.quiet (combine_regs w m₃ ..) rfl .nil))))
  obtain ⟨runs, pc⟩ := strides.runs (here ▸ prints.code.slice 25 5)
  have place : m₄.pc = entry + 30 := by
    rw [pc, here]
    rfl
  have length : m₄.regs .rdx = BitVec.ofNat 64 text.length := by
    change m.regs .rbp - m.regs .rsi = _
    rw [midway.rbp, ← midway.place, BitVec.add_comm, BitVec.add_sub_cancel]
  obtain ⟨value, answer⟩ := outputs m₄.trace.length (m₄.regs .rsi) (m₄.regs .rdx)
    [m₄.regs .r10, m₄.regs .r8, m₄.regs .r9] m₄.ram
  let m₅ : Processor := { ((m₄.set .rcx (w.code (m₄.pc + 1))).set .rax value).mixed with
    ram := m₄.ram.patch []
    trace := m₄.trace ++ [.syscall (argumentRegs.map m₄.regs) m₄.ram]
    pc := m₄.pc + 1 }
  have call : StepsBelow w prog (m₀.regs .rsp) 40 m₄ m₅ := by
    have line : prog[m₄.pc]? = some (.inst (.nullary .syscall)) :=
      place ▸ prints.code.getElem? rfl
    refine ⟨?_, fun _ _ => rfl⟩
    have values : w.kernel m₄.trace.length (argumentRegs.map m₄.regs) m₄.ram =
      .returns value [] := answer
    rw [stepInto_nullary line, exec, syscall, values]
  have place₅ : m₅.pc = entry + 31 := congrArg (· + 1) place
  let m₆ := ((m₅.set .rsp (m₅.regs .rbp)).popped .rbp).next
  have leave : Strides w prog (m₀.regs .rsp) 40 m₅ ((printInt.drop 31).take 1) m₆ :=
    .quiet rfl rfl .nil
  obtain ⟨runs', pc'⟩ := leave.runs (place₅ ▸ prints.code.slice 31 1)
  have stack : m₆.regs .rsp = m₀.regs .rsp := by
    change m.regs .rbp + 8 = _
    rw [midway.rbp, BitVec.sub_add_cancel]
  have pointer : m₆.regs .rbp = m₀.regs .rbp := by
    change m.ram.word (m.regs .rbp) = _
    rw [midway.rbp, midway.saved]
  have target : m₆.ram.word (m₆.regs .rsp) = m₀.ram.word (m₀.regs .rsp) := by
    rw [stack]
    exact midway.top
  let m₇ : Processor := { m₆ with regs := (m₆.set .rsp (m₆.regs .rsp + 8)).regs, pc := back }
  have ret : StepsBelow w prog (m₀.regs .rsp) 40 m₆ m₇ := by
    have place₆ : m₆.pc = entry + 32 := by
      rw [pc', place₅]
      rfl
    have line : prog[m₆.pc]? = some (.inst (.nullary .ret)) := place₆ ▸ prints.code.getElem? rfl
    refine ⟨?_, fun _ _ => rfl⟩
    rw [stepInto_nullary line, exec, target, returns]
    rfl
  refine ⟨m₇, .syscall (argumentRegs.map m₄.regs) m₄.ram, ((runs.tail call).trans runs').tail ret,
    rfl, ?_, pointer, midway.r13, ?_, ?_⟩
  · change m₆.regs .rsp + 8 = _
    rw [stack]
  · exact congrArg (· ++ _) midway.trace
  · have shows := output?_write (m := m₄) rfl rfl
    have read := congrArg (List.map UInt8.ofBitVec) midway.spelled.read
    rw [List.map_map, List.map_map] at read
    rw [shows, length, BitVec.toNat_ofNat, Nat.mod_eq_of_lt short]
    exact congrArg some read

end PrintsAt

/-! ### Numerals -/

theorem toList_toString (v : Int) : (toString v).toList =
    if 0 ≤ v then Nat.toDigits 10 v.natAbs else '-' :: Nat.toDigits 10 v.natAbs := by
  cases v with
  | ofNat n =>
    rw [if_pos (show 0 ≤ Int.ofNat n from Int.natCast_nonneg n)]
    exact Nat.toList_repr
  | negSucc n =>
    rw [if_neg (by omega)]
    change ("-" ++ (n + 1).repr).toList = _
    rw [String.toList_append, Nat.toList_repr]
    rfl

/-- The longest numeral of a word has nineteen digits. -/
theorem length_digits_le (a : Word) : (Nat.toDigits 10 a.toInt.natAbs).length ≤ 19 := by
  have low := BitVec.le_toInt (x := a)
  have high := BitVec.toInt_lt (x := a)
  rw [Nat.length_toDigits_le_iff (by decide) (by decide)]
  omega

theorem bytesOf_eq_map {s : String} (ascii : ∀ c ∈ s.toList, c.toNat < 128) :
    Text.bytesOf s = s.toList.map fun c => UInt8.ofBitVec (BitVec.ofNat 8 c.toNat) := by
  unfold Text.bytesOf
  generalize s.toList = cs at ascii
  induction cs with
  | nil => rfl
  | cons c cs ih =>
    rw [List.forall_mem_cons] at ascii
    rw [List.flatMap_cons, List.map_cons, ih ascii.2]
    have encoded : String.utf8EncodeChar c = [UInt8.ofNat c.toNat] := by
      have short : c.val.toNat ≤ 0x7f := Nat.le_of_lt_succ ascii.1
      exact if_pos short
    rw [encoded]
    rfl

theorem ascii_numeral (v : Int) : ∀ c ∈ (toString v ++ "\n").toList, c.toNat < 128 := by
  have digits : ∀ c ∈ Nat.toDigits 10 v.natAbs, c.toNat < 128 := by
    intro c hc
    have digit := Nat.isDigit_of_mem_toDigits (by decide) (by decide) hc
    have high : c.val.toNat ≤ 57 := UInt32.le_iff_toNat_le.mp
      (of_decide_eq_true (Bool.and_eq_true_iff.mp digit).2)
    exact Nat.lt_of_le_of_lt high (by decide)
  have feed : ∀ c ∈ "\n".toList, c.toNat < 128 := by simp
  rw [String.toList_append, List.forall_mem_append, toList_toString]
  refine ⟨?_, feed⟩
  split
  · exact digits
  · exact List.forall_mem_cons.mpr ⟨by decide, digits⟩

/-- What the printing routine does to the processor: it shows the number in `rdi` as a line, keeps
the registers that the caller relies on, and writes to no byte but so many below the stack. -/
structure PrintsNumber (w : Platform) (prog : List Line) (size : Nat) (m m' : Processor) :
    Prop where
  runs : Processor.RunsBelow w prog (m.regs .rsp) size m m'
  kept : ∀ a, ¬ Below (m.regs .rsp) size a → m'.ram a = m.ram a
  rbp : m'.regs .rbp = m.regs .rbp
  r13 : m'.regs .r13 = m.regs .r13
  shows : ∃ e, m'.trace = m.trace ++ [e] ∧
    output? e = some (Text.bytesOf (toString (m.regs .rdi).toInt ++ "\n"))

theorem PrintsAt.prints_number {prog : List Line} {entry back : Nat} {w : Platform}
    {m : Processor} (prints : PrintsAt prog entry) (outputs : w.Outputs) (here : m.pc = entry)
    (returns : Processor.lineAt? w prog (m.ram.word (m.regs .rsp)) = some back) :
    ∃ m', PrintsNumber w prog 40 m m' ∧ m'.pc = back ∧ m'.regs .rsp = m.regs .rsp + 8 := by
  have short := length_digits_le (m.regs .rdi)
  obtain ⟨m₁, runs₁, pc₁, midway₁, rax₁, ten₁, plus₁, flags₁⟩ := prints.opening w here
  rw [← rax₁] at flags₁ short
  obtain ⟨m₂, runs₂, pc₂, midway₂, ten₂, rax₂, sign₂⟩ :=
    prints.signed w pc₁ midway₁ ten₁ plus₁ flags₁
  rw [← rax₂] at short
  obtain ⟨m₃, runs₃, pc₃, midway₃, sign₃⟩ :=
    prints.digits_written w pc₂ midway₂ ten₂ (by rw [List.length_singleton]; omega)
  obtain ⟨m₄, runs₄, pc₄, midway₄⟩ :=
    prints.sign_written w pc₃ midway₃ (by rw [List.length_append, List.length_singleton]; omega)
  have text : (if m₃.regs .r8 = 0 then Nat.toDigits 10 (m₂.regs .rax).toNat ++ ['\n']
      else '-' :: (Nat.toDigits 10 (m₂.regs .rax).toNat ++ ['\n'])) =
        (toString (m.regs .rdi).toInt ++ "\n").toList := by
    rw [sign₃, rax₂, rax₁, String.toList_append, toList_toString]
    rw [rax₁] at sign₂
    simp only [sign₂]
    split <;> rfl
  rw [text] at midway₄
  have fits : (toString (m.regs .rdi).toInt ++ "\n").toList.length < 2 ^ 64 := by
    rw [← text]
    split <;> simp <;> omega
  obtain ⟨m₅, e, runs₅, pc₅, rsp, rbp, r13, trace, shows⟩ :=
    prints.shown outputs pc₄ midway₄ fits returns
  have runs : Processor.RunsBelow w prog (m.regs .rsp) 40 m m₅ :=
    (((runs₁.trans runs₂).trans runs₃).trans runs₄).trans runs₅
  refine ⟨m₅, ⟨runs, fun _ => runs.kept, rbp, r13, e, trace, ?_⟩, pc₅, rsp⟩
  rw [shows, bytesOf_eq_map (ascii_numeral _)]

/-- The printing routine of a generated program prints every number. It may be entered in any state
with the address of a line on top of the stack: it shows the numeral of the number in `rdi` and a
line feed, and comes back to that line. No line of it faults or writes outside the forty bytes below
the stack, which hold the saved frame pointer and a buffer of 32 bytes. A call leaves the stack as
it was, and writes the return address besides. -/
theorem generated_print_routine {p : Program} {s : Settings} {lines : List Line}
    (h : generate p s = .ok lines) {w : Platform} (outputs : w.Outputs) (m : Processor) :
    (∀ back, labelLine? lines .printInt = some m.pc →
      Processor.lineAt? w lines (m.ram.word (m.regs .rsp)) = some back →
      ∃ m', PrintsNumber w lines 40 m m' ∧ m'.pc = back ∧ m'.regs .rsp = m.regs .rsp + 8) ∧
    (lines[m.pc]? = some (.inst (.call .printInt)) →
      Processor.lineAt? w lines (w.code (m.pc + 1)) = some (m.pc + 1) →
      ∃ m', PrintsNumber w lines 48 m m' ∧ m'.pc = m.pc + 1 ∧ m'.regs .rsp = m.regs .rsp) := by
  have prints := generate_printsAt h
  constructor
  · intro back here returns
    exact prints.prints_number outputs (Option.some.inj (here.symm.trans prints.label)) returns
  · intro line returns
    let m₁ : Processor :=
      { m.pushed (w.code (m.pc + 1)) with pc := (header p.file s.comments).length }
    have call : Processor.StepsBelow w lines (m.regs .rsp) 48 m m₁ := by
      refine ⟨?_, fun a ha => Ram.putWord_below fun near => ha (near.mono (by decide))⟩
      rw [Processor.stepInto, line]
      dsimp only
      rw [prints.label]
      rfl
    have top : m₁.ram.word (m₁.regs .rsp) = w.code (m.pc + 1) := Ram.word_putWord ..
    obtain ⟨m', printed, pc, rsp⟩ := prints.prints_number outputs (m := m₁) rfl (top ▸ returns)
    have runs : Processor.RunsBelow w lines (m.regs .rsp) 48 m m' := by
      refine .head call (printed.runs.mono fun a near => ?_)
      have place : m₁.regs .rsp = m.regs .rsp - 8 := rfl
      rw [place] at near
      unfold Below at near ⊢
      bv_omega
    refine ⟨m', ⟨runs, fun _ => runs.kept, printed.rbp, printed.r13, printed.shows⟩, pc, ?_⟩
    exact rsp.trans (BitVec.sub_add_cancel _ _)

theorem countdown_outputs : countdownPlatform.Outputs :=
  fun _ _ _ _ _ => ⟨0, rfl⟩

/-- In the procedure that shows a number, about to show the least one. -/
def countdownLeast : Processor where
  pc := 66
  regs r := if r = .rdi then BitVec.intMin 64 else 0x7fff00000000
  flags := none
  ram := fun _ => 0
  trace := []

theorem countdown_prints_least : ∃ m' e,
    PrintsNumber countdownPlatform countdownLines 48 countdownLeast m' ∧ m'.pc = 67 ∧
      m'.trace = [e] ∧ output? e = some (Text.bytesOf "-9223372036854775808\n") := by
  have lines : generate countdown { depth := 1 } = .ok countdownLines := by cbv
  have call : countdownLines[countdownLeast.pc]? = some (.inst (.call .printInt)) := by cbv
  have behind : countdownLines[countdownLeast.pc + 1]? = some (both .test .r13 .r13) := by cbv
  have returns := countdown_loads.lineAt?_eq call behind
  obtain ⟨m', printed, pc, _⟩ :=
    (generated_print_routine lines countdown_outputs countdownLeast).2 call returns
  obtain ⟨e, trace, shows⟩ := printed.shows
  exact ⟨m', e, printed, pc, trace, shows⟩

end Target

end StackLang
