import Mathlib.Data.List.Forall2
import Mathlib.Tactic.SplitIfs
import StackLang.Proofs.Target.Tracking
/-!
The code of instructions without parts.
-/

namespace StackLang.Target

open Semantics (Setting State Outcome)
open Processor (Reaches Executes)

variable {w : Platform} {prog : List Line} {g : Setting} {base : Word} {calls back : Nat}
  {m₀ m m' : Processor} {s : State} {a b c : Word}

/-! ### Operators -/

theorem executes_compare (h : Follows w g base calls m₀ s m) (ha : m.regs .rax = a)
    (hb : m.regs .rbx = b) (cond : Cond) :
    ∃ m', Executes w prog m (compare cond) m' ∧ Follows w g base calls m₀ s m' ∧
      m'.regs .rax = bit ((Flags.compare a b).holds cond) := by
  refine ⟨_, .inst (comparison_regs ..) (.inst (effect_set _ _ _ _ _ rfl) (.inst rfl .nil)),
    h.same rfl rfl rfl rfl, ?_⟩
  simp [Processor.read, ha, hb]

theorem executes_logical (h : Follows w g base calls m₀ s m) (ha : m.regs .rax = a)
    (hb : m.regs .rbx = b) {op : Binary} {f : Word → Word → Word} {k : Bool → Bool → Bool}
    (hop : ∀ m : Processor, m.binary w op = m.combine w f)
    (hf : ∀ x y, f (bit x) (bit y) = bit (k x y)) :
    ∃ m', Executes w prog m (logical op) m' ∧ Follows w g base calls m₀ s m' ∧
      m'.regs .rax = bit (k (a ≠ 0) (b ≠ 0)) := by
  have combined : ∀ m : Processor,
      m.effect w prog (.binary op (.part .rax .byte) (.part .rbx .byte)) =
      some (m.set .rax (Size.byte.merge (m.regs .rax)
        (f (Size.byte.low (m.regs .rax)) (Size.byte.low (m.regs .rbx))))).mixed := by
    intro m
    rw [Processor.effect, hop]
    rfl
  refine ⟨_, .inst (comparison_zero ..) (.inst (effect_set _ _ _ _ _ rfl)
    (.inst (comparison_zero ..) (.inst (effect_set _ _ _ _ _ rfl)
      (.inst (combined _) (.inst rfl .nil))))), h.same rfl rfl rfl rfl, ?_⟩
  simp [Processor.read, ha, hb, hf, (compare_holds _ _).2.1]

theorem executes_division (h : Follows w g base calls m₀ s m) (ha : m.regs .rax = a)
    (hb : m.regs .rbx = b) (hz : ¬ (b = 0 ∨ a.toInt.tdiv b.toInt = 2 ^ 63)) :
    ∃ m', Executes w prog m [.inst (.nullary .cqo), .inst (.unary .idiv .rbx)] m' ∧
      Follows w g base calls m₀ s m' ∧
      m'.regs .rax = BitVec.ofInt 64 (a.toInt.tdiv b.toInt) ∧
      m'.regs .rdx = BitVec.ofInt 64 (a.toInt.tmod b.toInt) := by
  obtain ⟨low, high⟩ := quotient_fits a b
  have divisor : b.toInt ≠ 0 := by
    intro hb
    exact hz (.inl (BitVec.toInt_inj.mp (hb.trans (by decide))))
  let m₁ := (m.set .rdx (if a.toInt < 0 then -1 else 0)).next
  have dividend : (m₁.regs .rdx).toInt * 2 ^ 64 + (m₁.regs .rax).toNat = a.toInt := by
    simpa [m₁, ha] using extended_dividend a
  have divides : m₁.effect w prog (.unary .idiv .rbx) =
      some ((m₁.set .rax (BitVec.ofInt 64 (a.toInt.tdiv b.toInt))).set .rdx
        (BitVec.ofInt 64 (a.toInt.tmod b.toInt))).mixed := by
    have right : m₁.regs .rbx = b := hb
    simp only [Processor.effect, Processor.unary, Processor.divideSigned, dividend, right]
    refine if_neg ?_
    omega
  refine ⟨_, .inst (by rw [Processor.effect, ha]) (.inst divides .nil),
    h.same rfl rfl rfl rfl, rfl, rfl⟩

/-- The value of an operator, with the operands in `rax` and `rbx`. -/
theorem executes_combine (prog : List Line) (h : Follows w g base calls m₀ s m)
    (ha : m.regs .rax = a) (hb : m.regs .rbx = b) {o : Operator} (ho : o.apply? a b = some c) :
    ∃ m', Executes w prog m (combine o) m' ∧ Follows w g base calls m₀ s m' ∧
      m'.regs .rax = c := by
  obtain ⟨e, ne, l, le, gt, ge⟩ := compare_holds a b
  cases o with
  | add | sub | mul =>
    cases ho
    exact ⟨_, .inst (combine_regs ..) .nil, h.same rfl rfl rfl rfl, by simp [ha, hb]⟩
  | div =>
    obtain ⟨hz, ho⟩ := Option.ite_none_left_eq_some.mp ho
    cases ho
    obtain ⟨m', run, follows, quotient, _⟩ := executes_division h ha hb hz
    exact ⟨m', run, follows, quotient⟩
  | rem =>
    obtain ⟨hz, ho⟩ := Option.ite_none_left_eq_some.mp ho
    cases ho
    obtain ⟨m', run, follows, _, remainder⟩ := executes_division h ha hb hz
    exact ⟨_, run.append (.inst (move_reg ..) .nil), follows.same rfl rfl rfl rfl,
      by simp [remainder]⟩
  | eql =>
    cases ho
    exact e ▸ executes_compare h ha hb .e
  | neq =>
    cases ho
    exact ne ▸ executes_compare h ha hb .ne
  | lss =>
    cases ho
    exact l ▸ executes_compare h ha hb .l
  | leq =>
    cases ho
    exact le ▸ executes_compare h ha hb .le
  | gtr =>
    cases ho
    exact gt ▸ executes_compare h ha hb .g
  | geq =>
    cases ho
    exact ge ▸ executes_compare h ha hb .ge
  | both =>
    cases ho
    simpa [combine] using executes_logical h ha hb (k := and) (fun _ => rfl) bit_and
  | either =>
    cases ho
    simpa [combine] using executes_logical h ha hb (k := or) (fun _ => rfl) bit_or

/-! ### The stack -/

variable (ground : Ground w g base) (h : Follows w g base calls m₀ s m) (proc : String)

include ground h in
theorem simulates_pushInt {v : Int64} (hc : CodeAt prog m.pc (pushNumber v)) :
    Simulates w prog g base calls m₀ back (m.pc + (pushNumber v).length) m
      (g.op proc s (.pushInt v)) := by
  refine .settle hc fun room => ?_
  unfold pushNumber
  split
  next short =>
    have value : m.pushValue? w (.imm v.toInt) = some v.toBitVec := by
      have fits : fits32 v.toInt = true := by
        change -2 ^ 31 ≤ v.toInt ∧ v.toInt ≤ 2 ^ 31 - 1 at short
        simp only [fits32, Bool.and_eq_true, decide_eq_true_eq]
        omega
      rw [Processor.pushValue?, if_pos fits, ofInt_toInt]
    refine ⟨_, .inst (congrArg (Option.map m.pushed) value) .nil, ?_⟩
    exact (h.pushed ground _ room).next
  next =>
    refine ⟨_, .inst (move_imm ..) (.inst rfl .nil), ?_⟩
    have set : Follows w g base calls m₀ s (m.set .rax (BitVec.ofInt 64 v.toInt)).next :=
      h.same rfl rfl rfl rfl
    exact (set.pushedReg ground .rax (ofInt_toInt v) room).next

include h in
theorem simulates_pop (hc : CodeAt prog m.pc [pop .rax]) :
    Simulates w prog g base calls m₀ back (m.pc + 1) m (g.op proc s .pop) := by
  rw [Setting.op]
  split
  next v st hs =>
    refine .settle hc fun _ => ⟨_, .inst rfl .nil, ?_⟩
    exact (h.popped hs (by decide) (by decide)).1.next
  next => trivial

include ground h in
theorem simulates_dup (hc : CodeAt prog m.pc [pop .rax, push .rax, push .rax]) :
    Simulates w prog g base calls m₀ back (m.pc + 3) m (g.op proc s .dup) := by
  rw [Setting.op]
  split
  next v st hs =>
    refine .settle hc fun room => ⟨_, .inst rfl (.inst rfl (.inst rfl .nil)), ?_⟩
    obtain ⟨taken, top⟩ := h.popped hs (r := .rax) (by decide) (by decide)
    have once := (taken.next.pushedReg ground .rax top (Nat.lt_of_succ_lt room)).next
    exact (once.pushedReg ground .rax (by simpa using top) room).next
  next => trivial

include ground h in
theorem simulates_swap (hc : CodeAt prog m.pc [pop .rax, pop .rbx, push .rax, push .rbx]) :
    Simulates w prog g base calls m₀ back (m.pc + 4) m (g.op proc s .swap) := by
  rw [Setting.op]
  split
  next v u st hs =>
    refine .settle hc fun room => ⟨_, .inst rfl (.inst rfl (.inst rfl (.inst rfl .nil))), ?_⟩
    obtain ⟨first, top⟩ := h.popped hs (r := .rax) (by decide) (by decide)
    obtain ⟨second, below⟩ := first.next.popped rfl (r := .rbx) (by decide) (by decide)
    have once := (second.next.pushedReg ground .rax (by simpa using top)
      (Nat.lt_of_succ_lt room)).next
    exact (once.pushedReg ground .rbx (by simpa using below) room).next
  next => trivial

include ground h in
theorem simulates_over
    (hc : CodeAt prog m.pc [pop .rax, pop .rbx, push .rbx, push .rax, push .rbx]) :
    Simulates w prog g base calls m₀ back (m.pc + 5) m (g.op proc s .over) := by
  rw [Setting.op]
  split
  next v u st hs =>
    refine .settle hc fun room =>
      ⟨_, .inst rfl (.inst rfl (.inst rfl (.inst rfl (.inst rfl .nil)))), ?_⟩
    have room' : (u :: st).length < g.room := Nat.lt_of_succ_lt room
    obtain ⟨first, top⟩ := h.popped hs (r := .rax) (by decide) (by decide)
    obtain ⟨second, below⟩ := first.next.popped rfl (r := .rbx) (by decide) (by decide)
    have once := (second.next.pushedReg ground .rbx below (Nat.lt_of_succ_lt room')).next
    have twice := (once.pushedReg ground .rax (by simpa using top) room').next
    exact (twice.pushedReg ground .rbx (by simpa using below) room).next
  next => trivial

include ground h in
theorem simulates_rot
    (hc : CodeAt prog m.pc [pop .rcx, pop .rbx, pop .rax, push .rbx, push .rcx, push .rax]) :
    Simulates w prog g base calls m₀ back (m.pc + 6) m (g.op proc s .rot) := by
  rw [Setting.op]
  split
  next v u t st hs =>
    refine .settle hc fun room =>
      ⟨_, .inst rfl (.inst rfl (.inst rfl (.inst rfl (.inst rfl (.inst rfl .nil))))), ?_⟩
    have room' : (u :: st).length < g.room := Nat.lt_of_succ_lt room
    obtain ⟨first, top⟩ := h.popped hs (r := .rcx) (by decide) (by decide)
    obtain ⟨second, below⟩ := first.next.popped rfl (r := .rbx) (by decide) (by decide)
    obtain ⟨third, last⟩ := second.next.popped rfl (r := .rax) (by decide) (by decide)
    have once := (third.next.pushedReg ground .rbx (by simpa using below)
      (Nat.lt_of_succ_lt room')).next
    have twice := (once.pushedReg ground .rcx (by simpa using top) room').next
    exact (twice.pushedReg ground .rax (by simpa using last) room).next
  next => trivial

include ground h in
theorem simulates_operator {o : Operator} (hc : CodeAt prog m.pc (operatorLines o)) :
    Simulates w prog g base calls m₀ back (m.pc + (operatorLines o).length) m
      (g.op proc s (.binary (.operator o))) := by
  rw [Setting.op]
  split
  next v u st hs =>
    split
    next c value =>
      refine .settle hc fun room => ?_
      obtain ⟨first, right⟩ := h.popped hs (r := .rbx) (by decide) (by decide)
      obtain ⟨second, left⟩ := first.next.popped rfl (r := .rax) (by decide) (by decide)
      obtain ⟨m', run, follows, result⟩ := executes_combine prog second.next
        (by simpa using left) (by simpa using right) value
      have pops : Executes w prog m [pop .rbx, pop .rax] ((m.popped .rbx).next.popped .rax).next :=
        .inst rfl (.inst rfl .nil)
      exact ⟨_, (pops.append run).append (.inst rfl .nil),
        (follows.pushedReg ground .rax result room).next⟩
    next => trivial
  next => trivial

include ground h in
theorem simulates_pick
    (hc : CodeAt prog m.pc [pop .rax, mov .rbx (.mem (.slot .rsp .rax)), push .rbx]) :
    Simulates w prog g base calls m₀ back (m.pc + 3) m (g.op proc s .pick) := by
  rw [Setting.op]
  split
  next n st hs =>
    split
    next v value =>
      refine .settle hc fun room => ?_
      obtain ⟨taken, index⟩ := h.popped hs (r := .rax) (by decide) (by decide)
      have found := taken.stack.get value
      rw [BitVec.ofNat_toNat, BitVec.setWidth_eq] at found
      have load : (m.popped .rax).next.effect w prog
          (.binary .mov (.reg .rbx) (.mem (.slot .rsp .rax))) =
          some ((m.popped .rax).next.set .rbx v) := by
        rw [← found, ← index]
        rfl
      have read : Follows w g base calls m₀ { s with stack := st }
          ((m.popped .rax).next.set .rbx v).next := taken.same rfl rfl rfl rfl
      exact ⟨_, .inst rfl (.inst load (.inst rfl .nil)),
        (read.pushedReg ground .rbx rfl room).next⟩
    next => trivial
  next => trivial

include ground h in
theorem simulates_size (hc : CodeAt prog m.pc [mov .rax (.mem (.symbol .stackOrigin)),
      both .sub .rax .rsp, .inst (.binary .shr (.reg .rax) (.imm 3)), push .rax]) :
    Simulates w prog g base calls m₀ back (m.pc + 4) m (g.op proc s .size) := by
  refine .settle hc fun room => ?_
  have origin : m.effect w prog (.binary .mov (.reg .rax) (.mem (.symbol .stackOrigin))) =
      some (m.set .rax base) := by
    rw [← h.origin]
    rfl
  have shift : ∀ m : Processor, m.effect w prog (.binary .shr (.reg .rax) (.imm 3)) =
      some (m.set .rax (m.regs .rax >>> 3)).mixed := by
    intro m
    simp [Processor.effect, Processor.binary, Processor.combine, Operand.size?, Operand.short,
      fits32, Processor.read, Processor.write]
  have count : (base - m.regs .rsp) >>> 3 = BitVec.ofNat 64 s.stack.length := by
    have pointer := h.pointer
    have top := base.isLt
    refine BitVec.eq_of_toNat_eq ?_
    rw [BitVec.toNat_ushiftRight, BitVec.toNat_sub, BitVec.toNat_ofNat, Nat.shiftRight_eq_div_pow]
    omega
  refine ⟨_, .inst origin (.inst (combine_regs ..) (.inst (shift _) (.inst rfl .nil))), ?_⟩
  let m₁ := ((m.set .rax base).next.set .rax (base - m.regs .rsp)).mixed.next
  have counted : Follows w g base calls m₀ s (m₁.set .rax (m₁.regs .rax >>> 3)).mixed.next :=
    h.same rfl rfl rfl rfl
  exact (counted.pushedReg ground .rax count room).next

/-! ### Memory -/

theorem Follows.load (h : Follows w g base calls m₀ s m) {n : Nat} (own : g.owns a n = true) :
    m.ram.load a n = s.ram.load a n := by
  refine Ram.load_congr fun i hi => h.owned ?_
  exact List.all_eq_true.mp own i (List.mem_range.mpr hi)

theorem low_load (ram : Ram) (a : Word) (size : Size) :
    size.low (BitVec.ofNat 64 (ram.load a size.bytes)) =
      BitVec.ofNat 64 (ram.load a size.bytes) := by
  have bound := ram.load_lt a size.bytes
  have word : 256 ^ size.bytes ≤ 2 ^ 64 := by cases size <;> decide
  rw [Size.low, BitVec.toNat_ofNat, Nat.mod_eq_of_lt (a := ram.load _ _) (by omega),
    Nat.mod_eq_of_lt bound]

/-- What the line that reads memory does. -/
theorem effect_read (w : Platform) (prog : List Line) {width : Int} {line : Line}
    (hl : readLine? width = some line) :
    ∃ i, line = .inst i ∧ ∀ m : Processor, m.effect w prog i =
      some (m.set .rbx (BitVec.ofNat 64 (m.ram.load (m.regs .rax) width.toNat))) := by
  unfold readLine? at hl
  split_ifs at hl with h₁ h₂ h₄ h₈ <;> cases hl <;> subst width
  · exact ⟨_, rfl, fun _ => rfl⟩
  · exact ⟨_, rfl, fun _ => rfl⟩
  · exact ⟨_, rfl, fun m => congrArg (fun v => some (m.set .rbx v)) (low_load _ _ .dword)⟩
  · exact ⟨_, rfl, fun _ => rfl⟩

theorem store_low (ram : Ram) (a v : Word) (size : Size) :
    ram.store a size.bytes (size.low v).toNat = ram.store a size.bytes v.toNat := by
  have word : 256 ^ size.bytes ≤ 2 ^ 64 := by cases size <;> decide
  have bound := Nat.mod_lt v.toNat (show 256 ^ size.bytes > 0 from Nat.pow_pos (by decide))
  rw [Size.low, BitVec.toNat_ofNat, Nat.mod_eq_of_lt (by omega), Ram.store_mod]

/-- What the line that writes memory does. -/
theorem effect_write (w : Platform) (prog : List Line) {width : Int} {line : Line}
    (hl : writeLine? width = some line) :
    ∃ i, line = .inst i ∧ ∀ m : Processor, m.effect w prog i =
      some (m.withRam (m.ram.store (m.regs .rax) width.toNat (m.regs .rbx).toNat)) := by
  unfold writeLine? at hl
  split_ifs at hl with h₁ h₂ h₄ h₈ <;> cases hl <;> subst width
  · exact ⟨_, rfl, fun m => congrArg (fun r => some (m.withRam r)) (store_low _ _ _ .byte)⟩
  · exact ⟨_, rfl, fun m => congrArg (fun r => some (m.withRam r)) (store_low _ _ _ .word)⟩
  · exact ⟨_, rfl, fun m => congrArg (fun r => some (m.withRam r)) (store_low _ _ _ .dword)⟩
  · exact ⟨_, rfl, fun m => congrArg (fun r => some (m.withRam r)) (store_low _ _ _ .qword)⟩

include ground h in
theorem simulates_load {width : Int} {line : Line} (hl : readLine? width = some line)
    (hc : CodeAt prog m.pc [pop .rax, line, push .rbx]) :
    Simulates w prog g base calls m₀ back (m.pc + 3) m (g.op proc s (.load width)) := by
  obtain ⟨i, rfl, effect⟩ := effect_read w prog hl
  rw [Setting.op]
  split
  next a st hs =>
    split
    next own =>
      refine .settle hc fun room => ?_
      obtain ⟨taken, place⟩ := h.popped hs (r := .rax) (by decide) (by decide)
      refine ⟨_, .inst rfl (.inst (effect _) (.inst rfl .nil)), ?_⟩
      have value : BitVec.ofNat 64 ((m.popped .rax).next.ram.load ((m.popped .rax).next.regs .rax)
          width.toNat) = BitVec.ofNat 64 (s.ram.load a width.toNat) := by
        rw [Processor.next_regs, place]
        exact congrArg _ (taken.next.load own)
      have read : Follows w g base calls m₀ { s with stack := st }
          ((m.popped .rax).next.set .rbx (BitVec.ofNat 64 (s.ram.load a width.toNat))).next :=
        taken.same rfl rfl rfl rfl
      rw [value]
      exact (read.pushedReg ground .rbx rfl room).next
    next => trivial
  next => trivial

/-- The program writes to its own memory. -/
theorem Follows.stored (ground : Ground w g base) (h : Follows w g base calls m₀ s m) {n : Nat}
    (own : g.owns a n = true) (v : Nat) :
    Follows w g base calls m₀ { s with ram := s.ram.store a n v }
      (m.withRam (m.ram.store a n v)) := by
  refine h.inside ground rfl rfl rfl ?_ ?_
  · intro b hb
    simp only [Processor.withRam_ram, Ram.store, h.owned hb]
  · intro b hb
    refine if_neg fun inside => hb ?_
    have found := List.all_eq_true.mp own _ (List.mem_range.mpr inside)
    have place : a + BitVec.ofNat 64 (b - a).toNat = b := by
      rw [BitVec.ofNat_toNat, BitVec.setWidth_eq, BitVec.add_comm, BitVec.sub_add_cancel]
    rwa [place] at found

include ground h in
theorem simulates_store {width : Int} {line : Line} (hl : writeLine? width = some line)
    (hc : CodeAt prog m.pc [pop .rbx, pop .rax, line]) :
    Simulates w prog g base calls m₀ back (m.pc + 3) m (g.op proc s (.store width)) := by
  obtain ⟨i, rfl, effect⟩ := effect_write w prog hl
  rw [Setting.op]
  split
  next v a st hs =>
    split
    next own =>
      refine .settle hc fun _ => ⟨_, .inst rfl (.inst rfl (.inst (effect _) .nil)), ?_⟩
      obtain ⟨first, value⟩ := h.popped hs (r := .rbx) (by decide) (by decide)
      obtain ⟨second, place⟩ := first.next.popped rfl (r := .rax) (by decide) (by decide)
      have stored := second.next.stored ground own v.toNat
      simpa [place, value] using stored.next
    next => trivial
  next => trivial

/-! ### The outside -/

/-- Something is seen of both. -/
theorem Follows.shown (h : Follows w g base calls m₀ s m) {e e' : Event} (he : Shows g e e')
    (rsp : m'.regs .rsp = m.regs .rsp) (r13 : m'.regs .r13 = m.regs .r13)
    (ram : m'.ram = m.ram) (trace : m'.trace = m.trace ++ [e']) :
    Follows w g base calls m₀ { s with trace := s.trace ++ [e] } m' := by
  have same : Follows w g base calls m₀ s { m' with trace := m.trace } := h.same rsp r13 ram rfl
  refine ⟨same.height, same.pointer, same.stack, same.owned, same.origin, same.index, same.nested,
    ?_, same.kept⟩
  rw [trace]
  exact List.rel_append same.trace (.cons he .nil)

include ground h in
theorem follows_print (prints : w.Prints) : Follows w g base calls m₀
    { s with trace := s.trace ++ [.put (m.regs .rdi)] } (w.print m) := by
  have bounds := h.low ground
  have printed : Follows w g base calls m₀ s { w.print m with trace := m.trace } :=
    h.between ground (prints.rsp m) (prints.r13 m) rfl fun a ha => prints.ram m a (by omega)
  exact printed.shown .put rfl rfl rfl (prints.trace m)

include ground h in
theorem simulates_put (prints : w.Prints)
    (hc : CodeAt prog m.pc [pop .rdi, .inst (.call .printInt)]) :
    Simulates w prog g base calls m₀ back (m.pc + 2) m (g.op proc s .put) := by
  rw [Setting.op]
  split
  next v st hs =>
    obtain ⟨taken, value⟩ := h.popped hs (r := .rdi) (by decide) (by decide)
    obtain ⟨first, here, _⟩ := CodeAt.split [pop .rdi] hc
    obtain ⟨steps, place⟩ := (Executes.inst (i := .unary .pop .rdi) rfl .nil).reaches first
    have called : (m.popped .rdi).next.step w prog = some (.runs (w.print (m.popped .rdi).next)) :=
      Processor.step_inst (place ▸ here)
    refine .settled fun _ => ⟨_, steps.tail called, ?_, ?_⟩
    · rw [prints.pc, place]
      rfl
    · rw [← value]
      exact follows_print ground taken.next prints
  next => trivial

/-- Values taken from the stack into different registers, one after another. -/
theorem executes_pops (prog : List Line) (h : Follows w g base calls m₀ s m) {rs : List Reg}
    (nodup : rs.Nodup) (hrsp : .rsp ∉ rs) (hr13 : .r13 ∉ rs) {values rest : List Word}
    (hs : s.stack = values ++ rest) (hlen : values.length = rs.length) :
    ∃ m', Executes w prog m (rs.map pop) m' ∧
      Follows w g base calls m₀ { s with stack := rest } m' ∧ rs.map m'.regs = values ∧
      ∀ r ∉ rs, r ≠ .rsp → m'.regs r = m.regs r := by
  induction rs generalizing s m values with
  | nil =>
    obtain rfl := List.eq_nil_of_length_eq_zero hlen
    obtain rfl : s.stack = rest := hs
    exact ⟨m, .nil, h, rfl, fun _ _ _ => rfl⟩
  | cons r rs ih =>
    obtain ⟨v, values, rfl⟩ := List.exists_cons_of_length_eq_add_one hlen
    rw [List.nodup_cons] at nodup
    rw [List.mem_cons, not_or] at hrsp hr13
    obtain ⟨taken, value⟩ := h.popped hs (Ne.symm hrsp.1) (Ne.symm hr13.1)
    obtain ⟨m', run, follows, held, other⟩ :=
      ih taken.next nodup.2 hrsp.2 hr13.2 rfl (Nat.succ.inj hlen)
    refine ⟨m', .inst rfl run, follows, ?_, ?_⟩
    · rw [List.map_cons, held, other r nodup.1 (Ne.symm hrsp.1)]
      exact congrArg (· :: values) value
    · intro x hx ne
      rw [List.mem_cons, not_or] at hx
      rw [other x hx.2 ne]
      exact Processor.popped_regs_of_ne hx.1 ne

include ground h in
theorem follows_syscall {values values' : List Word} {writes : List (Word × BitVec 8)}
    (first : values <+: values') (own : (writes.all fun e => g.owned e.1) = true)
    (rsp : m'.regs .rsp = m.regs .rsp) (r13 : m'.regs .r13 = m.regs .r13)
    (ram : m'.ram = m.ram.patch writes) (trace : m'.trace = m.trace ++ [.syscall values' m.ram]) :
    Follows w g base calls m₀
      { s with ram := s.ram.patch writes, trace := s.trace ++ [.syscall values s.ram] } m' := by
  have patched : Follows w g base calls m₀ { s with ram := s.ram.patch writes }
      (m.withRam (m.ram.patch writes)) := by
    refine h.inside ground rfl rfl rfl (fun a ha => Ram.patch_congr (h.owned ha)) fun a ha => ?_
    refine Ram.patch_of_not_mem fun hm => ha ?_
    obtain ⟨e, he, rfl⟩ := List.mem_map.mp hm
    exact List.all_eq_true.mp own e he
  exact patched.shown (.syscall first fun a ha => h.owned ha) rsp r13 ram trace

include ground h in
theorem simulates_syscall (answers : w.Answers g) {n : Int} (hn : n ≤ argumentRegs.length)
    {code : List Line} (code_eq : code = (argumentRegs.take n.toNat).map pop ++
      [.inst (.nullary .syscall), push .rax]) (hc : CodeAt prog m.pc code) :
    Simulates w prog g base calls m₀ back (m.pc + code.length) m (g.op proc s (.syscall n)) := by
  rw [Setting.op]
  split
  next enough =>
    subst code_eq
    obtain ⟨pops, here, last⟩ := codeAt_append.mp hc
    have count : (s.stack.take n.toNat).length = (argumentRegs.take n.toNat).length := by
      rw [List.length_take, List.length_take]
      omega
    have nodup : (argumentRegs.take n.toNat).Nodup := (List.take_sublist _ _).nodup (by decide)
    obtain ⟨m₁, run, follows, held, _⟩ := executes_pops prog h nodup
      (fun hm => absurd (List.mem_of_mem_take hm) (by decide))
      (fun hm => absurd (List.mem_of_mem_take hm) (by decide))
      (List.take_append_drop n.toNat s.stack).symm count
    have first : s.stack.take n.toNat <+: argumentRegs.map m₁.regs := by
      rw [← held, List.map_take]
      exact List.take_prefix _ _
    obtain ⟨steps, place⟩ := run.reaches pops
    have called : m₁.step w prog = some (m₁.syscall w) := Processor.step_inst (place ▸ here)
    have time : s.trace.length = m₁.trace.length := follows.trace.length_eq
    unfold Setting.syscall
    split
    next => trivial
    next status answer =>
      have kernel := answers answer first fun a ha => follows.owned ha
      rw [time] at kernel
      refine ⟨m₁, _, steps, ?_, follows.trace⟩
      rw [called, Processor.syscall, kernel]
    next v writes answer =>
      have kernel := answers answer first fun a ha => follows.owned ha
      rw [time] at kernel
      split
      next own =>
        let m₂ : Processor := { ((m₁.set .rcx (w.code (m₁.pc + 1))).set .rax v).mixed with
          ram := m₁.ram.patch writes
          trace := m₁.trace ++ [.syscall (argumentRegs.map m₁.regs) m₁.ram]
          pc := m₁.pc + 1 }
        have goes : m₁.step w prog = some (.runs m₂) := by
          rw [called, Processor.syscall, kernel]
        have after : Follows w g base calls m₀
            { s with
              stack := s.stack.drop n.toNat
              ram := s.ram.patch writes
              trace := s.trace ++ [.syscall (s.stack.take n.toNat) s.ram] } m₂ :=
          follows_syscall ground follows first own rfl rfl rfl rfl
        have code : CodeAt prog m₂.pc [push .rax] := by
          change CodeAt prog (m₁.pc + 1) _
          rwa [place]
        obtain ⟨more, there⟩ := (Executes.inst (i := .push (.reg .rax)) rfl .nil).reaches code
        refine .settled fun room => ⟨_, (steps.tail goes).trans more, ?_,
          (after.pushedReg ground .rax rfl room).next⟩
        rw [there, List.length_append]
        change m₁.pc + 1 + 1 = _
        rw [place]
        rfl
      next => trivial
  next => trivial

/-! ### Leaving a procedure -/

/-- The return address of a procedure, unless it is the one that ends the process, leads back to a
line. -/
def Linked (w : Platform) (prog : List Line) (proc : String) (calls : Nat) (m₀ : Processor)
    (back : Nat) : Prop :=
  proc ≠ Source.entryPoint →
    1 ≤ calls ∧ Processor.lineAt? w prog (m₀.slot w calls) = some back

include h in
theorem simulates_exit (exits : w.Exits) {pc : Nat}
    (hc : CodeAt prog m.pc (returnLines Source.entryPoint)) :
    Simulates w prog g base calls m₀ back pc m (.exited 0 s.trace) := by
  obtain ⟨first, here, _⟩ := CodeAt.split [mov .rax (.imm sysExit), both .xor .rdi .rdi] hc
  let m₁ := (m.set .rax (BitVec.ofInt 64 sysExit)).next
  let m₂ := (m₁.set .rdi (m₁.regs .rdi ^^^ m₁.regs .rdi)).mixed.next
  have run : Executes w prog m [mov .rax (.imm sysExit), both .xor .rdi .rdi] m₂ :=
    .inst (move_imm ..) (.inst (combine_regs ..) .nil)
  obtain ⟨steps, place⟩ := run.reaches first
  have zero : m₂.regs .rdi = 0 := BitVec.xor_self
  have kernel : w.kernel m₂.trace.length (argumentRegs.map m₂.regs) m₂.ram =
      .exits (m₂.regs .rdi) := exits ..
  refine ⟨m₂, m₂.trace, steps, ?_, h.trace⟩
  rw [Processor.step_inst (place ▸ here), Processor.exec, Processor.syscall, kernel, zero]

/-- The word on the return stack that belongs to the last call. -/
theorem Follows.last_slot (h : Follows w g base (calls + 1) m₀ s m) :
    m.ram.word (w.place .returnStack + m.regs .r13 * 8) = m₀.slot w (calls + 1) := by
  rw [← h.kept _ (Nat.le_refl _), h.index]
  rfl

theorem Follows.left (h : Follows w g base (calls + 1) m₀ s m)
    (rsp : m'.regs .rsp = m.regs .rsp) (r13 : m'.regs .r13 = m.regs .r13 - 1)
    (ram : m'.ram = m.ram) (trace : m'.trace = m.trace) :
    Follows w g base calls m₀ s m' := by
  have same : Follows w g base (calls + 1) m₀ s (m'.set .r13 (m.regs .r13)) :=
    h.same rsp rfl ram trace
  refine ⟨same.height, same.pointer, same.stack, same.owned, same.origin, ?_,
    Nat.le_of_succ_le same.nested, same.trace, fun k hk => same.kept k (Nat.le_succ_of_le hk)⟩
  rw [r13, h.index, BitVec.ofNat_add]
  exact BitVec.add_sub_cancel _ _

include h in
theorem simulates_back (low : g.depth < 2 ^ 31) {n : Nat} (hn : calls = n + 1)
    (found : Processor.lineAt? w prog (m₀.slot w calls) = some back)
    (other : proc ≠ Source.entryPoint) (hc : CodeAt prog m.pc (returnLines proc)) {pc : Nat} :
    Simulates w prog g base calls m₀ back pc m (.returned s) := by
  subst hn
  rw [returnLines, if_neg other] at hc
  obtain ⟨first, here, _⟩ := CodeAt.split [both .test .r13 .r13,
    .inst (.jumpIf .z .stackUnderflow), mov .rdx (.mem (.symbolSlot .returnStack .r13)),
    .inst (.unary .dec .r13)] hc
  have nested := h.nested
  have index := h.index
  have nonzero : (Flags.test (m.regs .r13)).holds .z = false := by
    rw [index]
    refine decide_eq_false fun zero => ?_
    have number := congrArg BitVec.toNat zero
    rw [BitVec.toNat_ofNat] at number
    change (n + 1) % 2 ^ 64 = 0 at number
    omega
  let m₁ := (m.compared (Flags.test (m.regs .r13))).next.next
  let m₂ := (m₁.set .rdx (m₁.ram.word (w.place .returnStack + m₁.regs .r13 * 8))).next
  let m₃ := (m₂.set .r13 (m₂.regs .r13 - 1)).mixed.next
  have run : Executes w prog m [both .test .r13 .r13, .inst (.jumpIf .z .stackUnderflow),
      mov .rdx (.mem (.symbolSlot .returnStack .r13)), .inst (.unary .dec .r13)] m₃ :=
    .inst (effect_test ..) (.pass rfl nonzero (.inst (move_mem ..) (.inst rfl .nil)))
  obtain ⟨steps, place⟩ := run.reaches first
  have target : m₃.regs .rdx = m₀.slot w (n + 1) := h.last_slot
  have goes : m₃.step w prog = some (.runs { m₃ with pc := back }) := by
    rw [Processor.step_inst (place ▸ here), Processor.exec, target, found]
    rfl
  exact ⟨_, n, steps.tail goes, rfl, rfl, h.left rfl rfl rfl rfl⟩

include h in
theorem simulates_ret (exits : w.Exits) (low : g.depth < 2 ^ 31)
    (linked : Linked w prog proc calls m₀ back) (hc : CodeAt prog m.pc (returnLines proc))
    {pc : Nat} : Simulates w prog g base calls m₀ back pc m (g.op proc s .ret) := by
  rw [Setting.op]
  split
  next entry =>
    subst entry
    exact simulates_exit h exits hc
  next other =>
    obtain ⟨nested, found⟩ := linked other
    obtain ⟨n, hn⟩ := Nat.exists_eq_add_of_le' nested
    exact simulates_back h proc low hn found other hc

end StackLang.Target
