import StackLang.Proofs.Machine.Calls
import StackLang.Target.Generate
/-!
The printing routine, line by line. It comes back to the line behind the call: the digits that it
writes stay below the return address.
-/

namespace StackLang.Target

open Line
open Processor (Walks)

/-- Bytes that lie some way below a word leave it as it is. -/
theorem Ram.word_store_below {ram : Ram} {a b : Word} {n v d : Nat}
    (gap : a = b + BitVec.ofNat 64 d) (le : n ≤ d) (small : d + 8 ≤ 2 ^ 64) :
    (ram.store b n v).word a = ram.word a := by
  unfold Ram.word
  rw [Ram.load_congr]
  intro i hi
  refine if_neg ?_
  have place : a + BitVec.ofNat 64 i - b = BitVec.ofNat 64 (d + i) := by
    rw [gap, BitVec.add_assoc, ← BitVec.ofNat_add, BitVec.add_comm, BitVec.add_sub_cancel]
  rw [place, BitVec.toNat_ofNat, Nat.mod_eq_of_lt (by omega)]
  omega

/-- Writing to a file does not change the memory of the process. -/
def Platform.Writes (w : Platform) : Prop :=
  ∀ {time rest ram value writes},
    w.kernel time (BitVec.ofInt 64 sysWrite :: rest) ram = .returns value writes → writes = []

section

variable (w : Platform) (entry back : Nat)

/-- The processor in the printing routine, above its frame pointer the return address. -/
def Framed (m : Processor) : Prop :=
  m.ram.word (m.regs .rbp + 8) = w.code back

/-- So many bytes have been written below the frame pointer. -/
def Filled (k : Nat) (m : Processor) : Prop :=
  m.regs .rbp = m.regs .rsi + BitVec.ofNat 64 k ∧ k ≤ 2 ^ 62 + 1

/-- The lines at which the printing routine does not go straight on. -/
inductive PrintStop (m : Processor) : Prop
  | sign : m.pc = entry + 10 → Framed w back m → Filled 1 m → m.regs .rcx = 10 → PrintStop m
  | more {k : Nat} : m.pc = entry + 20 → Framed w back m → Filled k m → m.regs .rcx = 10 →
      m.flags = some (Flags.test (m.regs .rax)) → k + (m.regs .rax).toNat ≤ 2 ^ 62 → PrintStop m
  | minus {k : Nat} : m.pc = entry + 22 → Framed w back m → Filled k m → k ≤ 2 ^ 62 → PrintStop m
  | shown : m.pc = entry + 30 → Framed w back m → m.regs .rax = BitVec.ofInt 64 sysWrite →
      PrintStop m
  | done : m.pc = entry + 32 → m.ram.word (m.regs .rsp) = w.code back → PrintStop m

def Printing (prog : List Line) : Processor → Prop :=
  Heading w prog (PrintStop w entry back)

end

variable {w : Platform} {prog : List Line} {entry back : Nat} {m m' : Processor}

theorem Framed.stored {a : Word} {n v k : Nat} (h : Framed w back m)
    (ram : m'.ram = m.ram.store a n v) (rbp : m'.regs .rbp = m.regs .rbp)
    (gap : m.regs .rbp = a + BitVec.ofNat 64 k) (le : n ≤ k + 8) (small : k + 16 ≤ 2 ^ 64) :
    Framed w back m' := by
  unfold Framed at h ⊢
  rw [ram, rbp]
  refine (Ram.word_store_below (d := k + 8) ?_ le (by omega)).trans h
  rw [gap, BitVec.add_assoc, BitVec.ofNat_add]
  rfl

theorem below_decrement {k : Nat} {a b : Word} (h : a = b + BitVec.ofNat 64 k) :
    a = b - 1 + BitVec.ofNat 64 (k + 1) := by
  rw [h, BitVec.ofNat_add, BitVec.add_comm (BitVec.ofNat 64 k), ← BitVec.add_assoc]
  congr 1
  exact (BitVec.sub_add_cancel _ _).symm

/-- A division by ten is no fault as long as the upper word is zero. -/
theorem effect_div_ten (upper : m.regs .rdx = 0) (ten : m.regs .rcx = 10) :
    m.effect w prog (.unary .div .rcx) =
      some ((m.set .rax (BitVec.ofNat 64 ((m.regs .rax).toNat / 10))).set .rdx
        (BitVec.ofNat 64 ((m.regs .rax).toNat % 10))).mixed := by
  have word := (m.regs .rax).isLt
  have divisor : (10 : Word).toNat = 10 := rfl
  have none : (0 : Word).toNat = 0 := rfl
  have fits : ¬ (10 = 0 ∨ 2 ^ 64 ≤ (m.regs .rax).toNat / 10) := by omega
  simp only [Processor.effect, Processor.unary, Processor.divide, upper, ten, divisor, none,
    Nat.zero_mul, Nat.zero_add, if_neg fits]

section

variable (code : CodeAt prog entry printInt)

include code

/-- The routine begins with the return address on the stack. -/
theorem Printing.enter (here : m.pc = entry) (top : m.ram.word (m.regs .rsp) = w.code back) :
    Printing w entry back prog m := by
  let m₁ := (m.next.pushed (m.regs .rbp)).next
  let m₂ := (m₁.set .rbp (m₁.regs .rsp)).next
  let m₃ := (m₂.set .rsp (m₂.regs .rsp - BitVec.ofInt 64 32)).mixed.next
  let m₄ := (m₃.set .rax (m₃.regs .rdi)).next
  let m₅ := (m₄.set .rsi (m₄.regs .rbp - BitVec.ofNat 64 1)).next
  let m₆ := (m₅.withRam (m₅.ram.store (m₅.regs .rsi) 1 (m₅.read w .byte (.imm 10)).toNat)).next
  let m₇ := (m₆.set .rcx (BitVec.ofInt 64 10)).next
  let m₈ := (m₇.set .r8 (m₇.regs .r8 ^^^ m₇.regs .r8)).mixed.next
  let m₉ := (m₈.compared (Flags.test (m₈.regs .rax))).next
  have sub : m₂.effect w prog (.binary .sub (.reg .rsp) (.imm 32)) =
      some (m₂.set .rsp (m₂.regs .rsp - BitVec.ofInt 64 32)).mixed := combine_imm w m₂ .rsp _ rfl
  have tests : m₈.effect w prog (.binary .test (.reg .rax) (.reg .rax)) =
      some (m₈.compared (Flags.test (m₈.regs .rax))) := effect_test w m₈ .rax prog
  have walks : Walks w prog m (printInt.take 10) m₉ :=
    .label (.inst rfl (.inst (move_reg w m₁ ..) (.inst sub (.inst (move_reg w m₃ ..) (.inst rfl
      (.inst rfl (.inst (move_imm w m₆ ..) (.inst (combine_regs w m₇ ..) (.inst tests
        .nil)))))))))
  have frame : Framed w back m₅ := by
    change (m.ram.putWord (m.regs .rsp - 8) (m.regs .rbp)).word (m.regs .rsp - 8 + 8) = _
    rw [BitVec.sub_add_cancel, ← top]
    refine Ram.word_store_below (d := 8) ?_ (Nat.le_refl 8) (by decide)
    exact (BitVec.sub_add_cancel _ _).symm
  have below : m₉.regs .rbp = m₉.regs .rsi + BitVec.ofNat 64 1 :=
    (BitVec.sub_add_cancel (m₅.regs .rbp) (BitVec.ofNat 64 1)).symm
  refine Heading.before (here ▸ code.slice 0 10) rfl walks
    (Heading.stop (.sign ?_ ?_ ⟨below, by decide⟩ rfl))
  · rw [walks.pc, here]
    rfl
  · exact frame.stored rfl rfl below (by decide) (by decide)

/-- From the first label on, a digit is written for every round. -/
theorem Printing.digits {k : Nat} (here : m.pc = entry + 13) (frame : Framed w back m)
    (filled : Filled k m) (ten : m.regs .rcx = 10)
    (round : k = 1 ∨ 0 < (m.regs .rax).toNat ∧ k + (m.regs .rax).toNat ≤ 2 ^ 62) :
    Printing w entry back prog m := by
  have word := (m.regs .rax).isLt
  let m₁ := (m.next.set .rdx (m.next.regs .rdx ^^^ m.next.regs .rdx)).mixed.next
  let m₂ := ((m₁.set .rax (BitVec.ofNat 64 ((m.regs .rax).toNat / 10))).set .rdx
    (BitVec.ofNat 64 ((m.regs .rax).toNat % 10))).mixed.next
  let v := m₂.read w .byte (.part .rdx .byte) + m₂.read w .byte (.char '0')
  let m₃ := (m₂.set .rdx (Size.byte.merge (m₂.regs .rdx) v)).mixed.next
  let m₄ := (m₃.set .rsi (m₃.regs .rsi - 1)).mixed.next
  let m₅ := (m₄.withRam (m₄.ram.store (m₄.regs .rsi) 1
    (m₄.read w .byte (.part .rdx .byte)).toNat)).next
  let m₆ := (m₅.compared (Flags.test (m₅.regs .rax))).next
  have divides : m₁.effect w prog (.unary .div .rcx) =
      some ((m₁.set .rax (BitVec.ofNat 64 ((m.regs .rax).toNat / 10))).set .rdx
        (BitVec.ofNat 64 ((m.regs .rax).toNat % 10))).mixed :=
    effect_div_ten BitVec.xor_self ten
  have tests : m₅.effect w prog (.binary .test (.reg .rax) (.reg .rax)) =
      some (m₅.compared (Flags.test (m₅.regs .rax))) := effect_test w m₅ .rax prog
  have walks : Walks w prog m ((printInt.drop 13).take 7) m₆ :=
    .label (.inst (combine_regs w m.next ..) (.inst divides (.inst rfl (.inst rfl (.inst rfl
      (.inst tests .nil))))))
  -- after one division by ten the quotient is below 2 ^ 62, and with every round it gets smaller by
  -- one at least, so it bounds the number of digits still to come
  have left : (m₆.regs .rax).toNat = (m.regs .rax).toNat / 10 := by
    change (BitVec.ofNat 64 ((m.regs .rax).toNat / 10)).toNat = _
    rw [BitVec.toNat_ofNat, Nat.mod_eq_of_lt (by omega)]
  have bound := filled.2
  have below : m₆.regs .rbp = m₆.regs .rsi + BitVec.ofNat 64 (k + 1) :=
    below_decrement filled.1
  refine Heading.before (here ▸ code.slice 13 7) rfl walks
    (Heading.stop (.more (k := k + 1) ?_ ?_ ⟨below, ?_⟩ ten rfl ?_))
  · rw [walks.pc, here]
    rfl
  · exact frame.stored rfl rfl below (by omega) (by omega)
  · omega
  · omega

/-- From the second label on, what was written is shown. -/
theorem Printing.write (here : m.pc = entry + 25) (frame : Framed w back m) :
    Printing w entry back prog m := by
  let m₁ := (m.next.set .rax (BitVec.ofInt 64 sysWrite)).next
  let m₂ := (m₁.set .rdi (BitVec.ofInt 64 stdoutFile)).next
  let m₃ := (m₂.set .rdx (m₂.regs .rbp)).next
  let m₄ := (m₃.set .rdx (m₃.regs .rdx - m₃.regs .rsi)).mixed.next
  have walks : Walks w prog m ((printInt.drop 25).take 5) m₄ :=
    .label (.inst (move_imm w m.next ..) (.inst (move_imm w m₁ ..) (.inst (move_reg w m₂ ..)
      (.inst (combine_regs w m₃ ..) .nil))))
  refine Heading.before (here ▸ code.slice 25 5) rfl walks (Heading.stop (.shown ?_ frame rfl))
  rw [walks.pc, here]
  rfl

theorem Printing.sign_step (nodup : (labels prog).Nodup) (here : m.pc = entry + 10)
    (frame : Framed w back m) (filled : Filled 1 m) (ten : m.regs .rcx = 10)
    (h : m.stepInto w prog = some (.runs m')) :
    m'.regs .r13 = m.regs .r13 ∧ Printing w entry back prog m' := by
  have line : prog[m.pc]? = some (.inst (.jumpIf .ns .digits)) := by
    rw [here]
    exact code.getElem? rfl
  have label : labelLine? prog .digits = some (entry + 13) :=
    labelLine?_eq nodup (code.getElem? rfl)
  obtain ⟨f, _, ⟨_, rfl⟩ | ⟨_, j, found, rfl⟩⟩ := Processor.stepInto_jumpIf line h
  · refine ⟨rfl, ?_⟩
    let m₁ := (m.next.set .r8 (BitVec.ofInt 64 1)).next
    let m₂ := (m₁.set .rax (-m₁.regs .rax)).mixed.next
    have walks : Walks w prog m.next ((printInt.drop 11).take 2) m₂ :=
      .inst (move_imm w m.next ..) (.inst rfl .nil)
    have place : m.next.pc = entry + 11 := by rw [Processor.next_pc, here]
    refine Heading.before (place ▸ code.slice 11 2) rfl walks
      (Printing.digits code ?_ frame filled ten (.inl rfl))
    rw [walks.pc, place]
    rfl
  · rw [label, Option.some.injEq] at found
    exact ⟨rfl, .digits code found.symm frame filled ten (.inl rfl)⟩

theorem Printing.more_step (nodup : (labels prog).Nodup) {k : Nat} (here : m.pc = entry + 20)
    (frame : Framed w back m) (filled : Filled k m) (ten : m.regs .rcx = 10)
    (flags : m.flags = some (Flags.test (m.regs .rax))) (bound : k + (m.regs .rax).toNat ≤ 2 ^ 62)
    (h : m.stepInto w prog = some (.runs m')) :
    m'.regs .r13 = m.regs .r13 ∧ Printing w entry back prog m' := by
  have line : prog[m.pc]? = some (.inst (.jumpIf .nz .digits)) := by
    rw [here]
    exact code.getElem? rfl
  have label : labelLine? prog .digits = some (entry + 13) :=
    labelLine?_eq nodup (code.getElem? rfl)
  obtain ⟨f, hf, ⟨_, rfl⟩ | ⟨holds, j, found, rfl⟩⟩ := Processor.stepInto_jumpIf line h
  · refine ⟨rfl, ?_⟩
    have walks : Walks w prog m.next ((printInt.drop 21).take 1)
        (m.next.compared (Flags.test (m.next.regs .r8))).next :=
      .inst (effect_test w m.next .r8 prog) .nil
    have place : m.next.pc = entry + 21 := by rw [Processor.next_pc, here]
    refine Heading.before (place ▸ code.slice 21 1) rfl walks
      (Heading.stop (.minus ?_ frame filled (by omega)))
    rw [walks.pc, place]
    rfl
  · rw [flags, Option.some.injEq] at hf
    rw [label, Option.some.injEq] at found
    have nonzero : m.regs .rax ≠ 0 := by
      subst hf
      simpa [Flags.holds, Flags.test] using holds
    have positive : 0 < (m.regs .rax).toNat := by
      refine Nat.pos_of_ne_zero fun zero => nonzero ?_
      exact BitVec.eq_of_toNat_eq zero
    exact ⟨rfl, .digits code found.symm frame filled ten (.inr ⟨positive, bound⟩)⟩

theorem Printing.minus_step (nodup : (labels prog).Nodup) {k : Nat} (here : m.pc = entry + 22)
    (frame : Framed w back m) (filled : Filled k m) (bound : k ≤ 2 ^ 62)
    (h : m.stepInto w prog = some (.runs m')) :
    m'.regs .r13 = m.regs .r13 ∧ Printing w entry back prog m' := by
  have line : prog[m.pc]? = some (.inst (.jumpIf .z .write)) := by
    rw [here]
    exact code.getElem? rfl
  have label : labelLine? prog .write = some (entry + 25) :=
    labelLine?_eq nodup (code.getElem? rfl)
  obtain ⟨f, hf, ⟨_, rfl⟩ | ⟨_, j, found, rfl⟩⟩ := Processor.stepInto_jumpIf line h
  · refine ⟨rfl, ?_⟩
    let m₁ := (m.next.set .rsi (m.next.regs .rsi - 1)).mixed.next
    let m₂ := (m₁.withRam (m₁.ram.store (m₁.regs .rsi) 1 (m₁.read w .byte (.char '-')).toNat)).next
    have walks : Walks w prog m.next ((printInt.drop 23).take 2) m₂ := .inst rfl (.inst rfl .nil)
    have place : m.next.pc = entry + 23 := by rw [Processor.next_pc, here]
    have below : m.regs .rbp = m₁.regs .rsi + BitVec.ofNat 64 (k + 1) := below_decrement filled.1
    refine Heading.before (place ▸ code.slice 23 2) rfl walks (Printing.write code ?_ ?_)
    · rw [walks.pc, place]
      rfl
    · exact frame.stored rfl rfl below (by omega) (by omega)
  · rw [label, Option.some.injEq] at found
    exact ⟨rfl, .write code found.symm frame⟩

theorem Printing.shown_step (writes : w.Writes) (here : m.pc = entry + 30)
    (frame : Framed w back m) (call : m.regs .rax = BitVec.ofInt 64 sysWrite)
    (h : m.stepInto w prog = some (.runs m')) :
    m'.regs .r13 = m.regs .r13 ∧ Printing w entry back prog m' := by
  have line : prog[m.pc]? = some (.inst (.nullary .syscall)) := by
    rw [here]
    exact code.getElem? rfl
  obtain ⟨value, changes, answer, rfl⟩ := Processor.stepInto_syscall line h
  have values : argumentRegs.map m.regs = m.regs .rax :: argumentRegs.tail.map m.regs := rfl
  rw [values, call] at answer
  -- what the system answers does not touch the frame
  obtain rfl := writes answer
  refine ⟨rfl, ?_⟩
  generalize hm : ({ ((m.set .rcx (w.code (m.pc + 1))).set .rax value).mixed with
        ram := m.ram.patch []
        trace := m.trace ++ [.syscall (argumentRegs.map m.regs) m.ram]
        pc := m.pc + 1 } : Processor) = m'
  have place : m'.pc = entry + 31 := by
    rw [← hm, ← Nat.add_assoc entry 30 1, ← here]
  have kept : Framed w back m' := by
    rw [← hm]
    exact frame
  have walks : Walks w prog m' ((printInt.drop 31).take 1)
      ((m'.set .rsp (m'.regs .rbp)).popped .rbp).next := .inst rfl .nil
  refine Heading.before (place ▸ code.slice 31 1) rfl walks (Heading.stop (.done ?_ kept))
  rw [walks.pc, place]
  rfl

theorem Printing.done_step (returns : Processor.lineAt? w prog (w.code back) = some back)
    (here : m.pc = entry + 32) (top : m.ram.word (m.regs .rsp) = w.code back)
    (h : m.stepInto w prog = some (.runs m')) :
    m'.regs .r13 = m.regs .r13 ∧ m'.pc = back := by
  have line : prog[m.pc]? = some (.inst (.nullary .ret)) := by
    rw [here]
    exact code.getElem? rfl
  rw [Processor.stepInto_eq line (fun _ h => nomatch h), Processor.step_inst line, Processor.exec,
    top, returns] at h
  cases h
  exact ⟨rfl, rfl⟩

/-- A step in the printing routine stays there or comes back behind the call. The lines of the
routine have no part in calls of procedures. -/
theorem Printing.step (nodup : (labels prog).Nodup) (writes : w.Writes)
    (returns : Processor.lineAt? w prog (w.code back) = some back)
    (h : Printing w entry back prog m) (hs : m.stepInto w prog = some (.runs m')) :
    m'.regs .r13 = m.regs .r13 ∧ (Printing w entry back prog m' ∨ m'.pc = back) := by
  obtain stop | ⟨l, m₁, _, _, step, index, later⟩ := Heading.step h
  · cases stop with
    | sign here frame filled ten =>
      exact (sign_step code nodup here frame filled ten hs).imp_right .inl
    | more here frame filled ten flags bound =>
      exact (more_step code nodup here frame filled ten flags bound hs).imp_right .inl
    | minus here frame filled bound =>
      exact (minus_step code nodup here frame filled bound hs).imp_right .inl
    | shown here frame call => exact (shown_step code writes here frame call hs).imp_right .inl
    | done here top => exact (done_step code returns here top hs).imp_right .inr
  · rw [step] at hs
    cases hs
    exact ⟨index, .inl later⟩

theorem Printing.inert (h : Printing w entry back prog m) :
    ∃ l, prog[m.pc]? = some l ∧ l.isInert = true := by
  obtain stop | ⟨l, _, here, quiet, _⟩ := Heading.step h
  · cases stop with
    | sign here | more here | minus here | shown here | done here =>
      exact ⟨_, here ▸ code.getElem? rfl, rfl⟩
  · exact ⟨l, here, quiet⟩

end

end StackLang.Target
