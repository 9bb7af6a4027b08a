import StackLang.Proofs.Machine.Execution
import StackLang.Proofs.Semantics
/-!
What the arithmetic of the processor computes.
-/

namespace StackLang.Target

@[simp] theorem low_qword (v : Word) : Size.qword.low v = v := by
  have hv : v.toNat % 256 ^ 8 = v.toNat := Nat.mod_eq_of_lt v.isLt
  rw [Size.low, Size.bytes, hv, BitVec.ofNat_toNat, BitVec.setWidth_eq]

@[simp] theorem low_bit (b : Bool) : Size.byte.low (bit b) = bit b := by
  cases b <;> rfl

/-- The low byte of a register after it is written. -/
@[simp] theorem low_merge_byte (old v : Word) :
    Size.byte.low (Size.byte.merge old v) = Size.byte.low v := by
  refine BitVec.eq_of_toNat_eq ?_
  simp only [Size.low, Size.merge, Size.bytes, Nat.pow_one, BitVec.toNat_ofNat]
  omega

@[simp] theorem bit_and (b c : Bool) : bit b &&& bit c = bit (b && c) := by
  cases b <;> cases c <;> rfl

@[simp] theorem bit_or (b c : Bool) : bit b ||| bit c = bit (b || c) := by
  cases b <;> cases c <;> rfl

/-- The sign of a difference and its overflow tell which number is less. -/
theorem sign_ne_overflow (a b : Word) :
    ((Flags.compare a b).sign != (Flags.compare a b).overflow) = decide (a.toInt < b.toInt) := by
  have ha := BitVec.toInt_lt (x := a)
  have ha' := BitVec.le_toInt (x := a)
  have hb := BitVec.toInt_lt (x := b)
  have hb' := BitVec.le_toInt (x := b)
  have hd : (a - b).toInt = a.toInt - b.toInt ∨ (a - b).toInt = a.toInt - b.toInt + 2 ^ 64 ∨
      (a - b).toInt = a.toInt - b.toInt - 2 ^ 64 := by
    rw [BitVec.toInt_sub, Int.bmod_def]
    split <;> omega
  have hr := BitVec.toInt_lt (x := a - b)
  have hr' := BitVec.le_toInt (x := a - b)
  unfold Flags.compare
  dsimp only
  rw [Bool.eq_iff_iff]
  simp only [bne_iff_ne, ne_eq, decide_eq_true_eq, decide_eq_decide]
  omega

theorem compare_zero (a b : Word) : (Flags.compare a b).zero = decide (a = b) := rfl

/-- What each condition tells of two numbers that were compared. -/
theorem compare_holds (a b : Word) :
    (Flags.compare a b).holds .e = decide (a = b) ∧
    (Flags.compare a b).holds .ne = decide (a ≠ b) ∧
    (Flags.compare a b).holds .l = decide (a.toInt < b.toInt) ∧
    (Flags.compare a b).holds .le = decide (a.toInt ≤ b.toInt) ∧
    (Flags.compare a b).holds .g = decide (a.toInt > b.toInt) ∧
    (Flags.compare a b).holds .ge = decide (a.toInt ≥ b.toInt) := by
  have less := sign_ne_overflow a b
  have same : a = b ↔ a.toInt = b.toInt := BitVec.toInt_inj.symm
  have not_less : ((Flags.compare a b).sign == (Flags.compare a b).overflow) =
      !decide (a.toInt < b.toInt) := by
    rw [← less, bne, Bool.not_not]
  refine ⟨rfl, ?_, less, ?_, ?_, ?_⟩ <;> rw [Bool.eq_iff_iff]
  · simp [Flags.holds, compare_zero]
  · simp only [Flags.holds, compare_zero, less, same, Bool.or_eq_true, decide_eq_true_eq]
    omega
  · simp only [Flags.holds, compare_zero, not_less, same, Bool.and_eq_true, Bool.not_eq_true',
      decide_eq_false_iff_not, decide_eq_true_eq]
    omega
  · simp only [Flags.holds, not_less, Bool.not_eq_true', decide_eq_false_iff_not,
      decide_eq_true_eq]
    omega

/-- The number of two words that the sign of the lower one fills. -/
theorem extended_dividend (a : Word) :
    (if a.toInt < 0 then (-1 : Word) else 0).toInt * 2 ^ 64 + a.toNat = a.toInt := by
  have high : (-1 : Word).toInt = -1 := by decide
  have low : (0 : Word).toInt = 0 := by decide
  have ha := BitVec.toInt_eq_toNat_cond a
  have lt := a.isLt
  split at ha <;> split <;> simp only [high, low] <;> omega

/-- A signed quotient is too large only where the least number is divided by minus one. -/
theorem quotient_fits (a b : Word) :
    -2 ^ 63 ≤ a.toInt.tdiv b.toInt ∧ a.toInt.tdiv b.toInt ≤ 2 ^ 63 := by
  have ha := BitVec.toInt_lt (x := a)
  have ha' := BitVec.le_toInt (x := a)
  have size : (a.toInt.tdiv b.toInt).natAbs ≤ a.toInt.natAbs := by
    rw [Int.natAbs_tdiv]
    exact Nat.div_le_self _ _
  omega

theorem ofInt_toInt (v : Int64) : BitVec.ofInt 64 v.toInt = v.toBitVec :=
  BitVec.ofInt_toInt

section

variable (w : Platform) (m : Processor) (r source : Reg)

@[simp] theorem read_reg : m.read w .qword (.reg r) = m.regs r :=
  low_qword _

@[simp] theorem move_reg : m.move w (.reg r) (.reg source) = some (m.set r (m.regs source)) := by
  simp [Processor.move, Operand.size?, Processor.write]

@[simp] theorem move_imm (n : Int) :
    m.move w (.reg r) (.imm n) = some (m.set r (BitVec.ofInt 64 n)) := by
  simp [Processor.move, Operand.size?, Processor.read, Processor.write]

@[simp] theorem move_mem (a : Address) :
    m.move w (.reg r) (.mem a) = some (m.set r (m.ram.word (m.address w a))) := rfl

@[simp] theorem move_to_mem (a : Address) : m.move w (.mem a) (.reg source) =
    some (m.withRam (m.ram.putWord (m.address w a) (m.regs source))) := by
  simp [Processor.move, Operand.size?, Processor.write, Ram.putWord, Size.bytes]

@[simp] theorem combine_regs (f : Word → Word → Word) : m.combine w f (.reg r) (.reg source) =
    some (m.set r (f (m.regs r) (m.regs source))).mixed := by
  simp [Processor.combine, Operand.size?, Operand.short, Processor.write]

theorem combine_imm (f : Word → Word → Word) {n : Int} (fits : fits32 n = true) :
    m.combine w f (.reg r) (.imm n) = some (m.set r (f (m.regs r) (BitVec.ofInt 64 n))).mixed := by
  simp [Processor.combine, Operand.size?, Operand.short, fits, Processor.read, Processor.write]

@[simp] theorem comparison_regs (f : Word → Word → Flags) :
    m.comparison w f (.reg r) (.reg source) =
      some (m.compared (f (m.regs r) (m.regs source))) := by
  simp [Processor.comparison, Operand.size?, Operand.short]

theorem comparison_imm (f : Word → Word → Flags) {n : Int} (fits : fits32 n = true) :
    m.comparison w f (.reg r) (.imm n) =
      some (m.compared (f (m.regs r) (BitVec.ofInt 64 n))) := by
  simp [Processor.comparison, Operand.size?, Operand.short, fits, Processor.read]

theorem comparison_zero (f : Word → Word → Flags) :
    m.comparison w f (.reg r) (.imm 0) = some (m.compared (f (m.regs r) 0)) := by
  simp [Processor.comparison, Operand.size?, Operand.short, fits32, Processor.read]

theorem effect_test (prog : List Line) : m.effect w prog (.binary .test (.reg r) (.reg r)) =
    some (m.compared (Flags.test (m.regs r))) := by
  simp [Processor.effect, Processor.binary]

theorem effect_set (prog : List Line) (c : Cond) {f : Flags} (h : m.flags = some f) :
    m.effect w prog (.set c r) =
      some (m.set r (Size.byte.merge (m.regs r) (bit (f.holds c)))) := by
  simp [Processor.effect, h, bit]

end

end StackLang.Target
