import Mathlib.Data.Nat.Notation
import StackLang.Proofs.Text.Encoding
import StackLang.Target.Symbol
/-!
The spelling of symbols: mangled names can be read back, so that different symbols are spelled
differently, and symbols that are not local to another one are made of letters, digits and
underscores.
-/

namespace StackLang.Target

open StackLang.Text

/-- The characters that symbols are made of. -/
def isSymbolChar (c : Char) : Bool :=
  c.isAlphanum || c = '_'

theorem isSymbolChar_iff {c : Char} : isSymbolChar c = true ↔
    (48 ≤ c.toNat ∧ c.toNat ≤ 57) ∨ (65 ≤ c.toNat ∧ c.toNat ≤ 90) ∨
      (97 ≤ c.toNat ∧ c.toNat ≤ 122) ∨ c.toNat = 95 := by
  have alpha : c.isAlpha = (c.isUpper || c.isLower) := rfl
  have upper : c.isUpper = decide (c.val ≥ 'A'.val ∧ c.val ≤ 'Z'.val) := rfl
  have lower : c.isLower = (decide (c.val ≥ 'a'.val) && decide (c.val ≤ 'z'.val)) := rfl
  have digit : c.isDigit = (decide (c.val ≥ '0'.val) && decide (c.val ≤ '9'.val)) := rfl
  have under : c = '_' ↔ c.val.toNat = 95 := by
    rw [← Char.toNat_inj]
    rfl
  have marks : 'A'.val.toNat = 65 ∧ 'Z'.val.toNat = 90 ∧ 'a'.val.toNat = 97 ∧
      'z'.val.toNat = 122 ∧ '0'.val.toNat = 48 ∧ '9'.val.toNat = 57 := by decide
  have value : c.toNat = c.val.toNat := rfl
  simp only [isSymbolChar, Char.isAlphanum, alpha, upper, lower, digit, Bool.or_eq_true,
    Bool.and_eq_true, decide_eq_true_eq, ge_iff_le, UInt32.le_iff_toNat_le, under, value]
  omega

theorem not_mem_of_symbolChars {c : Char} {cs : List Char} (h : ∀ d ∈ cs, isSymbolChar d = true)
    (hc : isSymbolChar c = false) : c ∉ cs := by
  intro hm
  rw [h c hm] at hc
  cases hc

/-- Reads a mangled name back: an underscore stands for itself where it is doubled, and begins the
number of a byte otherwise. -/
def unmangle : List Char → List UInt8
  | '_' :: '_' :: rest => UInt8.ofNat '_'.toNat :: unmangle rest
  | '_' :: a :: b :: rest =>
    UInt8.ofNat ((hexValue? a).getD 0 * 16 + (hexValue? b).getD 0) :: unmangle rest
  | c :: rest => UInt8.ofNat c.toNat :: unmangle rest
  | [] => []

theorem hexDigit_facts : ∀ n < 16, hexValue? (hexDigit n) = some n ∧ hexDigit n ≠ '_' ∧
    isSymbolChar (hexDigit n) = true := by
  decide

theorem toNat_ofNat_byte (b : UInt8) : (Char.ofNat b.toNat).toNat = b.toNat := by
  have low := b.toNat_lt
  exact toNat_ofNat_of_isValidChar (.inl (by omega))

/-- A byte is read back from the front of a mangled name. -/
theorem unmangle_mangleByte (b : UInt8) (rest : List Char) :
    unmangle (mangleByte b ++ rest) = b :: unmangle rest := by
  have low := b.toNat_lt
  have number : UInt8.ofNat b.toNat = b := by simp
  unfold mangleByte
  split
  next under =>
    have hb : UInt8.ofNat '_'.toNat = b := by rw [← under, number]
    simp only [List.cons_append, List.nil_append, unmangle, hb]
  next other =>
    split
    next =>
      have hc : Char.ofNat b.toNat ≠ '_' := by
        intro same
        have value := toNat_ofNat_byte b
        rw [same] at value
        exact other value.symm
      rw [List.singleton_append, unmangle, toNat_ofNat_byte, number]
      · intro _ h
        exact absurd h hc
      · intro _ _ _ h
        exact absurd h hc
    next =>
      have upper := hexDigit_facts (b.toNat / 16) (by omega)
      have lower := hexDigit_facts (b.toNat % 16) (by omega)
      have value : b.toNat / 16 * 16 + b.toNat % 16 = b.toNat := by omega
      simp [hexByte, unmangle, upper, lower, value]

theorem unmangle_mangle (bytes : List UInt8) : unmangle (mangle bytes).toList = bytes := by
  unfold mangle
  rw [String.toList_ofList]
  induction bytes with
  | nil => rfl
  | cons b rest ih => rw [List.flatMap_cons, unmangle_mangleByte, ih]

theorem mangle_injective : Function.Injective mangle := by
  intro a b h
  rw [← unmangle_mangle a, h, unmangle_mangle]

theorem isSymbolChar_hexByte {b : UInt8} {c : Char} (hc : c ∈ hexByte b) :
    isSymbolChar c = true := by
  have low := b.toNat_lt
  have upper := hexDigit_facts (b.toNat / 16) (by omega)
  have lower := hexDigit_facts (b.toNat % 16) (by omega)
  simp only [hexByte, List.mem_cons, List.not_mem_nil, or_false] at hc
  rcases hc with rfl | rfl
  · exact upper.2.2
  · exact lower.2.2

theorem isSymbolChar_mangle {bytes : List UInt8} {c : Char} (hc : c ∈ (mangle bytes).toList) :
    isSymbolChar c = true := by
  rw [mangle, String.toList_ofList, List.mem_flatMap] at hc
  obtain ⟨b, _, hc⟩ := hc
  have low := b.toNat_lt
  unfold mangleByte at hc
  split at hc
  next =>
    have hc : c = '_' := by simpa using hc
    rw [hc]
    rfl
  next =>
    split at hc
    next alnum =>
      have hc : c = Char.ofNat b.toNat := by simpa using hc
      have value := toNat_ofNat_byte b
      simp only [isAlnum, Bool.or_eq_true, Bool.and_eq_true, decide_eq_true_eq] at alnum
      rw [isSymbolChar_iff, hc, value]
      omega
    next =>
      rcases List.mem_cons.mp hc with rfl | hc
      · rfl
      · exact isSymbolChar_hexByte hc

/-! ### Symbols -/

theorem isSymbolChar_repr {n : Nat} {c : Char} (hc : c ∈ n.repr.toList) :
    isSymbolChar c = true := by
  rw [Nat.toList_repr] at hc
  have digit := Nat.isDigit_of_mem_toDigits (by decide) (by decide) hc
  simp [isSymbolChar, Char.isAlphanum, digit]

theorem natRepr_injective : Function.Injective Nat.repr := by
  intro a b h
  have digits := congrArg String.toList h
  rw [Nat.toList_repr, Nat.toList_repr] at digits
  rw [← Nat.ofDigitChars_ten_toDigits (n := a), digits, Nat.ofDigitChars_ten_toDigits]

@[simp] theorem Notice.take_symbol (n : Notice) (rest : List Char) :
    (n.symbol.toList ++ rest).take 4 = ['m', 's', 'g', '_'] := by
  cases n <;> rfl

@[simp] theorem Notice.take_symbol_alone (n : Notice) :
    n.symbol.toList.take 4 = ['m', 's', 'g', '_'] := by
  cases n <;> rfl

/-- Different symbols are spelled differently: those of different kinds differ in their first
characters, and a name or a number can be read back from the rest. -/
theorem Symbol.text_injective : Function.Injective Symbol.text := by
  intro s t h
  have lead := congrArg (fun x => x.toList.take 4) h
  cases s <;> cases t
  case proc.proc a b =>
    have names : mangle (bytesOf a) = mangle (bytesOf b) := by
      simpa [Symbol.text, procSymbol] using h
    exact congrArg Symbol.proc (bytesOf_injective (mangle_injective names))
  case memory.memory a b =>
    have names : mangle (bytesOf a) = mangle (bytesOf b) := by
      simpa [Symbol.text, memorySymbol] using h
    exact congrArg Symbol.memory (bytesOf_injective (mangle_injective names))
  case string.string a b =>
    have numbers : a.repr = b.repr := String.append_right_inj "str_" |>.mp h
    exact congrArg Symbol.string (natRepr_injective numbers)
  case label.label a b =>
    have numbers : a.repr = b.repr := String.append_right_inj ".addr_" |>.mp h
    exact congrArg Symbol.label (natRepr_injective numbers)
  case notice.notice a b => cases a <;> cases b <;> simp_all [Symbol.text, Notice.symbol]
  case notice.noticeLength a b => cases a <;> cases b <;> simp [Symbol.text, Notice.symbol] at h
  case noticeLength.notice a b => cases a <;> cases b <;> simp [Symbol.text, Notice.symbol] at h
  case noticeLength.noticeLength a b =>
    cases a <;> cases b <;> simp_all [Symbol.text, Notice.symbol]
  all_goals simp [Symbol.text, procSymbol, memorySymbol, stringLabelText, labelText] at lead h ⊢

/-! ### Names of any bytes -/

/-- The bytes that symbols are made of: ASCII letters and digits, and the underscore. -/
def isSymbolByte (b : UInt8) : Bool :=
  isSymbolChar (Char.ofNat b.toNat)

theorem isSymbolByte_of_mem_utf8EncodeChar {c : Char} (hc : isSymbolChar c = true) {b : UInt8}
    (hb : b ∈ String.utf8EncodeChar c) : isSymbolByte b = true := by
  have range := isSymbolChar_iff.mp hc
  have single : String.utf8EncodeChar c = [UInt8.ofNat c.toNat] := by
    have low : c.toNat ≤ 127 := by omega
    simp [String.utf8EncodeChar, low]
  rw [single, List.mem_singleton] at hb
  rw [isSymbolByte, hb, toNat_ofNat_of_byte (by omega), Char.ofNat_toNat, hc]

theorem isSymbolByte_mangle (bytes : List UInt8) :
    (bytesOf (mangle bytes)).all isSymbolByte = true := by
  rw [List.all_eq_true]
  intro b hb
  obtain ⟨c, hc, hb⟩ := List.mem_flatMap.mp hb
  exact isSymbolByte_of_mem_utf8EncodeChar (isSymbolChar_mangle hc) hb

/-- Symbols of procedures, of memory regions and of strings have beginnings of their own. -/
theorem symbol_kinds_apart (a b : List UInt8) (n : Int) : procSymbol a ≠ memorySymbol b ∧
    procSymbol a ≠ stringLabelText n ∧ memorySymbol b ≠ stringLabelText n := by
  refine ⟨fun h => ?_, fun h => ?_, fun h => ?_⟩ <;>
    simpa [procSymbol, memorySymbol, stringLabelText] using
      congrArg (fun x => x.toList.take 4) h

/-- The first characters of a symbol tell whether it is that of a declaration. -/
theorem Symbol.declared_of_take (s : Symbol) :
    (s.text.toList.take 4 = ['p', 'r', 'o', 'c'] → ∃ name, s = .proc name) ∧
      (s.text.toList.take 4 = ['m', 'e', 'm', '_'] → ∃ name, s = .memory name) := by
  cases s <;> simp [Symbol.text, procSymbol, memorySymbol, stringLabelText, labelText]

theorem Symbol.text_eq_procSymbol_iff (s : Symbol) (bytes : List UInt8) :
    s.text = procSymbol bytes ↔ ∃ name, s = .proc name ∧ bytesOf name = bytes := by
  constructor
  · intro h
    obtain ⟨name, rfl⟩ := s.declared_of_take.1 (by rw [h]; simp [procSymbol])
    exact ⟨name, rfl, mangle_injective (String.append_right_inj "proc_" |>.mp h)⟩
  · rintro ⟨name, rfl, rfl⟩
    rfl

theorem Symbol.text_eq_memorySymbol_iff (s : Symbol) (bytes : List UInt8) :
    s.text = memorySymbol bytes ↔ ∃ name, s = .memory name ∧ bytesOf name = bytes := by
  constructor
  · intro h
    obtain ⟨name, rfl⟩ := s.declared_of_take.2 (by rw [h]; simp [memorySymbol])
    exact ⟨name, rfl, mangle_injective (String.append_right_inj "mem_" |>.mp h)⟩
  · rintro ⟨name, rfl, rfl⟩
    rfl

/-- Mangling can be undone, for names of any bytes, and gives bytes of symbols only. So the symbols
of procedures and memory regions differ from each other, from those of strings, and from every
symbol that is not one of a procedure or of a memory region with the same name. -/
theorem mangling_reversible :
    Function.LeftInverse (fun text : String => unmangle text.toList) mangle ∧
    Function.Injective mangle ∧
    (∀ bytes, (bytesOf (mangle bytes)).all isSymbolByte = true) ∧
    (∀ a b (n : Int), procSymbol a ≠ memorySymbol b ∧ procSymbol a ≠ stringLabelText n ∧
      memorySymbol b ≠ stringLabelText n) ∧
    ∀ (s : Symbol) (bytes : List UInt8),
      (s.text = procSymbol bytes ↔ ∃ name, s = .proc name ∧ bytesOf name = bytes) ∧
      (s.text = memorySymbol bytes ↔ ∃ name, s = .memory name ∧ bytesOf name = bytes) :=
  ⟨unmangle_mangle, mangle_injective, isSymbolByte_mangle, symbol_kinds_apart,
    fun s bytes => ⟨s.text_eq_procSymbol_iff bytes, s.text_eq_memorySymbol_iff bytes⟩⟩

example : mangle (bytesOf "a-b") = "a_2db" ∧ mangle (bytesOf "a_2db") = "a__2db" ∧
    mangle [0x5f, 0xff] = "___ff" := by
  decide +kernel

end StackLang.Target
