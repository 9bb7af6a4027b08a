import StackLang.Proofs.Target.Emission
import StackLang.Proofs.Target.Mangling
/-!
Assembly with and without remarks. No line of assembly holds a line feed, whatever its remarks are
made of, and the first character of a line says whether it is a remark. So the remarks can be taken
out of the text, and what is left is the assembly that is made without them.
-/

namespace StackLang.Target

open Line
open Text (quote quoteChar hexDigits hexByte)

/-- Whether the first character of a line that is no space begins a remark. -/
def opensRemark (line : List Char) : Bool :=
  (line.dropWhile (· = ' ')).head? = some ';'

/-- A text without the lines that are remarks. -/
def withoutRemarks (text : String) : String :=
  String.ofList (['\n'].intercalate ((text.toList.splitOn '\n').filter fun l => !opensRemark l))

def Line.isRemark : Line → Bool
  | .remark _ | .comment _ => true
  | _ => false

/-- Lines without the remarks among them. -/
def bare (lines : List Line) : List Line :=
  lines.filter fun l => !l.isRemark

@[simp] theorem bare_append (lines lines' : List Line) :
    bare (lines ++ lines') = bare lines ++ bare lines' :=
  List.filter_append ..

theorem bare_of_insts {code : List Line} (h : code.all isInst = true) : bare code = code := by
  refine List.filter_eq_self.mpr fun l hl => ?_
  have inst := List.all_eq_true.mp h l hl
  cases l <;> first | rfl | cases inst

/-! ### Texts without line feeds -/

theorem newline_not_mem_hexDigits (width n : Nat) : '\n' ∉ hexDigits width n := by
  refine not_mem_of_symbolChars ?_ rfl
  induction width generalizing n with
  | zero => simp [hexDigits]
  | succ width ih =>
    have digit := (hexDigit_facts (n % 16) (by omega)).2.2
    simpa [hexDigits, or_imp, forall_and] using ⟨ih (n / 16), digit⟩

theorem newline_not_mem_quoteChar (c : Char) : '\n' ∉ quoteChar c := by
  unfold quoteChar
  split
  next mark => rcases mark with rfl | rfl <;> decide
  next =>
    split
    next printable =>
      intro hm
      rw [← List.mem_singleton.mp hm] at printable
      exact absurd printable (by decide +kernel)
    next =>
      split
      next letter h =>
        unfold Text.escapeLetter? at h
        split at h <;> cases h <;> decide
      next => split_ifs <;> simp [newline_not_mem_hexDigits]

@[simp] theorem newline_not_mem_quote (s : String) : '\n' ∉ (quote s).toList := by
  simp [quote, newline_not_mem_quoteChar]

@[simp] theorem newline_not_mem_toDigits (n : Nat) : '\n' ∉ Nat.toDigits 10 n := by
  rw [← Nat.toList_repr]
  exact not_mem_of_symbolChars (fun _ => isSymbolChar_repr) rfl

@[simp] theorem newline_not_mem_repr (n : Int) : '\n' ∉ n.repr.toList := by
  cases n <;> simp [Int.repr]

@[simp] theorem newline_not_mem_mangle (bytes : List UInt8) : '\n' ∉ (mangle bytes).toList :=
  not_mem_of_symbolChars (fun _ => isSymbolChar_mangle) rfl

theorem newline_not_mem_intercalate {texts : List String} (h : ∀ t ∈ texts, '\n' ∉ t.toList) :
    '\n' ∉ (",".intercalate texts).toList := by
  induction texts with
  | nil => simp
  | cons t rest ih =>
    obtain ⟨here, later⟩ := List.forall_mem_cons.mp h
    by_cases hr : rest = []
    · subst hr
      simpa using here
    · rw [String.intercalate_cons_of_ne_nil hr]
      simpa [here] using ih later

@[simp] theorem newline_not_mem_dataBytes (bytes : List UInt8) (terminated : Bool) :
    '\n' ∉ (dataBytes bytes terminated).toList := by
  refine newline_not_mem_intercalate (List.forall_mem_append.mpr ⟨fun t ht => ?_, ?_⟩)
  · obtain ⟨b, _, rfl⟩ := List.mem_map.mp ht
    have digits : '\n' ∉ hexByte b := not_mem_of_symbolChars (fun _ => isSymbolChar_hexByte) rfl
    simp [dataByte, digits]
  · cases terminated <;> simp

@[simp] theorem Symbol.newline_not_mem_text (s : Symbol) : '\n' ∉ s.text.toList := by
  cases s with
  | notice n => cases n <;> decide
  | noticeLength n => cases n <;> decide
  | proc name => simp [Symbol.text, procSymbol]
  | memory name => simp [Symbol.text, memorySymbol]
  | string i => simp [Symbol.text, stringLabelText]
  | label i => simp [Symbol.text, labelText]
  | _ => decide

@[simp] theorem Reg.newline_not_mem_part (r : Reg) (s : Size) : '\n' ∉ (r.part s).toList := by
  cases r <;> cases s <;> decide

@[simp] theorem Address.newline_not_mem_text (a : Address) : '\n' ∉ a.text.toList := by
  cases a <;> simp [Address.text, Reg.text]

theorem Operand.newline_not_mem_text {o : Operand} (h : o ≠ .char '\n') :
    '\n' ∉ o.text.toList := by
  cases o with
  | char c =>
    have other : '\n' ≠ c := fun same => h (same ▸ rfl)
    simp [Operand.text, other]
  | sized s a => cases s <;> simp [Operand.text, Size.text]
  | _ => simp [Operand.text, Reg.text]

theorem Inst.newline_not_mem_text {i : Inst} (h : .char '\n' ∉ i.operands) :
    '\n' ∉ i.text.toList := by
  cases i with
  | binary op target source =>
    simp only [operands, List.mem_cons, List.not_mem_nil, or_false, not_or] at h
    have first := Operand.newline_not_mem_text (Ne.symm h.1)
    have second := Operand.newline_not_mem_text (Ne.symm h.2)
    cases op <;> simp [Inst.text, Binary.text, first, second]
  | push source =>
    have operand := Operand.newline_not_mem_text (Ne.symm (by simpa [operands] using h))
    simp [Inst.text, operand]
  | unary op r => cases op <;> simp [Inst.text, Unary.text, Reg.text]
  | nullary op => cases op <;> simp [Inst.text, Nullary.text]
  | set c r => cases c <;> simp [Inst.text, Cond.text]
  | jumpIf c s => cases c <;> simp [Inst.text, Cond.text]
  | _ => simp [Inst.text, Reg.text]

/-- Whether what a line is made of holds no line feed. -/
def Line.isTidy : Line → Bool
  | .remark t | .comment t | .sectionStart t => '\n' ∉ t.toList
  | .inst i => .char '\n' ∉ i.operands
  | _ => true

theorem Line.newline_not_mem_text {l : Line} (h : l.isTidy = true) : '\n' ∉ l.text.toList := by
  cases l with
  | inst i =>
    have text := Inst.newline_not_mem_text (of_decide_eq_true h)
    simp [Line.text, text]
  | remark t => simpa [Line.text] using of_decide_eq_true h
  | comment t => simpa [Line.text] using of_decide_eq_true h
  | sectionStart t => simpa [Line.text] using of_decide_eq_true h
  | _ => simp [Line.text]

theorem all_isTidy_of_basic {code : List Line} (h : code.all isBasic = true) :
    code.all isTidy = true := by
  refine List.all_eq_true.mpr fun l hl => ?_
  have basic := List.all_eq_true.mp h l hl
  cases l with
  | inst i =>
    refine decide_eq_true fun hm => ?_
    cases List.all_eq_true.mp basic _ hm
  | _ => cases basic

/-! ### Remarks in a text -/

theorem Symbol.opensRemark_text (s : Symbol) (rest : List Char) :
    opensRemark (s.text.toList ++ rest) = false := by
  cases s with
  | notice n => cases n <;> rfl
  | noticeLength n => cases n <;> rfl
  | _ => simp [Symbol.text, procSymbol, memorySymbol, stringLabelText, labelText, opensRemark]

/-- The first character of a line says whether it is a remark. -/
theorem Line.opensRemark_text (l : Line) : opensRemark l.text.toList = l.isRemark := by
  cases l with
  | inst i =>
    cases i with
    | binary op | unary op | nullary op =>
      cases op <;> simp [Line.text, Inst.text, Binary.text, Unary.text, Nullary.text, opensRemark,
        isRemark]
    | _ => simp [Line.text, Inst.text, opensRemark, isRemark]
  | label s | reserve s | word s | words s | data s | length s =>
    simp only [Line.text, String.toList_append, List.append_assoc]
    exact s.opensRemark_text _
  | _ => simp [Line.text, opensRemark, isRemark]

theorem toList_renderLines (lines : List Line) : (renderLines lines).toList =
    ['\n'].intercalate (lines.map (fun l : Line => l.text.toList) ++ [[]]) := by
  induction lines with
  | nil => rfl
  | cons l rest ih =>
    have first : (renderLines (l :: rest)).toList =
        l.text.toList ++ ['\n'] ++ (renderLines rest).toList := by
      simp [renderLines, String.toList_join]
    rw [first, ih, List.map_cons, List.cons_append, List.intercalate_cons_of_ne_nil (by simp)]

/-- The remarks can be told from the text. -/
theorem withoutRemarks_renderLines {lines : List Line} (h : lines.all isTidy = true) :
    withoutRemarks (renderLines lines) = renderLines (bare lines) := by
  have split : (renderLines lines).toList.splitOn '\n' =
      lines.map (fun l : Line => l.text.toList) ++ [[]] := by
    rw [toList_renderLines]
    refine List.splitOn_intercalate '\n' ?_ (by simp)
    intro text member
    simp only [List.mem_append, List.mem_map, List.mem_singleton] at member
    rcases member with ⟨l, hl, rfl⟩ | rfl
    · exact Line.newline_not_mem_text (List.all_eq_true.mp h l hl)
    · simp
  have kept : (lines.map (fun l : Line => l.text.toList) ++ [[]]).filter (fun l => !opensRemark l) =
      (bare lines).map (fun l : Line => l.text.toList) ++ [[]] := by
    rw [List.filter_append, List.filter_map, bare]
    simp only [Function.comp_def, Line.opensRemark_text]
    rfl
  rw [withoutRemarks, split, kept, ← toList_renderLines, String.ofList_toList]

end StackLang.Target
