import StackLang.Source.Scanner
import Mathlib.Data.List.Induction
import Mathlib.Data.Nat.Digits.Defs
/-!
How a source text is made up of tokens and gaps, said without the scanner: what may stand between
tokens, how a token is written, what its payload is, and where it stands.
-/

namespace StackLang.Source

/-- What may stand between tokens: separators, and comments that end with their line. -/
inductive Gap : List Char → Prop
  | nil : Gap []
  | separator {c : Char} {gap : List Char} : isSeparator c → Gap gap → Gap (c :: gap)
  | comment {c : Char} {body gap : List Char} : c = ';' ∨ c = '#' → '\n' ∉ body → Gap gap →
      Gap (c :: body ++ '\n' :: gap)

/-- What may stand after the last token. The end of the text ends a comment as a line feed does. -/
def FinalGap (gap : List Char) : Prop :=
  Gap (gap ++ ['\n'])

/-- The place of the character that follows a piece of text. -/
def placeAfter (file : String) (before : List Char) : Pos where
  file := file
  line := before.count '\n' + 1
  col := (before.reverse.takeWhile (· ≠ '\n')).length + 1

/-- The letters that may follow a backslash, each with the character that it denotes. -/
def escapes : List (Char × Char) :=
  [('n', '\n'), ('r', '\r'), ('t', '\t'), ('0', Char.ofNat 0), ('\\', '\\'), ('"', '"'),
    ('\'', '\'')]

/-- The number that decimal digits denote, the most significant one in front. -/
def decimal (digits : List Char) : Nat :=
  Nat.ofDigits 10 (digits.reverse.map fun d => d.toNat - '0'.toNat)

/-- A text of at least one decimal digit. -/
def Digits (digits : List Char) : Prop :=
  digits ≠ [] ∧ ∀ d ∈ digits, isDigit d

/-- The texts of integers and the numbers they denote: signed decimals, and characters in quotes. -/
inductive IntText : List Char → Int → Prop
  | natural {digits : List Char} : Digits digits → IntText digits (decimal digits)
  | negative {digits : List Char} : Digits digits → IntText ('-' :: digits) (-decimal digits)
  | char {c : Char} : c.toNat < 0x80 → c ∉ ['\n', '\'', '\\'] → IntText ['\'', c, '\''] c.toNat
  | escape {e c : Char} : (e, c) ∈ escapes → IntText ['\'', '\\', e, '\''] c.toNat

/-- The texts that may stand between double quotes and what they denote. -/
inductive StringText : List Char → List Char → Prop
  | nil : StringText [] []
  | plain {c : Char} {raw value : List Char} : c ∉ ['"', '\\'] → StringText raw value →
      StringText (c :: raw) (c :: value)
  | escape {e c : Char} {raw value : List Char} : (e, c) ∈ escapes → StringText raw value →
      StringText ('\\' :: e :: raw) (c :: value)

/-- The text of a memory access: its mark and the number of bytes. -/
def WidthText (mark : Char) (text : List Char) (width : Int) : Prop :=
  ∃ digits, Digits digits ∧ text = mark :: digits ∧ width = decimal digits ∧ width ∈ [1, 2, 4, 8]

/-- Tokens whose payload is the value of their text. Every field that is not named here is empty
or zero. -/
inductive Faithful : Lexeme → Prop
  | int {pos : Pos} {lit : String} {value : Int64} : IntText lit.toList value.toInt →
      Faithful { tok := .int, pos, lit, value }
  | str {pos : Pos} {lit str : String} : StringText lit.toList str.toList →
      Faithful { tok := .str, pos, lit, str }
  | load {pos : Pos} {lit : String} {width : Int} : WidthText '!' lit.toList width →
      Faithful { tok := .load, pos, lit, width }
  | store {pos : Pos} {lit : String} {width : Int} : WidthText '@' lit.toList width →
      Faithful { tok := .store, pos, lit, width }
  | syscall {pos : Pos} {n : Nat} : n ≤ 6 →
      Faithful { tok := .syscall, pos, lit := "syscall" ++ toString n, argc := n }
  | operator {pos : Pos} {o : Operator} : Faithful { tok := .operator o, pos, lit := o.text }
  | keyword {pos : Pos} {k : Keyword} : Faithful { tok := .keyword k, pos, lit := k.text }
  | name {pos : Pos} {lit : String} : lit.toList ≠ [] → (∀ c ∈ lit.toList, ¬ isSeparator c) →
      Faithful { tok := .name, pos, lit }

end StackLang.Source

namespace StackLang

/-- A token as it stands in the source text. -/
def Lexeme.written (l : Lexeme) : List Char :=
  if l.tok = .str then '"' :: l.lit.toList ++ ['"'] else l.lit.toList

/-- Whether a place comes before another one of the same file. -/
def Pos.Before (p q : Pos) : Prop :=
  p.line < q.line ∨ p.line = q.line ∧ p.col < q.col

end StackLang

namespace StackLang.Source

/-- `Laid file before text tokens`: after the piece `before`, the rest `text` of a source text is
made up of the tokens, each at its place, and of gaps around them. The last token is the end of
the file. -/
inductive Laid (file : String) : List Char → List Char → List Lexeme → Prop
  | last {before gap : List Char} : FinalGap gap →
      Laid file before gap [{ tok := .eof, pos := placeAfter file (before ++ gap) }]
  | next {before gap rest : List Char} {l : Lexeme} {ls : List Lexeme} : Gap gap → Faithful l →
      l.pos = placeAfter file (before ++ gap) → Laid file (before ++ gap ++ l.written) rest ls →
      Laid file before (gap ++ l.written ++ rest) (l :: ls)

theorem placeAfter_nil (file : String) : placeAfter file [] = ⟨file, 1, 1⟩ := rfl

theorem placeAfter_newline (file : String) (before : List Char) :
    placeAfter file (before ++ ['\n']) = ⟨file, (placeAfter file before).line + 1, 1⟩ := by
  simp [placeAfter]

theorem placeAfter_other (file : String) (before : List Char) {c : Char} (h : c ≠ '\n') :
    placeAfter file (before ++ [c]) =
      ⟨file, (placeAfter file before).line, (placeAfter file before).col + 1⟩ := by
  simp [placeAfter, h]

theorem placeAfter_before_append (file : String) (before : List Char) {more : List Char}
    (h : more ≠ []) : (placeAfter file before).Before (placeAfter file (before ++ more)) := by
  induction more using List.reverseRecOn with
  | nil => exact absurd rfl h
  | append_singleton more c ih =>
    have step : (placeAfter file (before ++ more)).Before
        (placeAfter file (before ++ (more ++ [c]))) := by
      rw [← List.append_assoc]
      by_cases hc : c = '\n'
      · subst hc
        rw [placeAfter_newline]
        exact Or.inl (Nat.lt_succ_self _)
      · rw [placeAfter_other _ _ hc]
        exact Or.inr ⟨rfl, Nat.lt_succ_self _⟩
    by_cases hm : more = []
    · simpa [hm] using step
    · have first := ih hm
      unfold Pos.Before at *
      omega

theorem IntText.ne_nil {text : List Char} {value : Int} (h : IntText text value) : text ≠ [] := by
  cases h with
  | natural h => exact h.1
  | negative | char | escape => simp

theorem Faithful.written_ne_nil {l : Lexeme} (h : Faithful l) : l.written ≠ [] := by
  cases h with
  | int h => simpa [Lexeme.written] using h.ne_nil
  | str h => simp [Lexeme.written]
  | load h =>
    obtain ⟨digits, _, text, _⟩ := h
    simp [Lexeme.written, text]
  | store h =>
    obtain ⟨digits, _, text, _⟩ := h
    simp [Lexeme.written, text]
  | syscall h => simp [Lexeme.written]
  | @operator pos o => cases o <;> simp [Lexeme.written, Operator.text]
  | @keyword pos k => cases k <;> simp [Lexeme.written, Keyword.text]
  | name h => simpa [Lexeme.written] using h

end StackLang.Source
