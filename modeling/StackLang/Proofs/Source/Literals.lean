import StackLang.Listing.Tokens
import StackLang.Proofs.Source.Respacing
/-!
Literals in the table of tokens. What the table shows for a text is a string literal of the language
that denotes this text.
-/

namespace StackLang.Source

open StackLang.Text

/-- The table writes a character as an escape of the language, or as it is where the language lets
it stand for itself. -/
theorem literalChar_cases (c : Char) :
    (∃ e, literalChar c = ['\\', e] ∧ (e, c) ∈ escapes) ∨
      literalChar c = [c] ∧ c ∉ ['"', '\\'] := by
  unfold literalChar
  split_ifs with feed tab back slash quote null
  case neg => exact .inr ⟨rfl, by simp [quote, slash]⟩
  all_goals exact .inl ⟨_, rfl, by simp [escapes, *]⟩

theorem stringText_literal (value : List Char) :
    StringText (value.flatMap literalChar) value := by
  induction value with
  | nil => exact .nil
  | cons c value ih =>
    rw [List.flatMap_cons]
    rcases literalChar_cases c with ⟨e, written, he⟩ | ⟨written, plain⟩
    · rw [written]
      exact .escape he ih
    · rw [written]
      exact .plain plain ih

/-- The literal that the table shows for a text is read as one string, which denotes this text; so
the table shows different literals for different texts. -/
theorem displayed_literals_read_back :
    (∀ file s, ∃ lit pos endPos, tokenize file (bytesOf (displayLiteral s)) =
      .ok [{ tok := .str, pos, lit, str := s }, { tok := .eof, pos := endPos }]) ∧
    Function.Injective displayLiteral := by
  have back : ∀ file s, ∃ lit pos endPos, tokenize file (bytesOf (displayLiteral s)) =
      .ok [{ tok := .str, pos, lit, str := s }, { tok := .eof, pos := endPos }] := by
    intro file s
    let raw := s.toList.flatMap literalChar
    let l : Lexeme := { tok := .str, pos := default, lit := .ofList raw, str := s }
    have faithful : Faithful l := .str (by simpa using stringText_literal s.toList)
    have denotes : Denotes ('"' :: raw ++ ['"']) l := ⟨by simp [Lexeme.written, l], faithful, nofun⟩
    have alone := spaced_intercalate .nil ['"' :: raw ++ ['"']]
    obtain ⟨ls, endPos, tokens, alike⟩ := tokenize_of_spaced file alone (.cons denotes .nil)
    obtain ⟨l', _, same, rest, rfl⟩ := List.forall₂_cons_left_iff.mp alike
    cases rest
    refine ⟨.ofList raw, l'.pos, endPos, ?_⟩
    rw [Lexeme.Alike] at same
    rw [← same] at tokens
    simpa [displayLiteral, raw, l] using tokens
  refine ⟨back, fun s t h => ?_⟩
  obtain ⟨_, _, _, first⟩ := back "" s
  obtain ⟨_, _, _, second⟩ := back "" t
  rw [h, second] at first
  simp only [Except.ok.injEq, List.cons.injEq, Lexeme.mk.injEq] at first
  exact first.1.2.2.2.1.symm

end StackLang.Source
