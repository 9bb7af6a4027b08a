import StackLang.Proofs.Relocation.Layout
import StackLang.Proofs.Source.Recognition
import StackLang.Proofs.Source.Spacing
/-!
Tokens do not depend on the room between them. Texts that are tokens by themselves, written one
after another with any room between them, are read as exactly these tokens; and what a source text
is read as can be written with single spaces and read again.
-/

namespace StackLang.Source

open StackLang.Text

/-- Texts one after another. Gaps stand in front of them and behind the last; nothing or a separator
follows each of them. -/
inductive Spaced : List (List Char) → List Char → Prop
  | last {gap : List Char} : FinalGap gap → Spaced [] gap
  | next {gap text rest : List Char} {texts : List (List Char)} : Gap gap → Boundary rest →
      Spaced texts rest → Spaced (text :: texts) (gap ++ text ++ rest)

/-! ### Passing gaps -/

/-- An open comment lasts to the end of its line. -/
theorem gapLength_comment {gs : List Glyph} {body more : List Char} (hb : '\n' ∉ body)
    (hg : gs.map Glyph.value = body ++ '\n' :: more) :
    gapLength true gs = body.length + 1 + gapLength false (gs.drop (body.length + 1)) := by
  induction body generalizing gs with
  | nil =>
    obtain ⟨g, gs, rfl, hn, _⟩ := List.map_eq_cons_iff.mp hg
    rw [gapLength, if_pos hn]
    exact Nat.add_comm _ _
  | cons d body ih =>
    obtain ⟨g, gs, rfl, rfl, hgs⟩ := List.map_eq_cons_iff.mp hg
    simp only [List.mem_cons, not_or] at hb
    rw [gapLength, if_neg (Ne.symm hb.1), ih hb.2 hgs, List.drop_succ_cons, List.length_cons]
    omega

/-- A gap in front of what begins a token is passed as a whole. -/
theorem gapLength_of_gap {gap rest : List Char} {gs : List Glyph} (h : Gap gap)
    (hr : ∀ d ∈ rest.head?, ¬ isSeparator d ∧ ¬ opensComment d)
    (hg : gs.map Glyph.value = gap ++ rest) : gapLength false gs = gap.length := by
  induction h generalizing gs with
  | nil =>
    cases gs with
    | nil => rfl
    | cons g gs =>
      obtain ⟨hs, ho⟩ := hr g.value (by rw [← List.nil_append rest, ← hg]; rfl)
      rw [gapLength, if_neg hs, if_neg ho]
      rfl
  | separator hc _ ih =>
    obtain ⟨g, gs, rfl, rfl, hgs⟩ := List.map_eq_cons_iff.mp hg
    rw [gapLength, if_pos hc, ih hgs]
    rfl
  | @comment d body gap hd hb _ ih =>
    obtain ⟨g, gs, rfl, rfl, hgs⟩ := List.map_eq_cons_iff.mp hg
    have plain : ¬ isSeparator g.value := by
      rcases hd with hd | hd <;> rw [hd] <;> decide
    have opens : opensComment g.value := by simpa [opensComment] using hd
    have line : gs.map Glyph.value = body ++ '\n' :: (gap ++ rest) := by simpa using hgs
    have behind : (gs.drop (body.length + 1)).map Glyph.value = gap ++ rest := by
      rw [List.map_drop, line, List.drop_append]
      simp
    rw [gapLength, if_neg plain, if_pos opens, gapLength_comment hb line, ih behind]
    simp
    omega

theorem gapLength_append_newline {gs : List Glyph} {opened : Bool}
    (h : gapLength opened (gs ++ [.char '\n']) = gs.length + 1) :
    gapLength opened gs = gs.length := by
  induction gs generalizing opened with
  | nil => rfl
  | cons g gs ih =>
    cases opened with
    | true =>
      rw [List.cons_append, gapLength] at h
      rw [gapLength]
      split at h
      next hn => rw [if_pos hn, ih (Nat.succ.inj h), List.length_cons]
      next hn => rw [if_neg hn, ih (Nat.succ.inj h), List.length_cons]
    | false =>
      rw [List.cons_append, gapLength] at h
      rw [gapLength]
      split at h
      next hs => rw [if_pos hs, ih (Nat.succ.inj h), List.length_cons]
      next hs =>
        split at h
        next ho => rw [if_neg hs, if_pos ho, ih (Nat.succ.inj h), List.length_cons]
        next => cases h

theorem gapLength_of_finalGap {gs : List Glyph} (h : FinalGap (gs.map Glyph.value)) :
    gapLength false gs = gs.length := by
  have whole : (gs ++ [Glyph.char '\n']).map Glyph.value = gs.map Glyph.value ++ ['\n'] ++ [] := by
    simp [Glyph.value]
  apply gapLength_append_newline
  rw [gapLength_of_gap h (by simp) whole]
  simp

/-! ### Texts without a stray -/

namespace Cursor

/-- No stray has been met, and none will be. -/
structure Clear (c : Cursor) : Prop where
  passed : c.stray = none
  ahead : Glyph.stray ∉ c.rest

theorem note_of_clear {c : Cursor} (h : c.Clear) : c.note = c := by
  unfold note
  split
  next hr _ => exact absurd (by simp [hr]) h.ahead
  next => rfl

theorem Clear.advance {c : Cursor} (h : c.Clear) : c.advance.Clear := by
  unfold Cursor.advance
  split
  next => exact h
  next g rest hr =>
    have ahead : Glyph.stray ∉ rest := fun hs => h.ahead (by simp [hr, hs])
    have clear (line col : Nat) : Clear { c with rest, line, col } := ⟨h.passed, ahead⟩
    split
    next => rw [note_of_clear (clear _ _)]; exact clear _ _
    next => rw [note_of_clear (clear _ _)]; exact clear _ _

theorem Clear.skip {c : Cursor} (h : c.Clear) (n : Nat) : (c.skip n).Clear := by
  induction n generalizing c with
  | zero => exact h
  | succ n ih => exact ih h.advance

/-- The cursor at the front of a well-formed text. -/
theorem start_bytesOf (text : List Char) :
    (start (bytesOf (String.ofList text))).Clear ∧
      (start (bytesOf (String.ofList text))).chars = text := by
  have read : glyphs (bytesOf (String.ofList text)) = text.map .char := by
    rw [bytesOf_ofList, glyphs_encoding]
  have clear : Clear { rest := text.map .char } := ⟨rfl, by simp⟩
  rw [start, read, note_of_clear clear]
  exact ⟨clear, by simp [chars, Function.comp_def, Glyph.value]⟩

end Cursor

/-! ### Reading spaced texts -/

theorem Denotes.alike {text : List Char} {l l' : Lexeme} (h : Denotes text l) (same : l.Alike l') :
    Denotes text l' := by
  obtain ⟨written, faithful, name⟩ := h
  have faithful' : Faithful l' := by
    rw [← same]
    cases faithful with
    | int ht => exact .int ht
    | str ht => exact .str ht
    | load ht => exact .load ht
    | store ht => exact .store ht
    | syscall hn => exact .syscall hn
    | operator => exact .operator
    | keyword => exact .keyword
    | name hne hs => exact .name hne hs
  rw [Lexeme.Alike] at same
  rw [← same]
  exact ⟨written, same ▸ faithful', name⟩

theorem plain_of_isDigit {d : Char} (h : isDigit d) : ¬ isSeparator d ∧ ¬ opensComment d := by
  constructor
  · intro hs
    have cases := mem_separators hs
    simp only [separators, List.mem_cons, List.not_mem_nil, or_false] at cases
    rcases cases with rfl | rfl | rfl | rfl | rfl | rfl <;> exact absurd h (by decide)
  · intro ho
    simp only [opensComment, Bool.or_eq_true, decide_eq_true_eq] at ho
    rcases ho with rfl | rfl <;> exact absurd h (by decide)

theorem WordText.head {text : List Char} (h : WordText text) :
    ∃ d ∈ text.head?, ¬ isSeparator d ∧ ¬ opensComment d := by
  obtain ⟨plain, d, hd, _, hm⟩ := h
  refine ⟨d, hd, plain d (List.mem_of_mem_head? hd), fun ho => hm ?_⟩
  simp only [opensComment, Bool.or_eq_true, decide_eq_true_eq] at ho
  rcases ho with rfl | rfl <;> decide

/-- A token begins with neither a separator nor what begins a comment. -/
theorem Denotes.head {text : List Char} {l : Lexeme} (h : Denotes text l) :
    ∃ d ∈ text.head?, ¬ isSeparator d ∧ ¬ opensComment d := by
  obtain ⟨rfl, faithful, name⟩ := h
  cases faithful with
  | @operator _ o =>
    change ∃ d ∈ o.text.toList.head?, _
    cases o <;> simp [Operator.text, isSeparator, opensComment]
  | keyword => exact (wordText_keyword _).head
  | @int pos lit value ht =>
    change ∃ d ∈ lit.toList.head?, _
    generalize lit.toList = text, value.toInt = value at ht
    cases ht with
    | natural hd =>
      obtain ⟨d, more, rfl⟩ := List.exists_cons_of_ne_nil hd.1
      exact ⟨d, rfl, plain_of_isDigit (hd.2 d (by simp))⟩
    | negative | char | escape => exact ⟨_, rfl, by decide, by decide⟩
  | str => exact ⟨'"', rfl, by decide, by decide⟩
  | load ht =>
    obtain ⟨digits, _, text, _⟩ := ht
    exact ⟨'!', by simp [Lexeme.written, text], by decide, by decide⟩
  | store ht =>
    obtain ⟨digits, _, text, _⟩ := ht
    exact ⟨'@', by simp [Lexeme.written, text], by decide, by decide⟩
  | syscall hn => exact (wordText_syscall hn).head
  | name => exact (name rfl).1.head

theorem Scanner.next_of_clear {s : Scanner} (h : s.fault = none) (hr : s.reading.fault = none)
    (hc : s.reading.cursor.stray = none) : s.next = s.past := by
  unfold Scanner.next
  rw [if_neg (by simp [h]), ← Scanner.reading]
  simp [Scanner.strayFault, hr, hc, Scanner.past]

/-- A scanner in front of a token reads it and goes past it. -/
theorem Scanner.reading_of_denotes {s : Scanner} {gap text rest : List Char} {l : Lexeme}
    (hg : Gap gap) (hl : Denotes text l) (hr : Boundary rest)
    (hc : s.cursor.chars = gap ++ text ++ rest) :
    s.reading = .of s.file (s.cursor.skip gap.length) text.length l := by
  have begins : ∀ d ∈ (text ++ rest).head?, ¬ isSeparator d ∧ ¬ opensComment d := by
    obtain ⟨d, hd, plain⟩ := hl.head
    rw [List.head?_append, Option.mem_def.mp hd]
    simpa using plain
  rw [List.append_assoc] at hc
  rw [Scanner.reading, gapLength_of_gap hg begins hc]
  exact hl.read (by rw [Cursor.chars_skip, hc, List.drop_left]) hr

theorem Scanner.reading_of_finalGap {s : Scanner} (h : FinalGap s.cursor.chars) :
    s.reading = ⟨{ tok := .eof, pos := (s.cursor.skip s.cursor.rest.length).pos s.file },
      s.cursor.skip s.cursor.rest.length, none⟩ := by
  rw [Scanner.reading, gapLength_of_finalGap h, readToken, Cursor.current, Cursor.skip_rest,
    List.drop_length]
  rfl

theorem Scanner.tokens_succ {s : Scanner} {fuel : Nat} {rest : List Lexeme} (sound : s.fault = none)
    (next : s.next = s.past) (hl : s.reading.lexeme.tok ≠ .eof)
    (hr : s.past.tokens fuel = .ok rest) :
    s.tokens (fuel + 1) = .ok (s.reading.lexeme :: rest) := by
  have sound' : s.past.fault = none := sound
  have hl' : s.past.current.tok ≠ .eof := hl
  rw [Scanner.tokens, next]
  simp only [sound', if_neg hl', hr]
  rfl

/-- Texts that denote tokens are read as these, whatever room is between them. -/
theorem tokens_of_spaced {texts : List (List Char)} {text : List Char} (h : Spaced texts text)
    {ls : List Lexeme} (denoted : List.Forall₂ Denotes texts ls) {s : Scanner} {fuel : Nat}
    (sound : s.fault = none) (clear : s.cursor.Clear) (room : s.cursor.rest.length < fuel)
    (hc : s.cursor.chars = text) :
    ∃ ls' pos, s.tokens fuel = .ok (ls' ++ [{ tok := .eof, pos }]) ∧
      List.Forall₂ Lexeme.Alike ls ls' := by
  obtain ⟨fuel, rfl⟩ : ∃ n, fuel = n + 1 := ⟨fuel - 1, by omega⟩
  induction h generalizing ls s fuel with
  | last hg =>
    cases denoted
    have read := Scanner.reading_of_finalGap (hc ▸ hg)
    have next : s.next = s.past := by
      apply Scanner.next_of_clear sound <;> rw [read]
      exact (clear.skip _).passed
    refine ⟨[], (s.cursor.skip s.cursor.rest.length).pos s.file, ?_, .nil⟩
    simp [Scanner.tokens, next, Scanner.past, sound, read]
  | @next gap text rest texts hg hb _ ih =>
    obtain ⟨l, ls, hl, others, rfl⟩ := List.forall₂_cons_left_iff.mp denoted
    have read := Scanner.reading_of_denotes hg hl hb hc
    have next : s.next = s.past := by
      apply Scanner.next_of_clear sound <;> rw [read]
      · rfl
      · exact ((clear.skip _).skip _).passed
    have cursor : s.past.cursor = s.cursor.skip (gap ++ text).length := by
      rw [Scanner.past, read, List.length_append, Cursor.skip_add]
      rfl
    have behind : s.past.cursor.chars = rest := by
      rw [cursor, Cursor.chars_skip, hc, List.drop_left]
    have shorter : s.past.cursor.rest.length < fuel := by
      obtain ⟨d, hd, _⟩ := hl.head
      obtain ⟨more, rfl⟩ := List.head?_eq_some_iff.mp hd
      have whole : s.cursor.rest.length = (gap ++ d :: more ++ rest).length := by
        rw [← hc, Cursor.chars, List.length_map]
      rw [cursor, Cursor.skip_rest, List.length_drop]
      simp at whole ⊢
      omega
    obtain ⟨fuel, rfl⟩ : ∃ n, fuel = n + 1 := ⟨fuel - 1, by omega⟩
    have clear' : s.past.cursor.Clear := by
      rw [cursor]
      exact clear.skip _
    obtain ⟨ls', pos, tokens, alike⟩ := ih others (s := s.past) sound clear' behind fuel shorter
    have unended : s.reading.lexeme.tok ≠ .eof := by
      rw [read]
      exact hl.faithful.ne_eof
    have same : l.Alike s.reading.lexeme := by
      rw [read]
      rfl
    refine ⟨s.reading.lexeme :: ls', pos, ?_, .cons same alike⟩
    exact Scanner.tokens_succ sound next unended tokens

theorem tokenize_of_spaced (file : String) {texts : List (List Char)} {text : List Char}
    (h : Spaced texts text) {ls : List Lexeme} (denoted : List.Forall₂ Denotes texts ls) :
    ∃ ls' pos, tokenize file (bytesOf (String.ofList text)) =
        .ok (ls' ++ [{ tok := .eof, pos }]) ∧ List.Forall₂ Lexeme.Alike ls ls' := by
  obtain ⟨clear, chars⟩ := Cursor.start_bytesOf text
  have sound : (Scanner.ofBytes file (bytesOf (String.ofList text))).fault = none := by
    simp [Scanner.ofBytes, Scanner.strayFault, clear.passed]
  exact tokens_of_spaced h denoted sound clear (Nat.lt_succ_self _) chars

/-! ### Reading again -/

section

variable {file : String} {c : Cursor}

theorem tok_of_ite {p : Prop} [Decidable p] {r r' : Reading} {tok : Token}
    (h : (if p then r else r').lexeme.tok = tok) : r.lexeme.tok = tok ∨ r'.lexeme.tok = tok := by
  split at h
  next => exact .inl h
  next => exact .inr h

/-- What is read as a name begins as nothing else does. -/
theorem readToken_name {ch : Char} (hc : c.current = some ch) (ho : ¬ opensComment ch)
    (h : (readToken file c).lexeme.tok = .name) : ¬ isDigit ch ∧ ch ∉ marks := by
  constructor
  · intro hd
    rw [readToken_of_digit hc hd, tok_readNumber] at h
    cases h
  · intro hm
    simp only [marks, List.mem_cons, List.not_mem_nil, or_false] at hm
    rw [readToken, hc] at h
    rcases hm with rfl | rfl | rfl | rfl | rfl | rfl | rfl | rfl | rfl | rfl | rfl | rfl | rfl | rfl
    · exact ho rfl
    · exact ho rfl
    · cases (tok_readString file c).symm.trans h
    · cases (tok_readChar file c).symm.trans h
    · rcases tok_of_ite h with h | h
      · cases h
      · rcases tok_of_ite h with h | h
        · cases (tok_readWidth ..).symm.trans h
        · cases h
    · rcases tok_of_ite h with h | h
      · cases (tok_readWidth ..).symm.trans h
      · cases h
    · cases h
    · cases h
    · rcases tok_of_ite h with h | h
      · cases (tok_readNumber file c).symm.trans h
      · cases h
    · cases h
    · cases h
    · cases h
    · rcases tok_of_ite h with h | h <;> cases h
    · rcases tok_of_ite h with h | h <;> cases h

theorem ofWord_eq_name {word : String} (h : (Token.ofWord word).1 = .name)
    (hw : WordText word.toList) : ¬ Reserved word := by
  rintro (⟨o, rfl⟩ | ⟨k, rfl⟩ | ⟨n, hn, rfl⟩)
  · cases o with
    | both | either => cases h
    | _ => exact absurd hw (by decide)
  · rw [ofWord_keyword] at h
    cases h
  · rw [ofWord_syscall hn] at h
    cases h

theorem readWord_name {ch : Char} (hc : c.current = some ch) (hs : ¬ isSeparator ch)
    (hd : ¬ isDigit ch) (hm : ch ∉ marks) (h : (readWord file c).lexeme.tok = .name) :
    WordText (readWord file c).lexeme.written ∧ ¬ Reserved (readWord file c).lexeme.lit := by
  have run := Cursor.run_eq (fun ch => !isSeparator ch) c
  obtain ⟨rest, hr⟩ : ∃ rest, c.chars = ch :: rest :=
    List.head?_eq_some_iff.mp (c.current_eq ▸ hc)
  have word : WordText (readWord file c).lexeme.lit.toList := by
    simp only [readWord, run, hr, String.toList_ofList]
    refine ⟨fun d hd => by simpa using List.mem_takeWhile_imp hd, ch, ?_, hd, hm⟩
    simp [hs]
  have plain : (readWord file c).lexeme.written = (readWord file c).lexeme.lit.toList :=
    if_neg (by simp [h])
  exact ⟨plain ▸ word, ofWord_eq_name h word⟩

end

/-- Every token that is read is the one that its text denotes. -/
theorem Scanner.reading_denotes {s : Scanner} (h : Faithful s.reading.lexeme) :
    Denotes s.reading.lexeme.written s.reading.lexeme := by
  refine ⟨rfl, h, fun name => ?_⟩
  have stops := gapLength_stops s.cursor.rest false
  rw [← Cursor.skip_rest] at stops
  rw [Scanner.reading] at h name ⊢
  generalize s.cursor.skip (gapLength false s.cursor.rest) = c at h name stops ⊢
  cases hc : c.current with
  | none =>
    rw [readToken, hc] at name
    cases name
  | some ch =>
    obtain ⟨g, hg, rfl⟩ := Option.map_eq_some_iff.mp hc
    obtain ⟨hs, ho⟩ := stops g hg
    obtain ⟨hd, hm⟩ := readToken_name hc ho name
    rw [readToken_of_unmarked hc hm, if_neg hd] at name ⊢
    exact readWord_name hc hs hd hm name

theorem tokens_denoted {fuel : Nat} {s : Scanner} {tokens : List Lexeme} {before : List Char}
    (ready : s.Ready fuel before) (h : s.tokens fuel = .ok tokens) :
    ∃ ls pos, tokens = ls ++ [{ tok := .eof, pos }] ∧
      List.Forall₂ Denotes (ls.map Lexeme.written) ls := by
  induction fuel generalizing s tokens before with
  | zero => exact absurd ready.room (Nat.not_lt_zero _)
  | succ fuel ih =>
    cases ready.finds h with
    | last => exact ⟨[], _, rfl, .nil⟩
    | next _ faithful _ _ _ _ ready' hrest =>
      obtain ⟨ls, pos, rfl, denoted⟩ := ih ready' hrest
      exact ⟨_ :: ls, pos, rfl, .cons (Scanner.reading_denotes faithful) denoted⟩

/-- Single spaces are room enough. -/
theorem spaced_intercalate {gap : List Char} (h : Gap gap) (texts : List (List Char)) :
    Spaced texts (gap ++ [' '].intercalate texts) := by
  induction texts generalizing gap with
  | nil => exact .last (by simpa using h.append_newline)
  | cons t texts ih =>
    cases texts with
    | nil =>
      have ends : Spaced [] [] := .last (.separator rfl .nil)
      have only : Spaced [t] (gap ++ t ++ []) := .next h (by simp [Boundary]) ends
      simpa using only
    | cons u texts =>
      have space : Gap [' '] := .separator rfl .nil
      have boundary : Boundary ([' '] ++ [' '].intercalate (u :: texts)) := by
        rintro d ⟨⟩
        rfl
      have first : Spaced (t :: u :: texts)
          (gap ++ t ++ ([' '] ++ [' '].intercalate (u :: texts))) := .next h boundary (ih space)
      simpa using first

theorem exists_denoted {texts : List (List Char)} (h : ∀ t ∈ texts, LexemeText t) :
    ∃ ls, List.Forall₂ Denotes texts ls := by
  induction texts with
  | nil => exact ⟨[], .nil⟩
  | cons t texts ih =>
    obtain ⟨l, hl⟩ := (h t (by simp)).denotes
    obtain ⟨ls, denoted⟩ := ih fun t ht => h t (by simp [ht])
    exact ⟨l :: ls, .cons hl denoted⟩

theorem denoted_alike {texts : List (List Char)} {ls ls' : List Lexeme}
    (h : List.Forall₂ Denotes texts ls) (same : List.Forall₂ Lexeme.Alike ls ls') :
    List.Forall₂ Denotes texts ls' := by
  induction h generalizing ls' with
  | nil =>
    cases same
    exact .nil
  | cons hl _ ih =>
    cases same with
    | cons hs same => exact .cons (hl.alike hs) (ih same)

/-- Texts that are tokens by themselves are read as these tokens, whatever room is between them; so
the tokens of any source text, written with single spaces between them, are read again. -/
theorem tokenize_respaced (file : String) :
    (∀ (texts : List (List Char)) (text : List Char), (∀ t ∈ texts, LexemeText t) →
      Spaced texts text → ∃ ls pos, tokenize file (bytesOf (String.ofList text)) =
        .ok (ls ++ [{ tok := .eof, pos }]) ∧ List.Forall₂ Denotes texts ls) ∧
    ∀ (bytes : List UInt8) (tokens : List Lexeme), tokenize file bytes = .ok tokens →
      ∃ tokens', tokenize file (bytesOf (String.ofList
        ([' '].intercalate (tokens.dropLast.map Lexeme.written)))) = .ok tokens' ∧
        List.Forall₂ Lexeme.Alike tokens tokens' := by
  constructor
  · intro texts text ht spaced
    obtain ⟨ls, denoted⟩ := exists_denoted ht
    obtain ⟨ls', pos, tokens, same⟩ := tokenize_of_spaced file spaced denoted
    exact ⟨ls', pos, tokens, denoted_alike denoted same⟩
  · intro bytes tokens h
    obtain ⟨ls, pos, rfl, denoted⟩ := tokens_denoted (ready_start h) h
    obtain ⟨ls', pos', tokens, same⟩ :=
      tokenize_of_spaced file (spaced_intercalate .nil _) denoted
    have ends : Lexeme.Alike { tok := .eof, pos } { tok := .eof, pos := pos' } := rfl
    refine ⟨_, ?_, List.rel_append same (.cons ends .nil)⟩
    rw [List.dropLast_concat]
    exact tokens

/-- The least integer, a string that holds a line break and a semicolon, a word with a quote in it,
and a comment that the end of the text ends; and three tokens with no room between them. -/
theorem tokenize_respaced_tight :
    (∃ ls pos, tokenize "f" (bytesOf "-9223372036854775808\t;c\n\"\\n\n;\" x;\" #") =
        .ok (ls ++ [{ tok := .eof, pos }]) ∧
      List.Forall₂ Denotes
        ["-9223372036854775808".toList, ['"', '\\', 'n', '\n', ';', '"'], ['x', ';', '"']] ls) ∧
    ∃ tokens tokens', tokenize "f" (bytesOf "1+x") = .ok tokens ∧
      tokenize "f" (bytesOf "1 + x") = .ok tokens' ∧ List.Forall₂ Lexeme.Alike tokens tokens' := by
  obtain ⟨spaced, again⟩ := tokenize_respaced "f"
  constructor
  · have number : LexemeText "-9223372036854775808".toList := by
      simp only [String.reduceToList]
      exact .int (.negative ⟨by simp, by simp [isDigit]⟩) (by decide +kernel) (by decide +kernel)
    have raw : StringText ['\\', 'n', '\n', ';'] ['\n', '\n', ';'] :=
      .escape (by decide) (.plain (by decide) (.plain (by decide) .nil))
    have string : LexemeText ['"', '\\', 'n', '\n', ';', '"'] := .str raw
    have word : LexemeText ['x', ';', '"'] := .word (by decide)
    have remark : Gap (';' :: ['c'] ++ '\n' :: []) := .comment (.inl rfl) (by decide) .nil
    have tabbed : Gap ['\t', ';', 'c', '\n'] := .separator rfl remark
    have space : Gap [' '] := .separator rfl .nil
    have remark' : Gap ('#' :: [] ++ '\n' :: []) := .comment (.inr rfl) (by decide) .nil
    have ends : Spaced [] [' ', '#'] := .last (.separator rfl remark')
    have boundary {d : Char} {rest : List Char} (h : isSeparator d) : Boundary (d :: rest) := by
      rintro _ ⟨⟩
      exact h
    refine spaced _ _ ?_ (.next .nil (boundary rfl) (.next tabbed (boundary rfl)
      (.next space (boundary rfl) ends)))
    simp only [List.forall_mem_cons]
    exact ⟨number, string, word, nofun⟩
  · obtain ⟨tokens, ht⟩ : ∃ tokens, tokenize "f" (bytesOf "1+x") = .ok tokens := ⟨_, rfl⟩
    obtain ⟨tokens', ht', same⟩ := again _ _ ht
    cases ht
    exact ⟨_, tokens', rfl, ht', same⟩

end StackLang.Source
