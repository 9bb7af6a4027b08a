import StackLang.Proofs.Source.Lexing
/-!
Tokens stand at different places, and names stand apart. A word goes on to the next separator, so
that behind a name there is a separator or the end of the text, and a later name on the same line
begins at least one column further on.
-/

namespace StackLang

/-- Whether a token stands at a place of a text, where lines and columns count from one. -/
def Lexeme.Placed (l : Lexeme) : Prop :=
  0 < l.pos.line ∧ 0 < l.pos.col

namespace Source

/-- Whether there is room between the end of a token without line feeds and another one. -/
def EndsBefore (a b : Lexeme) : Prop :=
  Pos.Before { a.pos with col := a.pos.col + a.lit.length } b.pos

theorem tokenize_placed {file : String} {bytes : List UInt8} {tokens : List Lexeme}
    (h : tokenize file bytes = .ok tokens) : ∀ l ∈ tokens, l.Placed := by
  intro l hl
  obtain ⟨more, _, _, place⟩ := laid_pos_after (tokenize_laid h).1 l hl
  rw [Lexeme.Placed, place]
  exact ⟨Nat.succ_pos _, Nat.succ_pos _⟩

theorem tokenize_nodup {file : String} {bytes : List UInt8} {tokens : List Lexeme}
    (h : tokenize file bytes = .ok tokens) : tokens.Nodup := by
  refine (laid_increasing (tokenize_laid h).1).imp ?_
  rintro a b (before | ⟨_, before⟩) rfl
  · exact Nat.lt_irrefl _ before
  · exact Nat.lt_irrefl _ before

theorem placeAfter_line (file : String) (before : List Char) {more : List Char}
    (h : '\n' ∉ more) : placeAfter file (before ++ more) =
      { placeAfter file before with col := (placeAfter file before).col + more.length } := by
  induction more using List.reverseRecOn with
  | nil => simp
  | append_singleton more c ih =>
    obtain ⟨inside, last⟩ : '\n' ∉ more ∧ '\n' ≠ c := by simpa using h
    rw [← List.append_assoc, placeAfter_other _ _ (Ne.symm last), ih inside]
    simp [placeAfter, Nat.add_assoc]

/-! ### What follows a name -/

theorem tok_readString (file : String) (c : Cursor) : (readString file c).lexeme.tok = .str := by
  unfold readString
  dsimp only
  split <;> rfl

theorem tok_closeChar (file : String) (c : Cursor) (length : Nat) (lit : List Char) (value : Char) :
    (closeChar file c length lit value).lexeme.tok = .int := by
  unfold closeChar
  dsimp only
  split <;> rfl

theorem tok_readChar (file : String) (c : Cursor) : (readChar file c).lexeme.tok = .int := by
  unfold readChar
  dsimp only
  repeat' split
  all_goals first | rfl | exact tok_closeChar ..

theorem tok_readNumber (file : String) (c : Cursor) : (readNumber file c).lexeme.tok = .int := by
  unfold readNumber
  dsimp only
  repeat' split
  all_goals rfl

theorem tok_readWidth (file : String) (c : Cursor) (mark : Char) (tok : Token) :
    (readWidth file c mark tok).lexeme.tok = tok := by
  unfold readWidth
  dsimp only
  split <;> rfl

/-- Names are read as words. -/
theorem readToken_of_name {file : String} {c : Cursor}
    (h : (readToken file c).lexeme.tok = .name) : readToken file c = readWord file c := by
  unfold readToken at h ⊢
  repeat' split at h
  all_goals simp_all [tok_readString, tok_readChar, tok_readNumber, tok_readWidth, readOperator]

theorem readWord_stops (file : String) (c : Cursor) :
    ∀ ch ∈ (readWord file c).cursor.chars.head?, isSeparator ch := by
  let inWord (ch : Char) : Bool := !isSeparator ch
  have behind : (readWord file c).cursor.chars = c.chars.dropWhile inWord := by
    have parts : c.chars.takeWhile inWord ++ c.chars.dropWhile inWord = c.chars :=
      List.takeWhile_append_dropWhile
    calc (readWord file c).cursor.chars
        = c.chars.drop (c.chars.takeWhile inWord).length := by
          simp only [readWord, Cursor.chars_skip, Cursor.run_eq, inWord]
      _ = (c.chars.takeWhile inWord ++ c.chars.dropWhile inWord).drop
            (c.chars.takeWhile inWord).length := by rw [parts]
      _ = c.chars.dropWhile inWord := List.drop_left
  have stops := List.head?_dropWhile_not inWord c.chars
  intro ch hch
  rw [behind] at hch
  rw [hch] at stops
  simpa [inWord] using stops

theorem Faithful.name_text {l : Lexeme} (h : Faithful l) (named : l.tok = .name) :
    l.written = l.lit.toList ∧ l.lit.toList ≠ [] ∧ ∀ ch ∈ l.lit.toList, ¬ isSeparator ch := by
  cases h <;> cases named
  next nonempty inside => exact ⟨rfl, nonempty, inside⟩

theorem tokens_spaced {fuel : Nat} {s : Scanner} {tokens : List Lexeme} {before : List Char}
    (ready : s.Ready fuel before) (h : s.tokens fuel = .ok tokens) :
    tokens.Pairwise fun a b => a.tok = .name → b.tok = .name → EndsBefore a b := by
  induction fuel generalizing s tokens before with
  | zero => exact absurd ready.room (Nat.not_lt_zero _)
  | succ fuel ih =>
    cases ready.finds h with
    | last => simp
    | @next n m rest hgap hl hpos hw hc passed ready' hrest =>
      refine List.pairwise_cons.mpr ⟨?_, ih ready' hrest⟩
      intro b hb named named'
      have laid := (tokens_laid ready' hrest).1
      obtain ⟨more, after, split, place⟩ := laid_pos_after laid b hb
      have stops : ∀ ch ∈ s.past.cursor.chars.head?, isSeparator ch := by
        have word : s.reading = readWord s.file _ := readToken_of_name named
        simp only [Scanner.past, word]
        exact readWord_stops _ _
      have apart : more ≠ [] := by
        rintro rfl
        obtain ⟨text, nonempty, inside⟩ :=
          (laid_faithful laid b hb (by simp [named'])).name_text named'
        obtain ⟨ch, chs, parts⟩ := List.exists_cons_of_ne_nil nonempty
        refine inside ch (by simp [parts]) (stops ch ?_)
        simp [split, text, parts]
      obtain ⟨text, _, inside⟩ := hl.name_text named
      have line : '\n' ∉ s.reading.lexeme.lit.toList := fun hm => inside '\n' hm rfl
      have later := placeAfter_before_append s.file
        (before ++ s.cursor.chars.take n ++ s.reading.lexeme.written) apart
      rw [text, placeAfter_line s.file _ line, ← hpos, String.length_toList] at later
      rw [EndsBefore, place, text]
      exact later

/-- Between two names of a source text there is room. -/
theorem tokenize_spaced {file : String} {bytes : List UInt8} {tokens : List Lexeme}
    (h : tokenize file bytes = .ok tokens) :
    tokens.Pairwise fun a b => a.tok = .name → b.tok = .name → EndsBefore a b :=
  tokens_spaced (ready_start h) h

end Source

end StackLang
