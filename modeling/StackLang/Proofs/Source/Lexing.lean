import StackLang.Proofs.Outcome
import StackLang.Proofs.Source.Readers
import StackLang.Proofs.Text.Encoding
/-!
Dividing a source text into tokens loses nothing: a text that has tokens is made up of exactly
these, each at its place and with the payload of its text, and of gaps between them.
-/

namespace StackLang.Source

open StackLang.Text

theorem Gap.append_newline {gap : List Char} (h : Gap gap) : FinalGap gap := by
  induction h with
  | nil => exact .separator rfl .nil
  | separator hc _ ih => exact .separator hc ih
  | @comment c body gap hc hb _ ih =>
    have := Gap.comment hc hb ih
    simpa [FinalGap] using this

/-- What stands in front of the next token, in a text that is in the middle of a comment or not. -/
theorem gapLength_gap (gs : List Glyph) :
    (Gap ((gs.map Glyph.value).take (gapLength false gs)) ∨
      gapLength false gs = gs.length ∧ FinalGap (gs.map Glyph.value)) ∧
    ∀ c body, (c = ';' ∨ c = '#') → '\n' ∉ body →
      Gap (c :: body ++ (gs.map Glyph.value).take (gapLength true gs)) ∨
      gapLength true gs = gs.length ∧ FinalGap (c :: body ++ gs.map Glyph.value) := by
  induction gs with
  | nil =>
    refine ⟨Or.inl .nil, fun c body hc hb => Or.inr ⟨rfl, ?_⟩⟩
    simpa [FinalGap] using Gap.comment hc hb .nil
  | cons g gs ih =>
    obtain ⟨closed, opened⟩ := ih
    constructor
    · unfold gapLength
      split
      next hs =>
        rcases closed with hg | ⟨hl, hg⟩
        · exact Or.inl (by simpa using Gap.separator hs hg)
        · exact Or.inr ⟨by simpa using hl, by simpa [FinalGap] using Gap.separator hs hg⟩
      next =>
        split
        next hc =>
          have hc' : g.value = ';' ∨ g.value = '#' := by simpa [opensComment] using hc
          rcases opened g.value [] hc' (by simp) with hg | ⟨hl, hg⟩
          · exact Or.inl (by simpa using hg)
          · exact Or.inr ⟨by simpa using hl, by simpa using hg⟩
        next => exact Or.inl .nil
    · intro c body hc hb
      unfold gapLength
      split
      next hn =>
        rcases closed with hg | ⟨hl, hg⟩
        · exact Or.inl (by simpa [hn] using Gap.comment hc hb hg)
        · exact Or.inr ⟨by simpa using hl, by simpa [FinalGap, hn] using Gap.comment hc hb hg⟩
      next hn =>
        have hb' : '\n' ∉ body ++ [g.value] := by simp [hb, Ne.symm hn]
        rcases opened c (body ++ [g.value]) hc hb' with hg | ⟨hl, hg⟩
        · exact Or.inl (by simpa using hg)
        · exact Or.inr ⟨by simpa using hl, by simpa using hg⟩

/-- Behind a gap stands what begins a token. -/
theorem gapLength_stops (gs : List Glyph) (opened : Bool) :
    ∀ g ∈ (gs.drop (gapLength opened gs)).head?,
      ¬ isSeparator g.value ∧ ¬ opensComment g.value := by
  induction gs generalizing opened with
  | nil => simp
  | cons g gs ih =>
    cases opened with
    | true =>
      unfold gapLength
      split
      next => exact ih false
      next => exact ih true
    | false =>
      unfold gapLength
      split
      next => exact ih false
      next hs =>
        split
        next => exact ih true
        next ho => simpa using And.intro hs ho

namespace Cursor

theorem pos_advance {file : String} {c : Cursor} {before : List Char} {g : Glyph}
    {rest : List Glyph} (h : c.pos file = placeAfter file before) (hr : c.rest = g :: rest) :
    c.advance.pos file = placeAfter file (before ++ [g.value]) := by
  obtain ⟨hline, hcol⟩ : c.line = (placeAfter file before).line ∧
      c.col = (placeAfter file before).col := ⟨congrArg Pos.line h, congrArg Pos.col h⟩
  unfold advance
  rw [hr]
  simp only
  split
  next hg =>
    subst hg
    rw [show (Glyph.char '\n').value = '\n' from rfl, placeAfter_newline, ← hline]
    simp [pos]
  next hg =>
    have hne : g.value ≠ '\n' := by
      cases g with
      | char c => simpa [Glyph.value] using hg
      | stray => decide
    rw [placeAfter_other _ _ hne, ← hline, ← hcol]
    simp [pos]

theorem pos_skip {file : String} {c : Cursor} {before : List Char} (n : Nat)
    (h : c.pos file = placeAfter file before) :
    (c.skip n).pos file = placeAfter file (before ++ c.chars.take n) := by
  induction n generalizing c before with
  | zero => simpa [skip] using h
  | succ n ih =>
    cases hr : c.rest with
    | nil =>
      have hstay : c.advance = c := by simp [advance, hr]
      have hchars : c.chars = [] := by simp [chars, hr]
      have := ih h
      simpa [skip, hstay, hchars] using this
    | cons g rest =>
      have hchars : c.chars = g.value :: c.advance.chars := by simp [chars, advance_rest, hr]
      rw [skip, ih (pos_advance h hr), hchars]
      simp

/-- The current glyph has been looked at: if it is a stray, a stray has been noted. -/
def Noted (c : Cursor) : Prop :=
  c.stray = none → c.rest.head? ≠ some .stray

theorem noted_note (c : Cursor) : c.note.Noted := by
  unfold Noted note
  split
  next => simp
  next hn =>
    intro hs hh
    obtain ⟨rest, hr⟩ := List.head?_eq_some_iff.mp hh
    exact hn rest hr hs

theorem stray_of_note {c : Cursor} (h : c.note.stray = none) : c.stray = none := by
  unfold note at h
  split at h
  next => simp at h
  next => exact h

theorem noted_advance {c : Cursor} (h : c.Noted) : c.advance.Noted := by
  unfold advance
  split
  next => exact h
  next => split <;> exact noted_note _

theorem stray_of_advance {c : Cursor} (h : c.advance.stray = none) : c.stray = none := by
  unfold advance at h
  split at h
  next => exact h
  next =>
    split at h
    next => have hs := stray_of_note h; exact hs
    next => have hs := stray_of_note h; exact hs

theorem noted_skip {c : Cursor} (n : Nat) (h : c.Noted) : (c.skip n).Noted := by
  induction n generalizing c with
  | zero => exact h
  | succ n ih => exact ih (noted_advance h)

theorem stray_of_skip {c : Cursor} {n : Nat} (h : (c.skip n).stray = none) : c.stray = none := by
  induction n generalizing c with
  | zero => exact h
  | succ n ih => exact stray_of_advance (ih h)

/-- Glyphs passed without a stray noted are characters. -/
theorem passed_ne_stray {c : Cursor} {n : Nat} (hn : c.Noted) (h : (c.skip n).stray = none) :
    Glyph.stray ∉ c.rest.take n := by
  induction n generalizing c with
  | zero => simp
  | succ n ih =>
    have hc := hn (stray_of_skip h)
    have ht := ih (noted_advance hn) h
    rw [advance_rest] at ht
    cases hr : c.rest with
    | nil => simp
    | cons g rest =>
      rw [hr] at hc ht
      simp only [List.head?_cons, ne_eq, Option.some.injEq, List.tail_cons] at hc ht
      simp [ht, Ne.symm hc]

end Cursor

/-- The reading that the next token of a scanner comes from. -/
def Scanner.reading (s : Scanner) : Reading :=
  readToken s.file (s.cursor.skip (gapLength false s.cursor.rest))

theorem Scanner.next_of_success {s : Scanner} (h : s.fault = none) (hn : s.next.fault = none) :
    s.next = { s with cursor := s.reading.cursor, current := s.reading.lexeme } ∧
      s.reading.fault = none ∧ s.reading.cursor.stray = none := by
  unfold Scanner.next at hn ⊢
  rw [if_neg (by simp [h])] at hn ⊢
  rw [← Scanner.reading] at hn ⊢
  dsimp only at hn ⊢
  cases hf : (Scanner.strayFault s.file s.reading.cursor).or s.reading.fault with
  | none =>
    obtain ⟨hs, hr⟩ := Option.or_eq_none_iff.mp hf
    exact ⟨rfl, hr, by simpa [Scanner.strayFault] using hs⟩
  | some e => simp [hf] at hn

/-- The token that a scanner reads without a fault: the end of the file, after a final gap, or a
token whose text follows a gap. -/
theorem Scanner.reading_spec {s : Scanner} {before : List Char}
    (hp : s.cursor.pos s.file = placeAfter s.file before) (hf : s.reading.fault = none) :
    (∃ n, s.reading.cursor = s.cursor.skip n ∧ s.cursor.rest.length ≤ n ∧
      FinalGap s.cursor.chars ∧
      s.reading.lexeme = { tok := .eof, pos := placeAfter s.file (before ++ s.cursor.chars) }) ∨
    ∃ n m, Gap (s.cursor.chars.take n) ∧ Faithful s.reading.lexeme ∧
      s.reading.lexeme.pos = placeAfter s.file (before ++ s.cursor.chars.take n) ∧
      s.reading.lexeme.written = (s.cursor.chars.drop n).take m ∧
      s.reading.cursor = s.cursor.skip (n + m) := by
  set n := gapLength false s.cursor.rest with hn
  have hgap := (gapLength_gap s.cursor.rest).1
  have hplace := s.cursor.pos_skip n hp
  cases hr : s.cursor.rest.drop n with
  | nil =>
    have hle : s.cursor.rest.length ≤ n := List.drop_eq_nil_iff.mp hr
    have hall : s.cursor.chars.take n = s.cursor.chars :=
      List.take_of_length_le (by simpa [Cursor.chars] using hle)
    have hfinal : FinalGap s.cursor.chars := by
      rcases hgap with hg | ⟨_, hg⟩
      · have := hg.append_newline
        rwa [← hn, show (s.cursor.rest.map Glyph.value).take n = s.cursor.chars from hall] at this
      · exact hg
    have hread : s.reading = ⟨{ tok := .eof, pos := (s.cursor.skip n).pos s.file },
        s.cursor.skip n, none⟩ := by
      unfold Scanner.reading readToken
      rw [← hn, Cursor.current, Cursor.skip_rest, hr]
      rfl
    refine Or.inl ⟨n, by rw [hread], hle, hfinal, ?_⟩
    rw [hread, hplace, hall]
  | cons g rest =>
    have hstop : ¬ isSeparator g.value :=
      (gapLength_stops s.cursor.rest false g (by simp [← hn, hr])).1
    have hhead : (s.cursor.skip n).chars.head? = some g.value := by
      simp [Cursor.chars, Cursor.skip_rest, hr]
    obtain ⟨hpos, hfaith, k, hk, htext⟩ := readToken_takes hhead hstop hf
    have hg : Gap (s.cursor.chars.take n) := by
      rcases hgap with hg | ⟨hlen, _⟩
      · exact hg
      · have : s.cursor.rest.drop n = [] := List.drop_eq_nil_iff.mpr (by omega)
        simp [this] at hr
    rw [Cursor.chars_skip] at htext
    exact Or.inr ⟨n, k, hg, hfaith, hpos.trans hplace, htext, hk.trans (Cursor.skip_add n k _).symm⟩

theorem Faithful.ne_eof {l : Lexeme} (h : Faithful l) : l.tok ≠ .eof := by
  cases h <;> simp

/-- A scanner that can go on: nothing is wrong so far, the bound allows for the rest of the text,
and the cursor is at the place after the piece `before`. -/
structure Scanner.Ready (s : Scanner) (fuel : Nat) (before : List Char) : Prop where
  sound : s.fault = none
  room : s.cursor.rest.length < fuel
  place : s.cursor.pos s.file = placeAfter s.file before
  noted : s.cursor.Noted

/-- The scanner behind the token that it reads. -/
def Scanner.past (s : Scanner) : Scanner :=
  { s with cursor := s.reading.cursor, current := s.reading.lexeme }

/-- How a scanner comes to its tokens: nothing but a gap is left, or a token follows a gap, and the
scanner behind it finds the others. -/
inductive Scanner.Finds (s : Scanner) (fuel : Nat) (before : List Char) : List Lexeme → Prop
  | last : FinalGap s.cursor.chars → Glyph.stray ∉ s.cursor.rest →
      Finds s fuel before [{ tok := .eof, pos := placeAfter s.file (before ++ s.cursor.chars) }]
  | next {n m : Nat} {rest : List Lexeme} : Gap (s.cursor.chars.take n) →
      Faithful s.reading.lexeme →
      s.reading.lexeme.pos = placeAfter s.file (before ++ s.cursor.chars.take n) →
      s.reading.lexeme.written = (s.cursor.chars.drop n).take m →
      s.reading.cursor = s.cursor.skip (n + m) → Glyph.stray ∉ s.cursor.rest.take (n + m) →
      s.past.Ready fuel (before ++ s.cursor.chars.take n ++ s.reading.lexeme.written) →
      s.past.tokens fuel = .ok rest → Finds s fuel before (s.reading.lexeme :: rest)

theorem Scanner.Ready.finds {fuel : Nat} {s : Scanner} {tokens : List Lexeme} {before : List Char}
    (ready : s.Ready (fuel + 1) before) (h : s.tokens (fuel + 1) = .ok tokens) :
    s.Finds fuel before tokens := by
  obtain ⟨hf, room, hp, hn⟩ := ready
  simp only [Scanner.tokens] at h
  split at h
  next => cases h
  next hnf =>
    obtain ⟨hnext, hrf, hclean⟩ := Scanner.next_of_success hf hnf
    rw [hnext] at h
    rcases Scanner.reading_spec hp hrf with ⟨n, hc, hlen, hgap, hl⟩ |
      ⟨n, m, hgap, hl, hpos, hw, hc⟩
    · rw [hl] at h
      cases h
      have hs := Cursor.passed_ne_stray hn (n := n) (by rwa [← hc])
      rw [List.take_of_length_le hlen] at hs
      exact .last hgap hs
    · simp only [if_neg hl.ne_eof] at h
      obtain ⟨rest, hrest, h⟩ := bind_eq_ok.mp h
      cases h
      have hpast : s.cursor.chars.take n ++ s.reading.lexeme.written =
          s.cursor.chars.take (n + m) := by
        rw [hw, List.take_add]
      have hlt : m ≠ 0 ∧ n < s.cursor.chars.length := by
        have hne := hl.written_ne_nil
        rw [hw] at hne
        simpa [List.drop_eq_nil_iff] using hne
      have hlen : s.cursor.chars.length = s.cursor.rest.length := List.length_map _
      rw [hc] at hclean
      refine .next hgap hl hpos hw hc (Cursor.passed_ne_stray hn hclean) ⟨hf, ?_, ?_, ?_⟩ hrest
      · simp only [Scanner.past, hc, Cursor.skip_rest, List.length_drop]
        omega
      · rw [List.append_assoc, hpast]
        simp only [Scanner.past, hc]
        exact Cursor.pos_skip _ hp
      · simp only [Scanner.past, hc]
        exact Cursor.noted_skip _ hn

theorem tokens_laid {fuel : Nat} {s : Scanner} {tokens : List Lexeme} {before : List Char}
    (ready : s.Ready fuel before) (h : s.tokens fuel = .ok tokens) :
    Laid s.file before s.cursor.chars tokens ∧ Glyph.stray ∉ s.cursor.rest := by
  induction fuel generalizing s tokens before with
  | zero => exact absurd ready.room (Nat.not_lt_zero _)
  | succ fuel ih =>
    cases ready.finds h with
    | last hgap clean => exact ⟨.last hgap, clean⟩
    | @next n m rest hgap hl hpos hw hc passed ready' hrest =>
      obtain ⟨laid, clean⟩ := ih ready' hrest
      simp only [Scanner.past, hc, Cursor.chars_skip, Cursor.skip_rest] at laid clean
      constructor
      · have hsplit : s.cursor.chars = s.cursor.chars.take n ++ s.reading.lexeme.written ++
            s.cursor.chars.drop (n + m) := by
          rw [hw, ← List.take_add, List.take_append_drop]
        have := Laid.next hgap hl hpos laid
        rwa [← hsplit] at this
      · rw [← List.take_append_drop (n + m) s.cursor.rest, List.mem_append]
        rintro (h | h)
        · exact passed h
        · exact clean h

/-- Every token stands in the text, at the place after what comes before it. -/
theorem laid_pos_after {file : String} {before text : List Char} {tokens : List Lexeme}
    (h : Laid file before text tokens) : ∀ l ∈ tokens, ∃ more rest,
      text = more ++ l.written ++ rest ∧ l.pos = placeAfter file (before ++ more) := by
  induction h with
  | @last before gap _ =>
    rw [List.forall_mem_singleton]
    exact ⟨gap, [], by simp [Lexeme.written], rfl⟩
  | @next before gap rest l ls _ _ hp _ ih =>
    intro l' hl
    rcases List.mem_cons.mp hl with rfl | hl
    · exact ⟨gap, rest, rfl, hp⟩
    · obtain ⟨more, after, hs, hm⟩ := ih l' hl
      exact ⟨gap ++ l.written ++ more, after, by simp [hs], by simpa using hm⟩

theorem laid_increasing {file : String} {before text : List Char} {tokens : List Lexeme}
    (h : Laid file before text tokens) : tokens.Pairwise fun a b => a.pos.Before b.pos := by
  induction h with
  | last => simp
  | @next before gap rest l ls _ hl hp laid ih =>
    refine List.pairwise_cons.mpr ⟨fun l' hl' => ?_, ih⟩
    obtain ⟨more, _, _, hm⟩ := laid_pos_after laid l' hl'
    rw [hp, hm, List.append_assoc]
    exact placeAfter_before_append file _ (by simp [hl.written_ne_nil])

theorem laid_faithful {file : String} {before text : List Char} {tokens : List Lexeme}
    (h : Laid file before text tokens) : ∀ l ∈ tokens, l.tok ≠ .eof → Faithful l := by
  induction h with
  | last => simp
  | next _ hl _ _ ih =>
    intro l' hm hne
    rcases List.mem_cons.mp hm with rfl | hm
    · exact hl
    · exact ih l' hm hne

theorem map_char_of_no_stray {gs : List Glyph} (h : Glyph.stray ∉ gs) :
    gs = (gs.map Glyph.value).map .char := by
  induction gs with
  | nil => rfl
  | cons g gs ih =>
    cases g with
    | char c => simpa [Glyph.value] using ih (by simpa using h)
    | stray => simp at h

theorem fault_none_of_tokens {fuel : Nat} {s : Scanner} {tokens : List Lexeme}
    (h : s.tokens (fuel + 1) = .ok tokens) : s.fault = none := by
  by_contra hf
  have hsome : s.fault.isSome := Option.isSome_iff_ne_none.mpr hf
  obtain ⟨e, he⟩ := Option.isSome_iff_exists.mp hsome
  simp [Scanner.tokens, Scanner.next, he] at h

theorem ready_start {file : String} {bytes : List UInt8} {tokens : List Lexeme}
    (h : tokenize file bytes = .ok tokens) :
    (Scanner.ofBytes file bytes).Ready ((Cursor.start bytes).rest.length + 1) [] := by
  have place : (Cursor.start bytes).pos file = placeAfter file [] := by
    rw [placeAfter_nil]
    simp [Cursor.start, Cursor.pos]
  exact ⟨fault_none_of_tokens h, Nat.lt_succ_self _, place, Cursor.noted_note _⟩

theorem tokenize_laid {file : String} {bytes : List UInt8} {tokens : List Lexeme}
    (h : tokenize file bytes = .ok tokens) :
    Laid file [] (Cursor.start bytes).chars tokens ∧
      Glyph.stray ∉ (Cursor.start bytes).rest :=
  tokens_laid (ready_start h) h

/-- A source text that has tokens is well-formed UTF-8 and is made up of exactly these tokens and
the gaps around them. Every token stands at the place of its first character, so places increase,
and its payload is the value of its text. -/
theorem tokenize_lays_out_text {file : String} {bytes : List UInt8} {tokens : List Lexeme}
    (h : tokenize file bytes = .ok tokens) :
    ∃ text : String, bytes = bytesOf text ∧ Laid file [] text.toList tokens ∧
      tokens.Pairwise fun a b => a.pos.Before b.pos := by
  obtain ⟨laid, clean⟩ := tokenize_laid h
  have hrest : (Cursor.start bytes).rest = glyphs bytes := Cursor.note_rest _
  have hchars : glyphs bytes = (Cursor.start bytes).chars.map .char := by
    rw [← hrest]
    exact map_char_of_no_stray clean
  refine ⟨String.ofList (Cursor.start bytes).chars, ?_, ?_, laid_increasing laid⟩
  · rw [bytesOf_ofList]
    exact encoding_of_glyphs hchars
  · rw [String.toList_ofList]
    exact laid

/-- A negative number, a string with a wide character and an escape on the second line, and a
comment that the end of the text closes. -/
theorem tokenize_lays_out_two_lines :
    ∃ text : String,
      [0x2d, 0x37, 0x0a, 0x22, 0xc3, 0xa9, 0x5c, 0x6e, 0x22, 0x20, 0x3b, 0x63] = bytesOf text ∧
      Laid "f" [] text.toList
        [{ tok := .int, pos := ⟨"f", 1, 1⟩, lit := "-7", value := -7 },
         { tok := .str, pos := ⟨"f", 2, 1⟩, lit := "é\\n", str := "é\n" },
         { tok := .eof, pos := ⟨"f", 2, 9⟩ }] ∧
      List.Pairwise (fun a b : Lexeme => a.pos.Before b.pos)
        [{ tok := .int, pos := ⟨"f", 1, 1⟩, lit := "-7", value := -7 },
         { tok := .str, pos := ⟨"f", 2, 1⟩, lit := "é\\n", str := "é\n" },
         { tok := .eof, pos := ⟨"f", 2, 9⟩ }] :=
  tokenize_lays_out_text (by rfl)

end StackLang.Source
