import Mathlib.Data.List.TakeWhile
import StackLang.Proofs.Source.Spelling
/-!
What each reader takes from a source text: exactly the text of the token it gives.
-/

namespace StackLang.Source

open StackLang.Text

namespace Cursor

/-- The characters from the cursor on. -/
def chars (c : Cursor) : List Char :=
  c.rest.map Glyph.value

@[simp] theorem note_rest (c : Cursor) : c.note.rest = c.rest := by
  unfold note
  split <;> rfl

@[simp] theorem note_line (c : Cursor) : c.note.line = c.line := by
  unfold note
  split <;> rfl

@[simp] theorem note_col (c : Cursor) : c.note.col = c.col := by
  unfold note
  split <;> rfl

theorem advance_rest (c : Cursor) : c.advance.rest = c.rest.tail := by
  unfold advance
  split
  next h => simp [h]
  next g rest h => split <;> simp [h]

theorem skip_rest (n : Nat) (c : Cursor) : (c.skip n).rest = c.rest.drop n := by
  induction n generalizing c with
  | zero => rfl
  | succ n ih => rw [skip, ih, advance_rest, List.drop_tail]

theorem chars_skip (n : Nat) (c : Cursor) : (c.skip n).chars = c.chars.drop n := by
  simp [chars, skip_rest]

theorem skip_add (m n : Nat) (c : Cursor) : c.skip (m + n) = (c.skip m).skip n := by
  induction m generalizing c with
  | zero => simp [skip]
  | succ m ih => rw [Nat.add_right_comm, skip, ih, skip]

theorem run_eq (p : Char → Bool) (c : Cursor) : c.run p = c.chars.takeWhile p := by
  simp [run, chars, List.takeWhile_map, Function.comp_def]

theorem current_eq (c : Cursor) : c.current = c.chars.head? := by
  simp [current, chars]

end Cursor

/-- What a reader does if nothing is wrong: it goes past the text of a token that begins at the
cursor and whose payload is the value of that text. -/
def Reading.Takes (file : String) (c : Cursor) (r : Reading) : Prop :=
  r.lexeme.pos = c.pos file ∧ Faithful r.lexeme ∧
    ∃ n, r.cursor = c.skip n ∧ r.lexeme.written = c.chars.take n

theorem take_length_takeWhile {α : Type} (p : α → Bool) (xs : List α) :
    xs.take (xs.takeWhile p).length = xs.takeWhile p :=
  (List.prefix_iff_eq_take.mp (List.takeWhile_prefix p)).symm

theorem digitsValue_eq_decimal (digits : List Char) : digitsValue digits = decimal digits := by
  induction digits using List.reverseRecOn with
  | nil => rfl
  | append_singleton digits d ih =>
    simp only [digitsValue, decimal, List.foldl_append, List.foldl_cons, List.foldl_nil,
      List.reverse_append, List.reverse_cons, List.reverse_nil, List.nil_append,
      List.singleton_append, List.map_cons, Nat.ofDigits_cons] at ih ⊢
    rw [ih]
    simp; omega

theorem digits_takeWhile {text : List Char} (h : text.head?.any isDigit) :
    Digits (text.takeWhile isDigit) := by
  refine ⟨?_, fun d hd => ?_⟩
  · cases text with
    | nil => simp at h
    | cons d rest => simp_all
  · exact List.mem_takeWhile_imp hd

theorem escaped?_eq_some {e c : Char} (h : escaped? e = some c) : (e, c) ∈ escapes := by
  unfold escaped? at h
  split at h
  next he => cases Option.some.inj h; simp [he, escapes]
  next =>
    split at h
    next he => cases Option.some.inj h; simp [he, escapes]
    next =>
      split at h
      next he => cases Option.some.inj h; simp [he, escapes]
      next =>
        split at h
        next he => cases Option.some.inj h; simp [he, escapes]
        next =>
          split at h
          next he =>
            cases Option.some.inj h
            rcases he with rfl | rfl | rfl <;> simp [escapes]
          next => simp at h

theorem readOperator_takes {file : String} {c : Cursor} {length : Nat} {o : Operator}
    (h : c.chars.take length = o.text.toList) :
    (readOperator file c length o).Takes file c := by
  refine ⟨rfl, .operator, length, rfl, ?_⟩
  simp [readOperator, Lexeme.written, h]

theorem StringRest.after_closed {length n : Nat} {raw value r v : List Char} {s : StringRest}
    (h : s.after length raw value = .closed n r v) :
    ∃ n' r' v', s = .closed n' r' v' ∧ n = length + n' ∧ r = raw ++ r' ∧ v = value ++ v' := by
  cases s with
  | closed n' r' v' => cases h; exact ⟨n', r', v', rfl, rfl, rfl, rfl⟩
  | unclosed | badEscape => cases h

/-- A literal that is closed ends at its quote, and what stands before the quote denotes its
value. -/
theorem stringRest_closed {gs : List Glyph} {n : Nat} {raw value : List Char}
    (h : stringRest gs = .closed n raw value) :
    StringText raw value ∧ (gs.map Glyph.value).take n = raw ++ ['"'] := by
  fun_induction stringRest gs generalizing n raw value with
  | case1 | case3 | case5 => cases h
  | case2 g rest hg =>
    cases h
    exact ⟨.nil, by simp [hg]⟩
  | case4 g hq hb e rest c he ih =>
    obtain ⟨n', r, v, hs, rfl, rfl, rfl⟩ := StringRest.after_closed h
    obtain ⟨text, taken⟩ := ih hs
    refine ⟨.escape (escaped?_eq_some he) text, ?_⟩
    rw [Nat.add_comm]
    simp [hb, taken]
  | case6 g rest hq hb ih =>
    obtain ⟨n', r, v, hs, rfl, rfl, rfl⟩ := StringRest.after_closed h
    obtain ⟨text, taken⟩ := ih hs
    refine ⟨.plain (by simp [hq, hb]) text, ?_⟩
    rw [Nat.add_comm]
    simp [taken]

theorem readString_takes {file : String} {c : Cursor} (hc : c.chars.head? = some '"')
    (h : (readString file c).fault = none) : (readString file c).Takes file c := by
  unfold readString at h ⊢
  simp only at h ⊢
  split at h
  next n raw value hs =>
    obtain ⟨text, taken⟩ := stringRest_closed hs
    refine ⟨rfl, .str (by simpa using text), n + 1, rfl, ?_⟩
    obtain ⟨rest, hr⟩ : ∃ rest, c.chars = '"' :: rest := List.head?_eq_some_iff.mp hc
    have ht : c.rest.tail.map Glyph.value = rest := by
      rw [List.map_tail]
      exact congrArg List.tail hr
    rw [ht] at taken
    simp [Lexeme.written, hr, taken]
  next => simp at h
  next => simp at h

theorem toInt_ofInt_char {c : Char} (h : c.toNat < 0x80) :
    (Int64.ofInt c.toNat).toInt = c.toNat := by
  exact Int64.toInt_ofInt_of_le (by omega) (by omega)

theorem escapes_small {e c : Char} (h : (e, c) ∈ escapes) : c.toNat < 0x80 := by
  simp only [escapes, List.mem_cons, Prod.mk.injEq, List.not_mem_nil, or_false] at h
  rcases h with ⟨_, rfl⟩ | ⟨_, rfl⟩ | ⟨_, rfl⟩ | ⟨_, rfl⟩ | ⟨_, rfl⟩ | ⟨_, rfl⟩ | ⟨_, rfl⟩
  all_goals decide

theorem closeChar_takes {file : String} {c : Cursor} {length : Nat} {lit : List Char}
    {value : Char} (hl : c.chars.take length = lit) (hlen : lit.length = length)
    (hv : value.toNat < 0x80) (text : IntText (lit ++ ['\'']) value.toNat)
    (h : (closeChar file c length lit value).fault = none) :
    (closeChar file c length lit value).Takes file c := by
  unfold closeChar at h ⊢
  simp only at h ⊢
  split at h
  next hq =>
    rw [if_pos hq]
    rw [Cursor.current_eq, Cursor.chars_skip] at hq
    obtain ⟨rest, hr⟩ := List.head?_eq_some_iff.mp hq
    refine ⟨rfl, .int (by simpa [toInt_ofInt_char hv] using text), length + 1, ?_, ?_⟩
    · rw [Cursor.skip_add]
      rfl
    · have hsplit : c.chars = lit ++ '\'' :: rest := by
        rw [← hl, ← hr, List.take_append_drop]
      rw [hsplit, ← hlen, List.take_length_add_append]
      simp [Lexeme.written]
  next => simp at h

theorem readChar_takes {file : String} {c : Cursor} (hc : c.chars.head? = some '\'')
    (h : (readChar file c).fault = none) : (readChar file c).Takes file c := by
  obtain ⟨rest, hr⟩ := List.head?_eq_some_iff.mp hc
  have ht : c.rest.tail.map Glyph.value = rest := by
    rw [List.map_tail]
    exact congrArg List.tail hr
  unfold readChar at h ⊢
  simp only at h ⊢
  split at h
  next => simp at h
  next g gs hg =>
    rw [hg] at ht
    split at h
    next => simp at h
    next hn =>
      split at h
      next => simp at h
      next hq =>
        split at h
        next hb =>
          split at h
          next => simp at h
          next e es =>
            split at h
            next value he =>
              have hm := escaped?_eq_some he
              simp only [if_neg hn, if_neg hq, if_pos hb]
              have hl : c.chars.take 3 = ['\'', '\\', e.value] := by rw [hr, ← ht]; simp [hb]
              exact closeChar_takes hl (by rfl) (escapes_small hm) (.escape hm) h
            next => simp at h
        next hb =>
          split at h
          next => simp at h
          next hw =>
            simp only [if_neg hn, if_neg hq, if_neg hb, if_neg hw]
            have hl : c.chars.take 2 = ['\'', g.value] := by rw [hr, ← ht]; simp
            have small : g.value.toNat < 0x80 := by omega
            exact closeChar_takes hl (by rfl) small (.char small (by simp [hn, hq, hb])) h

theorem readNumber_takes {file : String} {c : Cursor} {sign digits : List Char}
    (hs : sign = [] ∧ c.current ≠ some '-' ∨ sign = ['-'])
    (hc : c.chars = sign ++ digits) (hd : digits.head?.any isDigit)
    (h : (readNumber file c).fault = none) : (readNumber file c).Takes file c := by
  have hsign : (if c.current = some '-' then ['-'] else []) = sign := by
    rcases hs with ⟨rfl, hne⟩ | rfl
    · simp [hne]
    · simp [Cursor.current_eq, hc]
  have hrun : (c.skip sign.length).run isDigit = digits.takeWhile isDigit := by
    rw [Cursor.run_eq, Cursor.chars_skip, hc, List.drop_left]
  have text : IntText (sign ++ digits.takeWhile isDigit)
      (if sign = [] then (decimal (digits.takeWhile isDigit) : Int)
       else -decimal (digits.takeWhile isDigit)) := by
    rcases hs with ⟨rfl, _⟩ | rfl
    · exact .natural (digits_takeWhile hd)
    · exact .negative (digits_takeWhile hd)
  unfold readNumber at h ⊢
  simp only [hsign, hrun, digitsValue_eq_decimal] at h ⊢
  generalize (if sign = [] then (decimal (digits.takeWhile isDigit) : Int)
    else -decimal (digits.takeWhile isDigit)) = value at h text ⊢
  split at h
  next range =>
    rw [if_pos range]
    have hmin : Int64.minValue.toInt = -2 ^ 63 := rfl
    have hmax : Int64.maxValue.toInt = 2 ^ 63 - 1 := rfl
    refine ⟨rfl, .int ?_, sign.length + (digits.takeWhile isDigit).length, rfl, ?_⟩
    · rw [Int64.toInt_ofInt_of_le (by omega) (by omega), String.toList_ofList]
      exact text
    · rw [hc, List.take_length_add_append, take_length_takeWhile]
      simp [Lexeme.written]
  next => simp at h

theorem isWidth_iff {width : Int} : Token.isWidth width ↔ width ∈ [1, 2, 4, 8] := by
  simp [Token.isWidth, or_assoc]

theorem readWidth_takes {file : String} {c : Cursor} {mark : Char} {tok : Token}
    {rest : List Char} (hc : c.chars = mark :: rest) (hd : rest.head?.any isDigit)
    (ht : mark = '!' ∧ tok = .load ∨ mark = '@' ∧ tok = .store)
    (h : (readWidth file c mark tok).fault = none) : (readWidth file c mark tok).Takes file c := by
  have hrun : c.advance.run isDigit = rest.takeWhile isDigit := by
    rw [show c.advance = c.skip 1 from rfl, Cursor.run_eq, Cursor.chars_skip, hc]
    rfl
  unfold readWidth at h ⊢
  simp only [hrun, digitsValue_eq_decimal] at h ⊢
  split at h
  next hw =>
    rw [if_pos hw]
    have text : WidthText mark (String.ofList (mark :: rest.takeWhile isDigit)).toList
        (decimal (rest.takeWhile isDigit)) :=
      ⟨_, digits_takeWhile hd, by simp, rfl, isWidth_iff.mp hw⟩
    have taken : mark :: rest.takeWhile isDigit =
        c.chars.take ((rest.takeWhile isDigit).length + 1) := by
      rw [hc, List.take_succ_cons, take_length_takeWhile]
    rcases ht with ⟨rfl, rfl⟩ | ⟨rfl, rfl⟩
    · exact ⟨rfl, .load text, _, rfl, by simpa [Lexeme.written] using taken⟩
    · exact ⟨rfl, .store text, _, rfl, by simpa [Lexeme.written] using taken⟩
  next => simp at h

theorem syscallArgs?_eq_some {word : String} {n : Nat} (h : Token.syscallArgs? word = some n) :
    n ≤ 6 ∧ word = "syscall" ++ toString n := by
  have hm := List.mem_of_find?_eq_some h
  have hw := List.find?_some h
  simp only [Token.syscallLimit, List.mem_range] at hm
  exact ⟨by omega, by simpa using hw⟩

theorem lookup_reserved {word : String} {t : Token} (h : Token.reserved.lookup word = some t) :
    (∃ o, t = .operator o ∧ word = o.text) ∨ ∃ k, t = .keyword k ∧ word = k.text := by
  obtain ⟨before, after, split, _⟩ := List.lookup_eq_some_iff.mp h
  have hm : (word, t) ∈ Token.reserved := by simp [split]
  obtain ⟨t', ht, he⟩ := List.mem_map.mp hm
  obtain ⟨rfl, rfl⟩ := Prod.mk.inj he
  rcases List.mem_cons.mp ht with rfl | ht
  · exact Or.inl ⟨_, rfl, rfl⟩
  · rcases List.mem_cons.mp ht with rfl | ht
    · exact Or.inl ⟨_, rfl, rfl⟩
    · obtain ⟨k, _, rfl⟩ := List.mem_map.mp ht
      exact Or.inr ⟨k, rfl, rfl⟩

/-- A word is an operator, a reserved word, a system call or a name. -/
theorem faithful_ofWord (pos : Pos) {lit : String} (hne : lit.toList ≠ [])
    (hs : ∀ c ∈ lit.toList, ¬ isSeparator c) :
    Faithful { tok := (Token.ofWord lit).1, pos, lit, argc := (Token.ofWord lit).2 } := by
  unfold Token.ofWord
  split
  next _ _ t ht =>
    rcases lookup_reserved ht with ⟨o, rfl, rfl⟩ | ⟨k, rfl, rfl⟩
    · exact .operator
    · exact .keyword
  next n _ hn =>
    obtain ⟨hle, rfl⟩ := syscallArgs?_eq_some hn
    exact .syscall hle
  next => exact .name hne hs

theorem written_ofWord (pos : Pos) (lit : String) (argc : Int) :
    ({ tok := (Token.ofWord lit).1, pos, lit, argc } : Lexeme).written = lit.toList := by
  unfold Lexeme.written
  rw [if_neg]
  unfold Token.ofWord
  split
  next _ _ t ht => rcases lookup_reserved ht with ⟨o, rfl, _⟩ | ⟨k, rfl, _⟩ <;> simp
  next => simp
  next => simp

theorem readWord_takes {file : String} {c : Cursor} {ch : Char} (hc : c.chars.head? = some ch)
    (hs : ¬ isSeparator ch) : (readWord file c).Takes file c := by
  obtain ⟨rest, hr⟩ := List.head?_eq_some_iff.mp hc
  have hrun : c.run (fun ch => !isSeparator ch) = c.chars.takeWhile fun ch => !isSeparator ch :=
    Cursor.run_eq _ c
  have hne : c.run (fun ch => !isSeparator ch) ≠ [] := by simp [hrun, hr, hs]
  have hall : ∀ d ∈ c.run (fun ch => !isSeparator ch), ¬ isSeparator d := by
    intro d hd
    rw [hrun] at hd
    simpa using List.mem_takeWhile_imp hd
  refine ⟨rfl, faithful_ofWord _ (by simpa using hne) (by simpa using hall), _, rfl, ?_⟩
  simp only [readWord, written_ofWord, String.toList_ofList]
  rw [hrun, take_length_takeWhile]

theorem followedBy_eq {p : Char → Bool} {c : Cursor} {ch : Char} {rest : List Char}
    (hc : c.chars = ch :: rest) : followedBy p c = rest.head?.any p := by
  unfold followedBy
  split
  next g g' gs h =>
    simp only [Cursor.chars, h, List.map_cons, List.cons.injEq] at hc
    simp [← hc.2]
  next h =>
    cases rest with
    | nil => rfl
    | cons d rest =>
      obtain ⟨g, gs, hg, _, hgs⟩ := List.map_eq_cons_iff.mp hc
      obtain ⟨g', gs', hg', _, _⟩ := List.map_eq_cons_iff.mp hgs
      exact absurd (hg.trans (by rw [hg'])) (h g g' gs')

/-- An operator of two characters, the second of which is the equals sign. -/
theorem readOperator_equals_takes {file : String} {c : Cursor} {ch : Char} {rest : List Char}
    {o : Operator} (hc : c.chars = ch :: rest) (he : rest.head?.any (· == '='))
    (ho : o.text.toList = [ch, '=']) : (readOperator file c 2 o).Takes file c := by
  obtain ⟨e, hh, he⟩ := (Option.any_eq_true _ _).mp he
  obtain ⟨tail, rfl⟩ := List.head?_eq_some_iff.mp hh
  apply readOperator_takes
  simp_all

/-- Reading a token that begins at the cursor either finds a fault or takes the token's text. -/
theorem readToken_takes {file : String} {c : Cursor} {ch : Char} (hc : c.chars.head? = some ch)
    (hs : ¬ isSeparator ch) (h : (readToken file c).fault = none) :
    (readToken file c).Takes file c := by
  obtain ⟨rest, hr⟩ := List.head?_eq_some_iff.mp hc
  have hcur : c.current = some ch := by rw [Cursor.current_eq, hc]
  generalize hread : readToken file c = r at h ⊢
  unfold readToken at hread
  rw [hcur] at hread
  simp only [followedBy_eq hr] at hread
  split at hread
  next he => cases he
  next he => cases he; subst hread; exact readString_takes hc h
  next he => cases he; subst hread; exact readChar_takes hc h
  next he =>
    cases he
    split at hread
    next heq => subst hread; exact readOperator_equals_takes hr heq (by simp [Operator.text])
    next =>
      split at hread
      next hd => subst hread; exact readWidth_takes hr hd (Or.inl ⟨rfl, rfl⟩) h
      next => subst hread; simp at h
  next he =>
    cases he
    split at hread
    next hd => subst hread; exact readWidth_takes hr hd (Or.inr ⟨rfl, rfl⟩) h
    next => subst hread; simp at h
  next he => cases he; subst hread; exact readOperator_takes (by simp [hr, Operator.text])
  next he => cases he; subst hread; exact readOperator_takes (by simp [hr, Operator.text])
  next he =>
    cases he
    split at hread
    next hd => subst hread; exact readNumber_takes (Or.inr rfl) hr hd h
    next => subst hread; exact readOperator_takes (by simp [hr, Operator.text])
  next he => cases he; subst hread; exact readOperator_takes (by simp [hr, Operator.text])
  next he => cases he; subst hread; exact readOperator_takes (by simp [hr, Operator.text])
  next he => cases he; subst hread; exact readOperator_takes (by simp [hr, Operator.text])
  next he =>
    cases he
    split at hread
    next heq => subst hread; exact readOperator_equals_takes hr heq (by simp [Operator.text])
    next => subst hread; exact readOperator_takes (by simp [hr, Operator.text])
  next he =>
    cases he
    split at hread
    next heq => subst hread; exact readOperator_equals_takes hr heq (by simp [Operator.text])
    next => subst hread; exact readOperator_takes (by simp [hr, Operator.text])
  next he =>
    cases he
    split at hread
    next hd =>
      subst hread
      have hne : c.current ≠ some '-' := by
        intro hm
        cases hcur.symm.trans hm
        exact absurd hd (by decide)
      exact readNumber_takes (Or.inl ⟨rfl, hne⟩) (hr.trans rfl) (by simpa using hd) h
    next => subst hread; exact readWord_takes hc hs

end StackLang.Source
