import StackLang.Proofs.Source.Readers
/-!
Texts that are tokens by themselves. Where such a text stands in front of a separator or at the end
of a source text, the scanner reads exactly the token that the text denotes.
-/

namespace StackLang.Source

open StackLang.Text

/-- The characters other than digits with which no word begins. -/
def marks : List Char :=
  [';', '#', '"', '\'', '!', '@', '=', '+', '-', '*', '/', '%', '<', '>']

/-- Words: they hold no separator, and begin as nothing else does. -/
def WordText (text : List Char) : Prop :=
  (∀ c ∈ text, ¬ isSeparator c) ∧ ∃ c ∈ text.head?, ¬ isDigit c ∧ c ∉ marks

instance (text : List Char) : Decidable (WordText text) :=
  decidable_of_iff ((text.all fun c => !isSeparator c) ∧
    text.head?.any fun c => !isDigit c && !marks.contains c)
    (by simp [WordText, Option.any_eq_true])

/-- Words with a meaning of their own. -/
def Reserved (word : String) : Prop :=
  (∃ o : Operator, word = o.text) ∨ (∃ k : Keyword, word = k.text) ∨
    ∃ n ≤ 6, word = "syscall" ++ toString n

/-- Texts that are a token by themselves. -/
inductive LexemeText : List Char → Prop
  | operator (o : Operator) : LexemeText o.text.toList
  | int {text : List Char} {value : Int} : IntText text value → -2 ^ 63 ≤ value →
      value < 2 ^ 63 → LexemeText text
  | str {raw value : List Char} : StringText raw value → LexemeText ('"' :: raw ++ ['"'])
  | load {text : List Char} {width : Int} : WidthText '!' text width → LexemeText text
  | store {text : List Char} {width : Int} : WidthText '@' text width → LexemeText text
  | word {text : List Char} : WordText text → LexemeText text

/-- The token that a text is by itself, whatever its place: its payload is the value of the text,
and it is a name only if the text is a word that means nothing else. -/
structure Denotes (text : List Char) (l : Lexeme) : Prop where
  written : l.written = text
  faithful : Faithful l
  name : l.tok = .name → WordText text ∧ ¬ Reserved l.lit

/-- A token that is no name. -/
theorem Faithful.denotes {l : Lexeme} {text : List Char} (h : Faithful l) (other : l.tok ≠ .name)
    (written : l.written = text) : ∃ l, Denotes text l :=
  ⟨l, written, h, fun named => absurd named other⟩

theorem LexemeText.denotes {text : List Char} (h : LexemeText text) : ∃ l, Denotes text l := by
  cases h with
  | operator o =>
    exact (@Faithful.operator default o).denotes (by simp) (by simp [Lexeme.written])
  | @int _ value ht low high =>
    have same := Int64.toInt_ofInt_of_le low high
    have faithful : Faithful
        { tok := .int, pos := default, lit := .ofList text, value := .ofInt value } :=
      .int (by simpa [same] using ht)
    exact faithful.denotes (by simp) (by simp [Lexeme.written])
  | @str raw value ht =>
    have faithful : Faithful
        { tok := .str, pos := default, lit := .ofList raw, str := .ofList value } :=
      .str (by simpa using ht)
    exact faithful.denotes (by simp) (by simp [Lexeme.written])
  | @load _ width ht =>
    have faithful : Faithful { tok := .load, pos := default, lit := .ofList text, width } :=
      .load (by simpa using ht)
    exact faithful.denotes (by simp) (by simp [Lexeme.written])
  | @store _ width ht =>
    have faithful : Faithful { tok := .store, pos := default, lit := .ofList text, width } :=
      .store (by simpa using ht)
    exact faithful.denotes (by simp) (by simp [Lexeme.written])
  | word ht =>
    have spelled {s : String} (hs : String.ofList text = s) : s.toList = text := by simp [← hs]
    by_cases reserved : Reserved (.ofList text)
    · rcases reserved with ⟨o, ho⟩ | ⟨k, hk⟩ | ⟨n, hn, hw⟩
      · exact (@Faithful.operator default o).denotes (by simp) (spelled ho)
      · exact (@Faithful.keyword default k).denotes (by simp) (spelled hk)
      · exact (@Faithful.syscall default n hn).denotes (by simp) (spelled hw)
    · obtain ⟨plain, c, hc, _⟩ := id ht
      have nonempty : text ≠ [] := by
        rintro rfl
        cases hc
      exact ⟨{ tok := .name, pos := default, lit := .ofList text }, by simp [Lexeme.written],
        .name (by simpa using nonempty) (by simpa using plain), fun _ => ⟨ht, reserved⟩⟩

/-! ### Where a token ends -/

/-- What follows a token: nothing, or something that begins with a separator. -/
def Boundary (rest : List Char) : Prop :=
  ∀ d ∈ rest.head?, isSeparator d

def separators : List Char :=
  [' ', '\t', '\r', '\n', '\x0b', '\x0c']

theorem mem_separators {d : Char} (h : isSeparator d) : d ∈ separators := by
  simpa [isSeparator, separators, or_assoc] using h

theorem Boundary.any_eq_false {rest : List Char} (h : Boundary rest) {p : Char → Bool}
    (hp : (separators.all fun d => !p d) = true) : rest.head?.any p = false := by
  rw [Option.any_eq_false]
  intro d hd
  simpa using List.all_eq_true.mp hp d (mem_separators (h d hd))

theorem Boundary.takeWhile_eq {rest : List Char} (h : Boundary rest) {p : Char → Bool}
    (hp : (separators.all fun d => !p d) = true) {text : List Char} (ht : ∀ c ∈ text, p c) :
    (text ++ rest).takeWhile p = text := by
  rw [List.takeWhile_append_of_pos ht]
  cases rest with
  | nil => simp
  | cons d rest =>
    have stop : p d = false := by simpa using h.any_eq_false hp
    simp [stop]

variable {file : String} {c : Cursor} {text rest : List Char}

/-- The reading of a token that begins at the cursor and is `length` characters long. -/
def Reading.of (file : String) (c : Cursor) (length : Nat) (l : Lexeme) : Reading :=
  ⟨{ l with pos := c.pos file }, c.skip length, none⟩

/-! ### Words -/

theorem ofWord_keyword (k : Keyword) : Token.ofWord k.text = (.keyword k, 0) := by
  cases k <;> rfl

theorem ofWord_syscall {n : Nat} (h : n ≤ 6) :
    Token.ofWord ("syscall" ++ toString n) = (.syscall, n) := by
  have cases : n = 0 ∨ n = 1 ∨ n = 2 ∨ n = 3 ∨ n = 4 ∨ n = 5 ∨ n = 6 := by omega
  rcases cases with rfl | rfl | rfl | rfl | rfl | rfl | rfl <;> rfl

theorem wordText_keyword (k : Keyword) : WordText k.text.toList := by
  cases k <;> decide

theorem wordText_syscall {n : Nat} (h : n ≤ 6) : WordText ("syscall" ++ toString n).toList := by
  have cases : n = 0 ∨ n = 1 ∨ n = 2 ∨ n = 3 ∨ n = 4 ∨ n = 5 ∨ n = 6 := by omega
  rcases cases with rfl | rfl | rfl | rfl | rfl | rfl | rfl <;> decide

theorem ofWord_name {word : String} (h : ¬ Reserved word) : Token.ofWord word = (.name, 0) := by
  unfold Token.ofWord
  split
  next t _ ht =>
    rcases lookup_reserved ht with ⟨o, _, ho⟩ | ⟨k, _, hk⟩
    · exact absurd (.inl ⟨o, ho⟩) h
    · exact absurd (.inr (.inl ⟨k, hk⟩)) h
  next n _ hn => exact absurd (.inr (.inr ⟨n, syscallArgs?_eq_some hn⟩)) h
  next => rfl

theorem readToken_of_unmarked {ch : Char} (hc : c.current = some ch) (hm : ch ∉ marks) :
    readToken file c = if isDigit ch then readNumber file c else readWord file c := by
  unfold readToken
  rw [hc]
  split <;> simp_all [marks]

theorem WordText.read (ht : WordText text) (hc : c.chars = text ++ rest) (hr : Boundary rest) :
    readToken file c = .of file c text.length
      { tok := (Token.ofWord (.ofList text)).1, pos := default, lit := .ofList text,
        argc := (Token.ofWord (.ofList text)).2 } := by
  obtain ⟨plain, ch, head, hd, hm⟩ := ht
  have current : c.current = some ch := by
    rw [Cursor.current_eq, hc, List.head?_append, Option.mem_def.mp head]
    rfl
  have run : c.run (fun ch => !isSeparator ch) = text := by
    rw [Cursor.run_eq, hc]
    exact hr.takeWhile_eq rfl (by simpa using plain)
  rw [readToken_of_unmarked current hm, if_neg hd]
  simp only [readWord, run]
  rfl

/-! ### Operators -/

theorem readToken_operator (o : Operator) (hc : c.chars = o.text.toList ++ rest)
    (hr : Boundary rest) : readToken file c =
      .of file c o.text.toList.length { tok := .operator o, pos := default, lit := o.text } := by
  have alone {ch : Char} (ht : o.text.toList = [ch]) : c.chars = ch :: rest := by
    rw [hc, ht, List.singleton_append]
  have single {ch : Char} (ht : o.text.toList = [ch]) : c.current = some ch := by
    rw [Cursor.current_eq, alone ht, List.head?_cons]
  have narrow {ch : Char} (ht : o.text.toList = [ch]) {p : Char → Bool}
      (hp : (separators.all fun d => !p d) = true) : ¬ followedBy p c = true := by
    rw [followedBy_eq (alone ht), hr.any_eq_false hp]
    simp
  have double {ch : Char} (ht : o.text.toList = [ch, '=']) : c.current = some ch := by
    rw [Cursor.current_eq, hc, ht, List.cons_append, List.head?_cons]
  have wide {ch : Char} (ht : o.text.toList = [ch, '=']) : followedBy (· == '=') c = true := by
    have whole : c.chars = ch :: '=' :: rest := by rw [hc, ht]; rfl
    rw [followedBy_eq whole]
    rfl
  cases o with
  | both | either => exact WordText.read (by decide) hc hr
  | sub =>
    rw [readToken, single rfl]
    exact if_neg (narrow rfl rfl)
  | lss | gtr =>
    rw [readToken, single rfl]
    exact if_neg (narrow rfl rfl)
  | neq | leq | geq =>
    rw [readToken, double rfl]
    exact if_pos (wide rfl)
  | _ =>
    rw [readToken, single rfl]
    rfl

/-! ### Numbers -/

theorem Digits.head_any {digits : List Char} (h : Digits digits) (rest : List Char) :
    (digits ++ rest).head?.any isDigit = true := by
  obtain ⟨nonempty, all⟩ := h
  obtain ⟨d, more, rfl⟩ := List.exists_cons_of_ne_nil nonempty
  simpa using all d (by simp)

theorem Digits.takeWhile_eq {digits : List Char} (h : Digits digits) (hr : Boundary rest) :
    (digits ++ rest).takeWhile isDigit = digits :=
  hr.takeWhile_eq rfl h.2

theorem readToken_of_digit {ch : Char} (hc : c.current = some ch) (hd : isDigit ch) :
    readToken file c = readNumber file c := by
  have unmarked : ch ∉ marks := by
    intro hm
    have none : (marks.all fun m => !isDigit m) = true := rfl
    simpa [hd] using List.all_eq_true.mp none ch hm
  rw [readToken_of_unmarked hc unmarked, if_pos hd]

theorem readNumber_eq (sign : List Char) {digits : List Char} {value : Int64}
    (hs : sign = [] ∧ c.current ≠ some '-' ∨ sign = ['-'])
    (hc : c.chars = sign ++ (digits ++ rest)) (hd : Digits digits) (hr : Boundary rest)
    (hv : value.toInt = if sign = [] then (decimal digits : Int) else -decimal digits) :
    readNumber file c = .of file c (sign ++ digits).length
      { tok := .int, pos := default, lit := .ofList (sign ++ digits), value } := by
  have hsign : (if c.current = some '-' then ['-'] else []) = sign := by
    rcases hs with ⟨rfl, hne⟩ | rfl
    · simp [hne]
    · simp [Cursor.current_eq, hc]
  have hrun : (c.skip sign.length).run isDigit = digits := by
    rw [Cursor.run_eq, Cursor.chars_skip, hc, List.drop_left, hd.takeWhile_eq hr]
  have range := And.intro value.minValue_le_toInt value.toInt_le
  unfold readNumber
  simp only [hsign, hrun, digitsValue_eq_decimal, ← hv]
  rw [if_pos range]
  simp [Reading.of]

/-! ### Literals in quotes -/

theorem escaped?_of_mem {e d : Char} (h : (e, d) ∈ escapes) : escaped? e = some d := by
  simp only [escapes, List.mem_cons, Prod.mk.injEq, List.not_mem_nil, or_false] at h
  rcases h with ⟨rfl, rfl⟩ | ⟨rfl, rfl⟩ | ⟨rfl, rfl⟩ | ⟨rfl, rfl⟩ | ⟨rfl, rfl⟩ | ⟨rfl, rfl⟩ |
    ⟨rfl, rfl⟩
  all_goals rfl

theorem closeChar_eq (lit : List Char) {value : Char} (hc : c.chars = lit ++ '\'' :: rest) :
    closeChar file c lit.length lit value = .of file c (lit.length + 1)
      { tok := .int, pos := default, lit := .ofList (lit ++ ['\'']),
        value := Int64.ofInt value.toNat } := by
  have closed : (c.skip lit.length).current = some '\'' := by
    rw [Cursor.current_eq, Cursor.chars_skip, hc, List.drop_left, List.head?_cons]
  unfold closeChar
  simp only [closed, if_true]
  rw [Reading.of, Cursor.skip_add]
  rfl

/-- The glyphs of a text whose characters are known. -/
theorem rest_of_chars {d : Char} {ds : List Char} (hc : c.chars = d :: ds) :
    ∃ g gs, c.rest = g :: gs ∧ g.value = d ∧ gs.map Glyph.value = ds :=
  List.map_eq_cons_iff.mp hc

theorem readChar_plain {d : Char} (small : d.toNat < 0x80) (hd : d ∉ ['\n', '\'', '\\'])
    (hc : c.chars = ['\'', d, '\''] ++ rest) : readChar file c = .of file c 3
      { tok := .int, pos := default, lit := .ofList ['\'', d, '\''],
        value := Int64.ofInt d.toNat } := by
  obtain ⟨g, gs, hg, _, hgs⟩ := rest_of_chars hc
  obtain ⟨g', gs', rfl, rfl, _⟩ := List.map_eq_cons_iff.mp hgs
  simp only [List.mem_cons, List.not_mem_nil, or_false, not_or] at hd
  unfold readChar
  simp only [hg, List.tail_cons, if_neg hd.1, if_neg hd.2.1, if_neg hd.2.2,
    if_neg (Nat.not_le.mpr small)]
  exact closeChar_eq ['\'', g'.value] hc

theorem readChar_escape {e d : Char} (he : (e, d) ∈ escapes)
    (hc : c.chars = ['\'', '\\', e, '\''] ++ rest) : readChar file c = .of file c 4
      { tok := .int, pos := default, lit := .ofList ['\'', '\\', e, '\''],
        value := Int64.ofInt d.toNat } := by
  obtain ⟨g, gs, hg, _, hgs⟩ := rest_of_chars hc
  obtain ⟨b, gs', rfl, hb, hgs'⟩ := List.map_eq_cons_iff.mp hgs
  obtain ⟨g', _, rfl, rfl, _⟩ := List.map_eq_cons_iff.mp hgs'
  unfold readChar
  simp only [hg, List.tail_cons, hb, escaped?_of_mem he]
  exact closeChar_eq ['\'', '\\', g'.value] hc

theorem stringRest_of_text {raw value : List Char} (h : StringText raw value) {gs : List Glyph}
    (hg : gs.map Glyph.value = raw ++ '"' :: rest) :
    stringRest gs = .closed (raw.length + 1) raw value := by
  induction h generalizing gs with
  | nil =>
    obtain ⟨g, gs, rfl, hq, _⟩ := List.map_eq_cons_iff.mp hg
    rw [stringRest.eq_def]
    simp [hq]
  | @plain d raw value hd _ ih =>
    obtain ⟨g, gs, rfl, rfl, hgs⟩ := List.map_eq_cons_iff.mp hg
    simp only [List.mem_cons, List.not_mem_nil, or_false, not_or] at hd
    rw [stringRest.eq_def]
    simp only [if_neg hd.1, if_neg hd.2, ih hgs, StringRest.after, List.singleton_append,
      List.length_cons, Nat.add_comm 1]
  | @escape e d raw value he _ ih =>
    obtain ⟨b, gs, rfl, hb, hgs⟩ := List.map_eq_cons_iff.mp hg
    obtain ⟨g, gs', rfl, rfl, hgs'⟩ := List.map_eq_cons_iff.mp hgs
    rw [stringRest.eq_def]
    simp only [hb, escaped?_of_mem he, ih hgs', StringRest.after]
    simp [Nat.add_comm 2]

theorem readString_eq {raw value : List Char} (h : StringText raw value)
    (hc : c.chars = '"' :: raw ++ ['"'] ++ rest) :
    readString file c = .of file c ('"' :: raw ++ ['"']).length
      { tok := .str, pos := default, lit := .ofList raw, str := .ofList value } := by
  have quoted : c.chars = '"' :: (raw ++ '"' :: rest) := by simpa using hc
  obtain ⟨g, gs, hg, _, hgs⟩ := rest_of_chars quoted
  unfold readString
  simp only [hg, List.tail_cons, stringRest_of_text h hgs]
  simp [Reading.of]

/-! ### Memory accesses -/

theorem readWidth_eq {mark : Char} {tok : Token} {digits : List Char} (hd : Digits digits)
    (hw : (decimal digits : Int) ∈ [1, 2, 4, 8]) (hc : c.chars = mark :: digits ++ rest)
    (hr : Boundary rest) : readWidth file c mark tok = .of file c (mark :: digits).length
      { tok, pos := default, lit := .ofList (mark :: digits), width := decimal digits } := by
  have run : c.advance.run isDigit = digits := by
    rw [show c.advance = c.skip 1 from rfl, Cursor.run_eq, Cursor.chars_skip, hc]
    exact hd.takeWhile_eq hr
  unfold readWidth
  simp only [run, digitsValue_eq_decimal]
  rw [if_pos (isWidth_iff.mpr hw)]
  rfl

/-! ### Any token -/

theorem IntText.read {lit : String} {value : Int64} (h : IntText lit.toList value.toInt)
    (hc : c.chars = lit.toList ++ rest) (hr : Boundary rest) :
    readToken file c =
      .of file c lit.toList.length { tok := .int, pos := default, lit, value } := by
  have spelled : String.ofList lit.toList = lit := String.ofList_toList
  generalize hv : value.toInt = v at h
  generalize ht : lit.toList = text at h hc spelled
  subst spelled
  cases h with
  | natural hd =>
    obtain ⟨d, more, rfl⟩ := List.exists_cons_of_ne_nil hd.1
    have digit : isDigit d := hd.2 d (by simp)
    have current : c.current = some d := by rw [Cursor.current_eq, hc]; rfl
    have unsigned : c.current ≠ some '-' := by
      rw [current]
      rintro ⟨⟩
      exact absurd digit (by decide)
    rw [readToken_of_digit current digit]
    exact readNumber_eq [] (.inl ⟨rfl, unsigned⟩) hc hd hr (by simpa using hv)
  | @negative digits hd =>
    have current : c.current = some '-' := by rw [Cursor.current_eq, hc]; rfl
    have signed : followedBy isDigit c = true := by
      rw [followedBy_eq hc]
      exact hd.head_any rest
    rw [readToken, current]
    refine (if_pos signed).trans ?_
    exact readNumber_eq ['-'] (.inr rfl) hc hd hr (by simpa using hv)
  | @char d small hd =>
    have current : c.current = some '\'' := by rw [Cursor.current_eq, hc]; rfl
    have same : Int64.ofInt d.toNat = value := by rw [← hv, Int64.ofInt_toInt]
    rw [readToken, current, ← same]
    exact readChar_plain small hd hc
  | @escape e d he =>
    have current : c.current = some '\'' := by rw [Cursor.current_eq, hc]; rfl
    have same : Int64.ofInt d.toNat = value := by rw [← hv, Int64.ofInt_toInt]
    rw [readToken, current, ← same]
    exact readChar_escape he hc

theorem WidthText.read {mark : Char} {tok : Token} {lit : String} {width : Int}
    (h : WidthText mark lit.toList width)
    (ht : mark = '!' ∧ tok = .load ∨ mark = '@' ∧ tok = .store)
    (hc : c.chars = lit.toList ++ rest) (hr : Boundary rest) : readToken file c =
      .of file c lit.toList.length { tok, pos := default, lit, width } := by
  obtain ⟨digits, hd, text, rfl, hw⟩ := h
  obtain rfl : lit = String.ofList (mark :: digits) := by rw [← text, String.ofList_toList]
  rw [text] at hc ⊢
  have current : c.current = some mark := by rw [Cursor.current_eq, hc]; rfl
  have digit : followedBy isDigit c = true := by
    rw [followedBy_eq hc]
    exact hd.head_any rest
  have single : ¬ followedBy (· == '=') c = true := by
    obtain ⟨d, more, rfl⟩ := List.exists_cons_of_ne_nil hd.1
    have digit : isDigit d := hd.2 d (by simp)
    rw [followedBy_eq hc]
    change ¬ (d == '=') = true
    rintro same
    rw [beq_iff_eq.mp same] at digit
    exact absurd digit (by decide)
  rw [readToken, current]
  rcases ht with ⟨rfl, rfl⟩ | ⟨rfl, rfl⟩
  · exact (if_neg single).trans ((if_pos digit).trans (readWidth_eq hd hw hc hr))
  · exact (if_pos digit).trans (readWidth_eq hd hw hc hr)

/-- A text that is a token by itself is read as that token if nothing follows, or a separator. -/
theorem Denotes.read {l : Lexeme} (h : Denotes text l) (hc : c.chars = text ++ rest)
    (hr : Boundary rest) : readToken file c = .of file c text.length l := by
  obtain ⟨rfl, faithful, name⟩ := h
  cases faithful with
  | operator => exact readToken_operator _ hc hr
  | int ht => exact ht.read hc hr
  | @str pos lit str ht =>
    have current : c.current = some '"' := by rw [Cursor.current_eq, hc]; rfl
    rw [readToken, current]
    have read : readString file c = _ := readString_eq ht hc
    rwa [String.ofList_toList, String.ofList_toList] at read
  | load ht => exact ht.read (.inl ⟨rfl, rfl⟩) hc hr
  | store ht => exact ht.read (.inr ⟨rfl, rfl⟩) hc hr
  | @syscall pos n hn =>
    have read : readToken file c = _ := (wordText_syscall hn).read hc hr
    rwa [String.ofList_toList, ofWord_syscall hn] at read
  | @keyword pos k =>
    have read : readToken file c = _ := (wordText_keyword k).read hc hr
    rwa [String.ofList_toList, ofWord_keyword] at read
  | @name pos lit _ _ =>
    obtain ⟨word, free⟩ : WordText lit.toList ∧ ¬ Reserved lit := name rfl
    have read : readToken file c = _ := word.read hc hr
    rwa [String.ofList_toList, ofWord_name free] at read

end StackLang.Source
