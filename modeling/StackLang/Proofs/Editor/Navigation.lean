import Mathlib.Data.List.Pairwise
import StackLang.Proofs.Editor.Occurrences
import StackLang.Proofs.Source.Completion
import StackLang.Proofs.Source.Spacing
/-!
Navigation in a document: which name is under a caret, where it is declared and where it is used.
All answers are read off the names in the tokens of the declarations that are complete.
-/

namespace StackLang

open Source

/-- Whether a caret stands in a token or at one of its ends. -/
def Caret.Touches (c : Caret) (l : Lexeme) : Prop :=
  c.line + 1 = l.pos.line ∧ l.pos.col ≤ c.character + 1 ∧
    c.character + 1 ≤ l.pos.col + l.lit.length

def Caret.Before (a b : Caret) : Prop :=
  a.line < b.line ∨ a.line = b.line ∧ a.character < b.character

/-- The stretch of a token in a document, with lines and columns counted from zero. -/
def Lexeme.location (uri : String) (l : Lexeme) : Location :=
  let first : Caret := ⟨l.pos.line - 1, l.pos.col - 1⟩
  ⟨uri, first, { first with character := first.character + l.lit.length }⟩

/-- What a document answers, in terms of the tokens `us` of its declarations. -/
structure Document.Navigates (d : Document) (uri : String) (us : List Lexeme) : Prop where
  named : ∀ c n, d.nameAt? c = some n ↔ ∃ l ∈ names us, l.lit = n ∧ c.Touches l
  /-- No caret touches two names. -/
  apart : ∀ c : Caret, ∀ a ∈ names us, ∀ b ∈ names us, c.Touches a → c.Touches b → a = b
  /-- No name is declared twice. -/
  once : ∀ a ∈ declared us, ∀ b ∈ declared us, a.lit = b.lit → a = b
  defined : ∀ c loc, d.definition? c = some loc ↔
    ∃ l ∈ declared us, d.nameAt? c = some l.lit ∧ loc = l.location uri
  listed : ∀ c n, d.nameAt? c = some n →
    d.references c false = ((used us).filter fun l => l.lit = n).map (Lexeme.location uri)
  unlisted : ∀ c withDecl, d.nameAt? c = none → d.references c withDecl = []
  increasing : ∀ c, (d.references c false).Pairwise fun a b => a.range.first.Before b.range.first
  declared_first : ∀ c, d.references c true = (d.definition? c).toList ++ d.references c false
  /-- Every place in an answer leads to the same answers. -/
  again : ∀ c, ∀ loc ∈ d.references c true,
    d.definition? loc.range.first = d.definition? c ∧
      ∀ withDecl, d.references loc.range.first withDecl = d.references c withDecl

/-- A program and the tokens of its declarations: the names declared and used in the program are
those in the tokens, in their order, and the names stand apart from each other. -/
structure Charts (us : List Lexeme) (p : Program) : Prop where
  coherent : p.Coherent
  heads : p.decls.map (fun d => (d.name, d.namePos)) = (declared us).map Lexeme.spot
  uses : p.nameUses = (used us).map Lexeme.spot
  placed : ∀ l ∈ names us, l.Placed
  spaced : (names us).Pairwise EndsBefore

theorem parse_charts {file : String} {bytes : List UInt8} {tokens : List Lexeme}
    (h : tokenize file bytes = .ok tokens) :
    ∃ us, Completed tokens us ∧ Charts us (parseTokens file tokens).program := by
  obtain ⟨us, completed, coherent, text⟩ := parseTokens_completed file tokens
  have inside : us.Sublist tokens :=
    (completed.beginning.trans (List.takeWhile_prefix _)).sublist
  obtain ⟨heads, uses⟩ := text.occurrences ((tokenize_nodup h).sublist inside)
  refine ⟨us, completed, coherent, heads, uses, ?_, ?_⟩
  · intro l hl
    exact tokenize_placed h l (inside.subset (mem_names.mp hl).1)
  · refine List.pairwise_filter.mpr (((tokenize_spaced h).sublist inside).imp ?_)
    intro a b room ha hb
    exact room (by simpa using ha) (by simpa using hb)

theorem Caret.isOn_iff {c : Caret} {l : Lexeme} (placed : l.Placed) :
    c.isOn l.pos l.lit.length ↔ c.Touches l := by
  obtain ⟨line, col⟩ := placed
  simp only [Caret.isOn, Range.ofPos, Pos.isValid, line, decide_true, if_true, Bool.true_and,
    Bool.and_eq_true, beq_iff_eq, decide_eq_true_eq, Caret.Touches]
  omega

theorem Document.locate_eq (d : Document) {l : Lexeme} (placed : l.Placed) :
    d.locate l.lit l.pos = l.location d.uri := by
  simp [Document.locate, Range.ofPos, Pos.isValid, placed.1, Lexeme.location]

/-- A caret at the beginning of a token touches it. -/
theorem Lexeme.Placed.touches_first {l : Lexeme} (placed : l.Placed) (uri : String) :
    (l.location uri).range.first.Touches l := by
  obtain ⟨line, col⟩ := placed
  simp only [Caret.Touches, Lexeme.location]
  omega

theorem Source.EndsBefore.not_touches {a b : Lexeme} (h : EndsBefore a b) {c : Caret}
    (ha : c.Touches a) : ¬ c.Touches b := by
  simp only [EndsBefore, Pos.Before] at h
  simp only [Caret.Touches] at ha ⊢
  omega

namespace Charts

variable {us : List Lexeme} {p : Program} {c : Caret}

theorem apart (h : Charts us p) {a b : Lexeme} (ha : a ∈ names us) (hb : b ∈ names us)
    (onA : c.Touches a) (onB : c.Touches b) : a = b := by
  have never : (names us).Pairwise fun a b => ¬ (c.Touches a ∧ c.Touches b) :=
    h.spaced.imp fun room both => room.not_touches both.1 both.2
  have symm : Std.Symm fun a b : Lexeme => ¬ (c.Touches a ∧ c.Touches b) :=
    ⟨fun _ _ => mt And.symm⟩
  by_contra different
  exact never.forall ha hb different ⟨onA, onB⟩

theorem nameAt?_eq_some_iff (h : Charts us p) {n : String} :
    p.nameAt? c = some n ↔ ∃ l ∈ names us, l.lit = n ∧ c.Touches l := by
  let on (l : Lexeme) : Bool := c.isOn l.pos l.lit.length
  have answer : p.nameAt? c = ((declared us ++ used us).find? on).map Lexeme.lit := by
    rw [Program.nameAt?, h.heads, h.uses, ← List.map_append, List.find?_map, Option.map_map]
    rfl
  have touched {l : Lexeme} (hl : l ∈ names us) : on l ↔ c.Touches l :=
    Caret.isOn_iff (h.placed l hl)
  have found {l : Lexeme} (hl : (declared us ++ used us).find? on = some l) :
      l ∈ names us ∧ c.Touches l := by
    have member : l ∈ names us :=
      mem_names_iff.mpr (List.mem_append.mp (List.mem_of_find?_eq_some hl))
    exact ⟨member, (touched member).mp (List.find?_some hl)⟩
  rw [answer, Option.map_eq_some_iff]
  constructor
  · rintro ⟨l, hl, rfl⟩
    exact ⟨l, (found hl).1, rfl, (found hl).2⟩
  · rintro ⟨l, hl, rfl, hc⟩
    have hit : ((declared us ++ used us).find? on).isSome :=
      List.find?_isSome.mpr ⟨l, List.mem_append.mpr (mem_names_iff.mp hl), (touched hl).mpr hc⟩
    obtain ⟨other, ho⟩ := Option.isSome_iff_exists.mp hit
    obtain ⟨member, hc'⟩ := found ho
    exact ⟨other, ho, congrArg _ (h.apart member hl hc' hc)⟩

theorem once (h : Charts us p) {a b : Lexeme} (ha : a ∈ declared us) (hb : b ∈ declared us)
    (same : a.lit = b.lit) : a = b := by
  have texts : (declared us).map Lexeme.lit = p.decls.map Decl.name := by
    have := congrArg (List.map Prod.fst) h.heads
    rw [List.map_map, List.map_map] at this
    exact this.symm
  exact List.inj_on_of_nodup_map (texts ▸ h.coherent.nodup) ha hb same

/-- A name is found where a token declares it. -/
theorem lookup_iff (h : Charts us p) {n : String} {place : Pos} :
    (∃ d, p.lookup n = some d ∧ d.namePos = place) ↔
      ∃ l ∈ declared us, l.lit = n ∧ l.pos = place := by
  have spots : (n, place) ∈ p.decls.map (fun d => (d.name, d.namePos)) ↔
      (n, place) ∈ (declared us).map Lexeme.spot := by
    rw [h.heads]
  simp only [List.mem_map, Prod.mk.injEq, Lexeme.spot] at spots
  rw [← spots]
  constructor
  · rintro ⟨d, found, hp⟩
    obtain ⟨member, hn⟩ := h.coherent.mem_of_lookup found
    exact ⟨d, member, hn, hp⟩
  · rintro ⟨d, member, rfl, hp⟩
    exact ⟨d, h.coherent.lookup_of_mem member, hp⟩

theorem uses_filter (h : Charts us p) (n : String) :
    (p.nameUses.filter fun u => u.1 = n) =
      ((used us).filter fun l => l.lit = n).map Lexeme.spot := by
  rw [h.uses, List.filter_map]
  rfl

end Charts

namespace Document

variable {us : List Lexeme} {p : Program} {d : Document} {c : Caret}

theorem nameAt?_eq (hp : d.program = some p) (c : Caret) : d.nameAt? c = p.nameAt? c := by
  simp [nameAt?, hp]

theorem definition?_eq (hp : d.program = some p) (c : Caret) :
    d.definition? c = (d.nameAt? c).bind fun n =>
      (p.lookup n).map fun decl => d.locate decl.name decl.namePos := by
  simp [definition?, declAt?, nameAt?, hp, Option.map_bind]

theorem references_eq (hp : d.program = some p) (c : Caret) (withDecl : Bool) :
    d.references c withDecl = (d.nameAt? c).toList.flatMap fun n =>
      (if withDecl then (d.definition? c).toList else []) ++
        (p.nameUses.filter fun u => u.1 = n).map fun u => d.locate u.1 u.2 := by
  simp only [references, nameAt?_eq hp, hp]
  cases p.nameAt? c with
  | none => rfl
  | some n => simp

/-- Carets at the same name get the same answers. -/
theorem same_answers (hp : d.program = some p) {c' : Caret} (same : d.nameAt? c = d.nameAt? c') :
    d.definition? c = d.definition? c' ∧
      ∀ withDecl, d.references c withDecl = d.references c' withDecl := by
  have definition : d.definition? c = d.definition? c' := by
    rw [definition?_eq hp, definition?_eq hp, same]
  refine ⟨definition, ?_⟩
  intro withDecl
  rw [references_eq hp, references_eq hp, same, definition]

end Document

namespace Charts

variable {us : List Lexeme} {p : Program} {d : Document} {c : Caret}

theorem definition?_eq_some_iff (h : Charts us p) (hp : d.program = some p) {loc : Location} :
    d.definition? c = some loc ↔
      ∃ l ∈ declared us, d.nameAt? c = some l.lit ∧ loc = l.location d.uri := by
  rw [Document.definition?_eq hp, Option.bind_eq_some_iff]
  constructor
  · rintro ⟨n, hn, located⟩
    obtain ⟨decl, found, rfl⟩ := Option.map_eq_some_iff.mp located
    obtain ⟨l, hl, rfl, place⟩ := h.lookup_iff.mp ⟨decl, found, rfl⟩
    refine ⟨l, hl, hn, ?_⟩
    rw [(h.coherent.mem_of_lookup found).2, ← place]
    exact d.locate_eq (h.placed l (mem_declared.mp hl).1)
  · rintro ⟨l, hl, hn, rfl⟩
    obtain ⟨decl, found, place⟩ := h.lookup_iff.mpr ⟨l, hl, rfl, rfl⟩
    refine ⟨l.lit, hn, Option.map_eq_some_iff.mpr ⟨decl, found, ?_⟩⟩
    rw [(h.coherent.mem_of_lookup found).2, place]
    exact d.locate_eq (h.placed l (mem_declared.mp hl).1)

theorem references_eq (h : Charts us p) (hp : d.program = some p) {n : String}
    (hn : d.nameAt? c = some n) :
    d.references c false = ((used us).filter fun l => l.lit = n).map (Lexeme.location d.uri) := by
  rw [Document.references_eq hp, hn, Option.toList_some, List.flatMap_singleton,
    if_neg Bool.false_ne_true, List.nil_append, h.uses_filter, List.map_map]
  refine List.map_congr_left ?_
  intro l hl
  exact d.locate_eq (h.placed l (mem_used.mp (List.mem_of_mem_filter hl)).1)

theorem references_increasing (h : Charts us p) (hp : d.program = some p) (c : Caret) :
    (d.references c false).Pairwise fun a b => a.range.first.Before b.range.first := by
  cases hn : d.nameAt? c with
  | none => simp [Document.references_eq hp, hn]
  | some n =>
    rw [h.references_eq hp hn, List.pairwise_map]
    have inside : ((used us).filter fun l => l.lit = n).Sublist (names us) :=
      List.filter_sublist.trans List.filter_sublist
    refine (h.spaced.sublist inside).imp_of_mem ?_
    intro a b ha hb room
    obtain ⟨line, col⟩ := h.placed a (inside.subset ha)
    obtain ⟨line', col'⟩ := h.placed b (inside.subset hb)
    simp only [EndsBefore, Pos.Before] at room
    simp only [Lexeme.location, Caret.Before]
    omega

theorem references_true (hp : d.program = some p) (c : Caret) :
    d.references c true = (d.definition? c).toList ++ d.references c false := by
  rw [Document.references_eq hp, Document.references_eq hp]
  cases hn : d.nameAt? c with
  | none => simp [Document.definition?_eq hp, hn]
  | some n => simp

/-- Every place in an answer is that of a token with the name asked for. -/
theorem mem_references (h : Charts us p) (hp : d.program = some p) {loc : Location}
    (hl : loc ∈ d.references c true) :
    ∃ l ∈ names us, d.nameAt? c = some l.lit ∧ loc = l.location d.uri := by
  rw [references_true hp, List.mem_append, Option.mem_toList] at hl
  rcases hl with found | used
  · obtain ⟨l, hl, hn, place⟩ := (h.definition?_eq_some_iff hp).mp found
    exact ⟨l, (mem_declared.mp hl).1, hn, place⟩
  · cases hn : d.nameAt? c with
    | none => simp [Document.references_eq hp, hn] at used
    | some n =>
      rw [h.references_eq hp hn] at used
      obtain ⟨l, hl, rfl⟩ := List.mem_map.mp used
      obtain ⟨member, same⟩ := List.mem_filter.mp hl
      exact ⟨l, (mem_used.mp member).1, congrArg some (of_decide_eq_true same).symm, rfl⟩

theorem navigates (h : Charts us p) (hp : d.program = some p) : d.Navigates d.uri us where
  named c n := by
    rw [Document.nameAt?_eq hp]
    exact h.nameAt?_eq_some_iff
  apart c a ha b hb := h.apart ha hb
  once a ha b hb := h.once ha hb
  defined c loc := h.definition?_eq_some_iff hp
  listed c n := h.references_eq hp
  unlisted c withDecl hn := by simp [Document.references_eq hp, hn]
  increasing := h.references_increasing hp
  declared_first := references_true hp
  again := by
    intro c loc hl
    obtain ⟨l, member, hn, rfl⟩ := h.mem_references hp hl
    refine Document.same_answers hp ?_
    rw [hn, Document.nameAt?_eq hp, h.nameAt?_eq_some_iff]
    exact ⟨l, member, rfl, (h.placed l member).touches_first _⟩

end Charts

theorem Document.analyze_eq {uri text : String} {tokens : List Lexeme}
    (h : tokenize (Uri.fileName uri) (Text.bytesOf text) = .ok tokens) :
    (Document.analyze uri text).uri = uri ∧ (Document.analyze uri text).program =
      some (parseTokens (Uri.fileName uri) tokens).program := by
  simp only [Document.analyze, h]
  exact ⟨trivial, trivial⟩

/-- Navigation in a document whose text has tokens is exact. It goes by the names in the tokens of
the declarations that are complete before the first error, which are all tokens if there is none. -/
theorem navigation_exact {uri text : String} {tokens : List Lexeme}
    (h : tokenize (Uri.fileName uri) (Text.bytesOf text) = .ok tokens) :
    ∃ us, Completed tokens us ∧
      ((parseTokens (Uri.fileName uri) tokens).fault = none → us = beforeEnd tokens) ∧
      (Document.analyze uri text).Navigates uri us := by
  obtain ⟨us, completed, charts⟩ := parse_charts h
  obtain ⟨same, program⟩ := Document.analyze_eq h
  refine ⟨us, completed, completed_of_parsed completed, ?_⟩
  have navigates := charts.navigates program
  rwa [same] at navigates

/-- A memory region, a procedure that uses its name twice, and the beginning of a declaration that
takes the name again. -/
def drafted : String :=
  "memory é 8 end\nproc main do if é do é lost end end\nproc é"

theorem drafted_navigates :
    (Document.analyze "file:///a" drafted).references ⟨1, 17⟩ true =
        [⟨"file:///a", ⟨0, 7⟩, ⟨0, 8⟩⟩, ⟨"file:///a", ⟨1, 16⟩, ⟨1, 17⟩⟩,
          ⟨"file:///a", ⟨1, 21⟩, ⟨1, 22⟩⟩] ∧
      ∃ tokens, tokenize (Uri.fileName "file:///a") (Text.bytesOf drafted) = .ok tokens ∧
        ∃ us, Completed tokens us ∧
          (Document.analyze "file:///a" drafted).Navigates "file:///a" us := by
  refine ⟨by decide +kernel, ?_⟩
  have read : (tokenize (Uri.fileName "file:///a") (Text.bytesOf drafted)).isOk := by
    decide +kernel
  cases ht : tokenize (Uri.fileName "file:///a") (Text.bytesOf drafted) with
  | error e =>
    rw [ht] at read
    cases read
  | ok tokens =>
    obtain ⟨us, completed, _, navigates⟩ := navigation_exact ht
    exact ⟨tokens, rfl, us, completed, navigates⟩

end StackLang
