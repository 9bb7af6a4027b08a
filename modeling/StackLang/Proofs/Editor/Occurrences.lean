import StackLang.Editor.Document
import StackLang.Proofs.Source.Grammar
/-!
Where names stand in the tokens of declarations. The name that follows the word that begins a
declaration is the one declared there; every other name is a use. In the order of the tokens, the
former are the names of the declarations and the latter the uses in their bodies.
-/

namespace StackLang

/-- Whether a token is a word that begins a declaration. -/
def Lexeme.isDeclWord (l : Lexeme) : Bool :=
  (Source.declKind? l.tok).isSome

/-- The text and the place of a name. -/
def Lexeme.spot (l : Lexeme) : String × Pos :=
  (l.lit, l.pos)

namespace Source

/-- The names among tokens. -/
def names (ts : List Lexeme) : List Lexeme :=
  ts.filter fun l => l.tok = .name

/-- Whether a token follows a word that begins a declaration. -/
def Declares (ts : List Lexeme) (l : Lexeme) : Prop :=
  ∃ word ∈ ts, word.isDeclWord ∧ [word, l] <:+: ts

instance (ts : List Lexeme) (l : Lexeme) : Decidable (Declares ts l) :=
  inferInstanceAs (Decidable (∃ word ∈ ts, word.isDeclWord ∧ [word, l] <:+: ts))

/-- The names that are declared. -/
def declared (ts : List Lexeme) : List Lexeme :=
  (names ts).filter fun l => Declares ts l

/-- The names that are used. -/
def used (ts : List Lexeme) : List Lexeme :=
  (names ts).filter fun l => !decide (Declares ts l)

variable {ts us rest : List Lexeme} {word name l : Lexeme}

theorem mem_names : l ∈ names ts ↔ l ∈ ts ∧ l.tok = .name := by
  simp [names]

theorem names_append (ts us : List Lexeme) : names (ts ++ us) = names ts ++ names us :=
  List.filter_append ..

theorem names_cons_of_ne (ts : List Lexeme) (h : l.tok ≠ .name) : names (l :: ts) = names ts :=
  List.filter_cons_of_neg (by simpa using h)

theorem names_keyword {k : Keyword} (h : l.tok = .keyword k) : names (l :: ts) = names ts :=
  names_cons_of_ne ts (by simp [h])

theorem names_cons_of_name (ts : List Lexeme) (h : l.tok = .name) :
    names (l :: ts) = l :: names ts :=
  List.filter_cons_of_pos (by simpa using h)

theorem mem_declared : l ∈ declared ts ↔ l ∈ names ts ∧ Declares ts l := by
  simp [declared]

theorem mem_used : l ∈ used ts ↔ l ∈ names ts ∧ ¬ Declares ts l := by
  simp [used]

theorem mem_names_iff : l ∈ names ts ↔ l ∈ declared ts ∨ l ∈ used ts := by
  rw [mem_declared, mem_used, ← and_or_left]
  exact (and_iff_left (Decidable.em _)).symm

theorem Declares.mem (h : Declares ts l) : l ∈ ts := by
  obtain ⟨word, _, _, pair⟩ := h
  exact pair.subset (by simp)

/-! ### Tokens one after another -/

/-- Whether the tokens begin with something other than a name. -/
def Guarded (ts : List Lexeme) : Prop :=
  ∀ l ∈ ts.head?, l.tok ≠ .name

theorem declares_append (guarded : Guarded us) (named : l.tok = .name) :
    Declares (ts ++ us) l ↔ Declares ts l ∨ Declares us l := by
  constructor
  · rintro ⟨word, _, opens, pair⟩
    have inside {vs : List Lexeme} (h : [word, l] <:+: vs) : Declares vs l :=
      ⟨word, h.subset (by simp), opens, h⟩
    rcases List.infix_append_iff.mp pair with h | h | ⟨front, back, split, hf, hb⟩
    · exact .inl (inside h)
    · exact .inr (inside h)
    · -- a name cannot be the first token of the second piece
      match front, split with
      | [], split =>
        rw [List.nil_append] at split
        exact .inr (inside (split ▸ hb.isInfix))
      | [_], split =>
        obtain ⟨rfl, rfl⟩ : _ = _ ∧ [l] = back := by simpa using split
        obtain ⟨after, rfl⟩ := hb
        exact absurd named (guarded l rfl)
      | [_, _], split =>
        obtain ⟨rfl, rfl, rfl⟩ : word = _ ∧ l = _ ∧ back = [] := by simpa using split
        exact .inl (inside hf.isInfix)
  · rintro (⟨word, hw, opens, pair⟩ | ⟨word, hw, opens, pair⟩)
    · exact ⟨word, List.mem_append_left _ hw, opens, pair.trans (List.prefix_append _ _).isInfix⟩
    · exact ⟨word, List.mem_append_right _ hw, opens, pair.trans (List.suffix_append _ _).isInfix⟩

/-- Among different tokens, what a name is in one piece it is in the whole. -/
theorem filter_names_append (keep : Bool → Bool) (guarded : Guarded us)
    (distinct : (ts ++ us).Nodup) :
    ((names (ts ++ us)).filter fun l => keep (Declares (ts ++ us) l)) =
      ((names ts).filter fun l => keep (Declares ts l)) ++
        (names us).filter fun l => keep (Declares us l) := by
  have apart := (List.nodup_append.mp distinct).2.2
  have left : ∀ l ∈ names ts, (Declares (ts ++ us) l ↔ Declares ts l) := by
    intro l hl
    obtain ⟨here, named⟩ := mem_names.mp hl
    rw [declares_append guarded named]
    exact or_iff_left fun there => apart l here l there.mem rfl
  have right : ∀ l ∈ names us, (Declares (ts ++ us) l ↔ Declares us l) := by
    intro l hl
    obtain ⟨here, named⟩ := mem_names.mp hl
    rw [declares_append guarded named]
    exact or_iff_right fun there => apart l there.mem l here rfl
  rw [names_append, List.filter_append]
  congr 1
  · refine List.filter_congr fun l hl => ?_
    simp only [left l hl]
  · refine List.filter_congr fun l hl => ?_
    simp only [right l hl]

theorem declared_append (guarded : Guarded us) (distinct : (ts ++ us).Nodup) :
    declared (ts ++ us) = declared ts ++ declared us :=
  filter_names_append id guarded distinct

theorem used_append (guarded : Guarded us) (distinct : (ts ++ us).Nodup) :
    used (ts ++ us) = used ts ++ used us :=
  filter_names_append not guarded distinct

/-! ### The tokens of a body -/

/-- The names that nodes use, in the order of the nodes. -/
def usesOf (nodes : List Node) : List (String × Pos) :=
  nodes.filterMap Node.use?

theorem usesOf_append (ns ms : List Node) : usesOf (ns ++ ms) = usesOf ns ++ usesOf ms :=
  List.filterMap_append ..

theorem usesOf_cons {n : Node} (ns : List Node) (h : n.use? = none) :
    usesOf (n :: ns) = usesOf ns :=
  List.filterMap_cons_none h

theorem usesOf_block (pos : Pos) (xs : List Instr) :
    usesOf ((Block.mk pos xs).nodes fun _ => true) = usesOf (Part.block xs).nodes :=
  usesOf_cons _ rfl

theorem use_of_spelledBy {o : Op} (h : o.SpelledBy l) :
    usesOf [.instr (.op l.pos o)] = (names [l]).map Lexeme.spot := by
  cases o with
  | ident name =>
    obtain ⟨named, rfl⟩ := h
    rw [names_cons_of_name [] named]
    rfl
  | binary t =>
    obtain ⟨tok, o, rfl⟩ := h
    rw [names_cons_of_ne [] (by simp [tok])]
    rfl
  | _ =>
    rw [names_cons_of_ne [] (by simp_all [Op.SpelledBy])]
    rfl

/-- The names in the tokens of a part of a body are its uses, in the order of the walk. -/
theorem Spells.uses {n : Nat} {part : Part} (h : Spells n part ts) :
    usesOf part.nodes = (names ts).map Lexeme.spot := by
  induction h with
  | nil => rfl
  | cons _ _ hx hxs =>
    rw [names_append, List.map_append, ← hx, ← hxs, ← usesOf_append]
    rfl
  | plain ho => exact use_of_spelledBy ho
  | branch ho _ hm _ _ hc hb ht =>
    rw [Part.nodes, Instr.nodes, if_pos rfl, usesOf_cons _ rfl, List.append_assoc, usesOf_append,
      usesOf_append, usesOf_block, usesOf_block, hc, hb]
    rw [Part.nodes] at ht
    rw [ht, names_append, names_append, names_keyword ho, names_keyword hm, List.map_append,
      List.map_append]
  | loop ho _ hm _ he hc hb =>
    rw [Part.nodes, Instr.nodes, if_pos rfl, usesOf_cons _ rfl, usesOf_append, usesOf_block,
      usesOf_block, hc, hb, names_append, names_append, names_keyword ho, names_keyword hm,
      names_keyword he, List.map_append, List.map_append]
    exact (List.append_nil _).symm
  | close he =>
    rw [names_keyword he]
    rfl
  | otherwise ho _ he hb =>
    rw [Part.nodes, Arm.nodesList, List.nil_append, usesOf_block, hb, names_append,
      names_keyword ho, names_keyword he]
    simp [names]
  | arm ho _ hm _ _ hc hb ht =>
    rw [Part.nodes, Arm.nodesList, if_pos rfl, List.cons_append, usesOf_cons _ rfl,
      List.append_assoc, usesOf_append, usesOf_append, usesOf_block, usesOf_block, hc, hb]
    rw [Part.nodes] at ht
    rw [ht, names_append, names_append, names_keyword ho, names_keyword hm, List.map_append,
      List.map_append]

theorem usesOf_returning (closing : Pos) (xs : List Instr) :
    usesOf (Part.block (returning closing xs)).nodes = usesOf (Part.block xs).nodes := by
  rcases nodes_returning closing xs with same | added
  · rw [same]
  · rw [added, usesOf_append]
    exact List.append_nil _

theorem isDeclWord_of_tok {t : Token} (h : l.tok = t) : l.isDeclWord = (declKind? t).isSome := by
  rw [Lexeme.isDeclWord, h]

theorem not_declWord_of_spelledBy {o : Op} (h : o.SpelledBy l) : l.isDeclWord = false := by
  cases o with
  | binary t =>
    obtain ⟨tok, o, rfl⟩ := h
    exact isDeclWord_of_tok tok
  | pushInt | pushStr | load | store | syscall | ident => exact isDeclWord_of_tok h.1
  | _ => exact isDeclWord_of_tok h

/-- No declaration begins inside a body. -/
theorem Spells.not_declWord {n : Nat} {part : Part} (h : Spells n part ts) :
    ∀ l ∈ ts, l.isDeclWord = false := by
  induction h with
  | nil => simp
  | cons _ _ hx hxs => exact List.forall_mem_append.mpr ⟨hx, hxs⟩
  | plain ho => exact List.forall_mem_singleton.mpr (not_declWord_of_spelledBy ho)
  | branch ho _ hm _ _ hc hb ht =>
    simp only [List.forall_mem_append, List.forall_mem_cons]
    exact ⟨⟨⟨isDeclWord_of_tok ho, hc⟩, isDeclWord_of_tok hm, hb⟩, ht⟩
  | loop ho _ hm _ he hc hb =>
    simp only [List.forall_mem_append, List.forall_mem_cons]
    exact ⟨⟨⟨isDeclWord_of_tok ho, hc⟩, isDeclWord_of_tok hm, hb⟩, isDeclWord_of_tok he, by simp⟩
  | close he => exact List.forall_mem_singleton.mpr (isDeclWord_of_tok he)
  | otherwise ho _ he hb =>
    simp only [List.forall_mem_append, List.forall_mem_cons]
    exact ⟨⟨isDeclWord_of_tok ho, hb⟩, isDeclWord_of_tok he, by simp⟩
  | arm ho _ hm _ _ hc hb ht =>
    simp only [List.forall_mem_append, List.forall_mem_cons]
    exact ⟨⟨⟨isDeclWord_of_tok ho, hc⟩, isDeclWord_of_tok hm, hb⟩, ht⟩

/-! ### The tokens of declarations -/

/-- How the tokens of a declaration are made up: its word, its name, and others in which no
declaration begins and whose names are the uses of the declaration. -/
structure Headed (d : Decl) (word name : Lexeme) (rest : List Lexeme) : Prop where
  opens : word.isDeclWord
  plain : word.tok ≠ .name
  named : name.tok = .name
  spot : (d.name, d.namePos) = name.spot
  inside : ∀ l ∈ rest, l.isDeclWord = false
  uses : usesOf (d.nodes fun _ => true) = (names rest).map Lexeme.spot

theorem DeclText.headed {d : Decl} (h : DeclText d ts) :
    ∃ word name rest, ts = word :: name :: rest ∧ Headed d word name rest := by
  cases h with
  | @proc s word name mid closing p xs body hw hn hm hb he =>
    refine ⟨word, name, mid :: body ++ [closing], rfl, isDeclWord_of_tok hw, by simp [hw], hn, rfl,
      ?_, ?_⟩
    · simp only [List.forall_mem_append, List.forall_mem_cons]
      exact ⟨⟨isDeclWord_of_tok hm, hb.not_declWord⟩, isDeclWord_of_tok he, by simp⟩
    · rw [Decl.nodes, if_pos rfl, usesOf_cons _ rfl, Decl.body, usesOf_block, usesOf_returning,
        hb.uses, names_append, names_keyword hm, names_keyword he]
      simp [names]
  | @inline s word name closing p xs mid body hw hn hm hb he =>
    refine ⟨word, name, mid ++ body ++ [closing], rfl, isDeclWord_of_tok hw, by simp [hw], hn, rfl,
      ?_, ?_⟩
    · simp only [List.forall_mem_append, List.forall_mem_singleton]
      refine ⟨⟨?_, hb.not_declWord⟩, isDeclWord_of_tok he⟩
      rcases hm with rfl | ⟨l, hl, rfl⟩
      · simp
      · exact List.forall_mem_singleton.mpr (isDeclWord_of_tok hl)
    · have none : names mid = [] := by
        rcases hm with rfl | ⟨l, hl, rfl⟩
        · rfl
        · exact names_keyword hl
      rw [Decl.nodes, if_pos rfl, usesOf_cons _ rfl, Decl.body, usesOf_block, hb.uses,
        names_append, names_append, none, names_keyword he]
      simp [names]
  | @memory s word name size closing hw hn hs _ he =>
    refine ⟨word, name, [size, closing], rfl, isDeclWord_of_tok hw, by simp [hw], hn, rfl, ?_, ?_⟩
    · simp only [List.forall_mem_cons]
      exact ⟨isDeclWord_of_tok hs, isDeclWord_of_tok he, by simp⟩
    · rw [names_cons_of_ne _ (by simp [hs]), names_keyword he]
      rfl

namespace Headed

variable {d : Decl}

theorem guarded (h : Headed d word name rest) : Guarded (word :: name :: rest) := by
  intro l hl
  cases hl
  exact h.plain

theorem declares_iff (h : Headed d word name rest) :
    Declares (word :: name :: rest) l ↔ l = name := by
  constructor
  · rintro ⟨w, _, opens, pair⟩
    rcases List.infix_cons_iff.mp pair with first | later
    · obtain ⟨rfl, rfl⟩ : w = word ∧ l = name := by simpa using first
      rfl
    · have unmarked : w.isDeclWord = false := by
        have member : w ∈ name :: rest := later.subset (by simp)
        rcases List.mem_cons.mp member with rfl | hw
        · exact isDeclWord_of_tok h.named
        · exact h.inside w hw
      rw [opens] at unmarked
      cases unmarked
  · rintro rfl
    exact ⟨word, by simp, h.opens, (List.prefix_append [word, l] rest).isInfix⟩

theorem declared_eq (h : Headed d word name rest) (distinct : (word :: name :: rest).Nodup) :
    declared (word :: name :: rest) = [name] := by
  have once : name ∉ rest := (List.nodup_cons.mp (List.nodup_cons.mp distinct).2).1
  unfold declared
  rw [names_cons_of_ne _ h.plain, names_cons_of_name _ h.named,
    List.filter_cons_of_pos (by simp [h.declares_iff])]
  congr 1
  refine List.filter_eq_nil_iff.mpr ?_
  intro l hl same
  rw [decide_eq_true_eq, h.declares_iff] at same
  exact once (same ▸ (mem_names.mp hl).1)

theorem used_eq (h : Headed d word name rest) (distinct : (word :: name :: rest).Nodup) :
    used (word :: name :: rest) = names rest := by
  have once : name ∉ rest := (List.nodup_cons.mp (List.nodup_cons.mp distinct).2).1
  unfold used
  rw [names_cons_of_ne _ h.plain, names_cons_of_name _ h.named,
    List.filter_cons_of_neg (by simp [h.declares_iff])]
  refine List.filter_eq_self.mpr ?_
  intro l hl
  have other : l ≠ name := by
    rintro rfl
    exact once (mem_names.mp hl).1
  simpa [h.declares_iff] using other

end Headed

/-- Declared names are those of the declarations, and the others are the uses, each in order. -/
theorem DeclsText.occurrences {ds : List Decl} (h : DeclsText ds ts) (distinct : ts.Nodup) :
    ds.map (fun d => (d.name, d.namePos)) = (declared ts).map Lexeme.spot ∧
      usesOf (ds.flatMap (Decl.nodes fun _ => true)) = (used ts).map Lexeme.spot := by
  induction h with
  | nil => exact ⟨rfl, rfl⟩
  | snoc _ hd ih =>
    obtain ⟨word, name, rest, rfl, headed⟩ := hd.headed
    obtain ⟨before, own, _⟩ := List.nodup_append.mp distinct
    obtain ⟨heads, uses⟩ := ih before
    rw [declared_append headed.guarded distinct, used_append headed.guarded distinct,
      headed.declared_eq own, headed.used_eq own, List.map_append, List.map_append,
      List.flatMap_append, usesOf_append, heads, uses, List.flatMap_singleton, headed.uses,
      List.map_append]
    exact ⟨congrArg _ (congrArg (fun s => [s]) headed.spot), rfl⟩

end Source

end StackLang
