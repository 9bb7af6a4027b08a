import StackLang.Proofs.Source.Acceptance
/-!
Where the parser stops. A fault is settled by the tokens up to the one at which it is raised, and
the declarations that are complete before the one that is being read stay as they are.
-/

namespace StackLang.Source

/-! ### Declarations cut short -/

/-- The beginning of a declaration, of which something is still missing. -/
def Begun (ts : List Lexeme) : Prop :=
  ∃ d rest, rest ≠ [] ∧ DeclText d (ts ++ rest)

/-- A word without a place of its own. -/
def wordToken (k : Keyword) : Lexeme :=
  { tok := .keyword k, pos := default }

/-- A construct is completed by the closing word, after a condition by an empty body as well. -/
theorem Frame.Reads.completed {n : Nat} {frame : Frame} {xs : List Instr} {ts us : List Lexeme}
    (h : frame.Reads n ts) (hxs : Spells n (.block xs) us) :
    ∃ x rest, Spells (n + 1) (.instr x) (ts ++ us ++ rest) := by
  have closed {frame : Frame} {xs : List Instr} {ts us : List Lexeme} {x : Instr}
      (h : frame.Reads n ts) (hxs : Spells n (.block xs) us)
      (hc : closing? frame (.mk default xs) default .endWord = some (.done x)) :
      Spells (n + 1) (.instr x) (ts ++ us ++ [wordToken .endWord]) :=
    h.done hxs rfl hc
  have opened {next : Frame}
      (hc : closing? frame (.mk default xs) default .doWord = some (.reopen next)) :
      next.Reads n (ts ++ us ++ [wordToken .doWord]) :=
    h.reopen hxs rfl hc
  cases frame with
  | ifBody | elifBody | elseBody | whileBody => exact ⟨_, _, closed h hxs rfl⟩
  | ifCondition | elifCondition | whileCondition =>
    have done := closed (opened rfl) .nil rfl
    rw [List.append_nil, List.append_assoc] at done
    exact ⟨_, _, done⟩

/-- The open constructs of a body can be closed one after another, from the inside out. -/
theorem Within.completed {n : Nat} {levels : List Level} {block : OpenBlock} {ts : List Lexeme}
    (h : Within n levels block ts) :
    ∃ xs rest, Spells maxNesting (.block xs) (ts ++ rest) := by
  induction levels generalizing n block ts with
  | nil =>
    cases h with
    | root hb => exact ⟨_, [], by simpa using hb⟩
  | cons level levels ih =>
    cases h with
    | nest ho hf hb =>
      obtain ⟨x, rest, hx⟩ := hf.completed hb
      obtain ⟨xs, more, hxs⟩ := ih (ho.push hx)
      exact ⟨xs, rest ++ more, by simpa using hxs⟩

theorem Head.Opens.completed {head : Head} {xs : List Instr} {ts us : List Lexeme}
    (h : head.Opens ts) (hb : Spells maxNesting (.block xs) us) :
    ∃ d, DeclText d (ts ++ us ++ [wordToken .endWord]) := by
  cases h with
  | proc hw hn hm => exact ⟨_, .proc (s := 0) (p := default) hw hn hm hb rfl⟩
  | inline hw hn hm => exact ⟨_, .inline (s := 0) (p := default) hw hn hm hb rfl⟩

theorem begun_of_named {kind : DeclKind} {word name : Lexeme}
    (hw : declKind? word.tok = some kind) (hn : name.tok = .name) : Begun [word, name] := by
  have hw := declKind?_eq_some_iff.mp hw
  have closing : (wordToken .endWord).tok = .keyword .endWord := rfl
  have between : (wordToken .doWord).tok = .keyword .doWord := rfl
  cases kind with
  | proc =>
    have text := DeclText.proc (s := 0) (p := default) hw hn between .nil closing
    exact ⟨_, [wordToken .doWord, wordToken .endWord], by simp, text⟩
  | inline =>
    have text := DeclText.inline (s := 0) (p := default) hw hn (.inl rfl) .nil closing
    exact ⟨_, [wordToken .endWord], by simp, text⟩
  | memory =>
    let size : Lexeme := { tok := .int, pos := default, value := 1 }
    have isInt : size.tok = .int := rfl
    have text := DeclText.memory (s := 0) hw hn isInt (by decide) closing
    exact ⟨_, [size, wordToken .endWord], by simp, text⟩

/-- What the parser is in the middle of can be completed. -/
theorem Phase.Reads.begun {phase : Phase} {ts : List Lexeme} (h : phase.Reads ts) (hne : ts ≠ []) :
    Begun ts := by
  cases h with
  | top => exact absurd rfl hne
  | name hw =>
    let name : Lexeme := { tok := .name, pos := default }
    have isName : name.tok = .name := rfl
    obtain ⟨d, rest, _, text⟩ := begun_of_named hw isName
    exact ⟨d, name :: rest, by simp, text⟩
  | named hw hn => exact begun_of_named hw hn
  | sized hw hn hi hv =>
    exact ⟨_, [wordToken .endWord], by simp, .memory (s := 0) hw hn hi hv rfl⟩
  | body hh hb =>
    obtain ⟨xs, rest, hxs⟩ := hb.completed
    obtain ⟨d, text⟩ := hh.completed hxs
    exact ⟨d, rest ++ [wordToken .endWord], by simp, by simpa using text⟩

/-! ### Where the declaration that is being read begins -/

/-- The tokens `us` are those of finished declarations, and `vs` those of the one begun. -/
structure State.Since (file : String) (s : State) (us vs : List Lexeme) : Prop where
  finished : us.foldlM step ⟨{ file }, .top⟩ = .ok ⟨s.program, .top⟩
  begun : s.phase.Reads vs
  taken : vs.foldlM step ⟨s.program, .top⟩ = .ok s

theorem foldlM_step_concat {s s' s'' : State} {ts : List Lexeme} {l : Lexeme}
    (hts : ts.foldlM step s = .ok s') (hl : step s' l = .ok s'') :
    (ts ++ [l]).foldlM step s = .ok s'' := by
  rw [List.foldlM_append, hts]
  change step s' l >>= _ = _
  rw [hl]
  rfl

/-- A token belongs to the declaration begun, or is the last one of it. -/
theorem State.Since.step {file : String} {s s' : State} {us vs : List Lexeme} {l : Lexeme}
    (h : s.Since file us vs) (hl : step s l = .ok s') :
    ∃ us' vs', us' ++ vs' = us ++ vs ++ [l] ∧ s'.Since file us' vs' := by
  have taken := foldlM_step_concat h.taken hl
  cases step_advances h.begun hl with
  | further hv => exact ⟨us, vs ++ [l], by simp, h.finished, hv, taken⟩
  | complete free text =>
    refine ⟨us ++ (vs ++ [l]), [], by simp, ?_, .top, rfl⟩
    rw [List.foldlM_append, h.finished]
    exact taken

theorem steps_since {file : String} {s s' : State} {us vs ts : List Lexeme}
    (h : s.Since file us vs) (hts : ts.foldlM step s = .ok s') :
    ∃ us' vs', us' ++ vs' = us ++ vs ++ ts ∧ s'.Since file us' vs' := by
  induction ts generalizing s us vs with
  | nil =>
    cases hts
    exact ⟨us, vs, by simp, h⟩
  | cons l ts ih =>
    rw [List.foldlM_cons] at hts
    obtain ⟨next, hl, hts⟩ := bind_eq_ok.mp hts
    obtain ⟨us', vs', same, since⟩ := h.step hl
    obtain ⟨us'', vs'', same', since'⟩ := ih since hts
    exact ⟨us'', vs'', by rw [same', same, List.append_assoc, List.singleton_append], since'⟩

theorem since_start (file : String) : State.Since file ⟨{ file }, .top⟩ [] [] :=
  ⟨rfl, .top, rfl⟩

/-! ### The token at which a fault is raised -/

/-- The name of the declaration begun, once it is read, is free. -/
theorem free_of_taken {p : Program} {s : State} {word name : Lexeme} {rest : List Lexeme}
    (h : (word :: name :: rest).foldlM step ⟨p, .top⟩ = .ok s) : p.lookup name.lit = none := by
  rw [List.foldlM_cons] at h
  obtain ⟨s₁, h₁, h⟩ := bind_eq_ok.mp h
  rw [List.foldlM_cons] at h
  obtain ⟨s₂, h₂, _⟩ := bind_eq_ok.mp h
  simp only [step] at h₁
  split at h₁
  next kind _ =>
    cases h₁
    simp only [step, Program.nameTaken?] at h₂
    split at h₂
    next =>
      split at h₂
      next => cases h₂
      next free => exact Option.map_eq_none_iff.mp free
    next => cases h₂
  next => split at h₁ <;> cases h₁

theorem Head.Opens.name_eq {head : Head} {ts : List Lexeme} (h : head.Opens ts) :
    ∃ word name rest, ts = word :: name :: rest ∧ head.name = name.lit := by
  cases h with
  | proc => exact ⟨_, _, _, rfl, rfl⟩
  | inline => exact ⟨_, _, _, rfl, rfl⟩

theorem name_finishRoutine (head : Head) (body : Block) (pos : Pos) :
    (finishRoutine head body pos).name = head.name := by
  unfold finishRoutine
  split <;> rfl

/-- Errors of the grammar, at a token. -/
def Error.AtToken (e : Error) (l : Lexeme) : Prop :=
  e.pos = l.pos ∧ e.cause.kind ≠ .duplicate

theorem enter_fails {head : Head} {levels : List Level} {block : OpenBlock} {l : Lexeme} {e : Error}
    (h : enter head levels block l = .error e) : e.AtToken l := by
  unfold enter at h
  split at h
  next => cases h
  next =>
    dsimp only at h
    repeat' split at h
    all_goals cases h
    all_goals exact ⟨rfl, by simp [Cause.kind]⟩

theorem stepBody_fails {p : Program} {head : Head} {levels : List Level} {block : OpenBlock}
    {l : Lexeme} {e : Error} (free : p.lookup head.name = none)
    (h : stepBody p head levels block l = .error e) : e.AtToken l := by
  have entered {levels : List Level} {block : OpenBlock}
      (h : (enter head levels block l).map (State.mk p) = .error e) : e.AtToken l := by
    cases he : enter head levels block l with
    | ok phase => simp [he, Except.map] at h
    | error e' =>
      simp only [he, Except.map, Except.error.injEq] at h
      exact h ▸ enter_fails he
  unfold stepBody at h
  dsimp only at h
  split at h
  next =>
    rw [declare_of_free (by rwa [name_finishRoutine])] at h
    cases h
  next =>
    split at h
    next => cases h
    next => cases h
    next => exact entered h
  next => exact entered h

theorem stepNamed_fails {p : Program} {head : Head} {l : Lexeme} {e : Error}
    (free : p.lookup head.name = none) (h : stepNamed p head l = .error e) : e.AtToken l := by
  unfold stepNamed at h
  split at h
  next =>
    split at h <;> cases h
    exact ⟨rfl, by simp [Cause.kind]⟩
  next =>
    split at h
    next => cases h
    next => exact stepBody_fails free h
  next =>
    split at h <;> cases h
    exact ⟨rfl, by simp [Cause.kind]⟩

/-- A redeclaration is found at the name, just after the word that begins it. -/
def Error.Redeclares (e : Error) (p : Program) (vs : List Lexeme) (l : Lexeme) : Prop :=
  ∃ word d, vs = [word] ∧ l.tok = .name ∧ d ∈ p.decls ∧ d.name = l.lit ∧
    e = ⟨word.pos, .redeclared l.lit d.pos⟩

theorem step_fails {p : Program} {phase : Phase} {l : Lexeme} {e : Error} {vs : List Lexeme}
    (hp : p.Coherent) (hv : phase.Reads vs)
    (taken : vs.foldlM step ⟨p, .top⟩ = .ok ⟨p, phase⟩) (h : step ⟨p, phase⟩ l = .error e) :
    e.AtToken l ∨ e.Redeclares p vs l := by
  unfold step at h
  cases hv with
  | top =>
    refine .inl ?_
    dsimp only at h
    split at h
    next => cases h
    next => split at h <;> cases h <;> exact ⟨rfl, by simp [Cause.kind]⟩
  | @name kind word hw =>
    dsimp only at h
    split at h
    next hn =>
      split at h <;> cases h
      next found =>
        obtain ⟨d, hd, rfl⟩ := Option.map_eq_some_iff.mp found
        obtain ⟨listed, same⟩ := hp.mem_of_lookup hd
        exact .inr ⟨word, d, rfl, hn, listed, same, rfl⟩
    next =>
      cases h
      exact .inl ⟨rfl, by simp [Cause.kind]⟩
  | named hw hn => exact .inl (stepNamed_fails (free_of_taken taken) h)
  | @sized word name size hw hn hi hv =>
    refine .inl ?_
    dsimp only at h
    split at h
    next =>
      rw [declare_of_free (free_of_taken taken)] at h
      cases h
    next =>
      cases h
      exact ⟨rfl, by simp [Cause.kind]⟩
  | body hh hw =>
    obtain ⟨word, name, rest, rfl, same⟩ := hh.name_eq
    have free : p.lookup name.lit = none := free_of_taken taken
    exact .inl (stepBody_fails (same ▸ free) h)

theorem finish?_fails {s : State} {l : Lexeme} {e : Error} (h : finish? s l = some e) :
    e.AtToken l := by
  unfold finish? at h
  repeat' split at h
  all_goals cases h
  all_goals exact ⟨rfl, by simp [Cause.kind]⟩

/-! ### A whole run -/

/-- The parser cannot go on at a token, which may be the end of the file. -/
def State.Stops (s : State) (l : Lexeme) (e : Error) : Prop :=
  l.tok = .eof ∧ finish? s l = some e ∨ l.tok ≠ .eof ∧ step s l = .error e

theorem State.Stops.run_eq {s : State} {l : Lexeme} {e : Error} (h : s.Stops l e) (last : Lexeme)
    (rest : List Lexeme) : run last s (l :: rest) = ⟨s.program, some e⟩ := by
  rcases h with ⟨hl, hf⟩ | ⟨hl, hs⟩
  · rw [run, if_pos hl, hf]
  · rw [run, if_neg hl, hs]

theorem run_append {ts : List Lexeme} {s s' : State} (plain : ∀ t ∈ ts, t.tok ≠ .eof)
    (h : ts.foldlM step s = .ok s') (last : Lexeme) (rest : List Lexeme) :
    run last s (ts ++ rest) = run last s' rest := by
  induction ts generalizing s with
  | nil =>
    cases h
    rfl
  | cons l ts ih =>
    obtain ⟨hl, plain⟩ := List.forall_mem_cons.mp plain
    rw [List.foldlM_cons] at h
    obtain ⟨next, hs, h⟩ := bind_eq_ok.mp h
    rw [List.cons_append, run, if_neg hl, hs]
    exact ih plain h

/-- A run over tokens that hold an end of file either meets no fault or stops at one of them. -/
theorem run_stops {last : Lexeme} {tokens : List Lexeme} {s : State} {e : Error}
    (ended : ∃ l ∈ tokens, l.tok = .eof) (h : (run last s tokens).fault = some e) :
    ∃ ts l rest s', tokens = ts ++ l :: rest ∧ (∀ t ∈ ts, t.tok ≠ .eof) ∧
      ts.foldlM step s = .ok s' ∧ s'.Stops l e := by
  induction tokens generalizing s with
  | nil => simp at ended
  | cons l rest ih =>
    by_cases hl : l.tok = .eof
    · rw [run, if_pos hl] at h
      exact ⟨[], l, rest, s, rfl, by simp, rfl, .inl ⟨hl, h⟩⟩
    · rw [run, if_neg hl] at h
      cases hs : step s l with
      | error e' =>
        rw [hs] at h
        cases h
        exact ⟨[], l, rest, s, rfl, by simp, rfl, .inr ⟨hl, hs⟩⟩
      | ok next =>
        rw [hs] at h
        have later : ∃ t ∈ rest, t.tok = .eof := by simpa [hl] using ended
        obtain ⟨ts, l', rest', s', rfl, plain, taken, stops⟩ := ih later h
        refine ⟨l :: ts, l', rest', s', rfl, List.forall_mem_cons.mpr ⟨hl, plain⟩, ?_, stops⟩
        rw [List.foldlM_cons, hs]
        exact taken

theorem State.Stops.cases {file : String} {s : State} {l : Lexeme} {e : Error}
    {us vs : List Lexeme} (since : s.Since file us vs) (h : s.Stops l e) :
    e.AtToken l ∨ e.Redeclares s.program vs l := by
  rcases h with ⟨_, hf⟩ | ⟨_, hs⟩
  · exact .inl (finish?_fails hf)
  · have coherent := (reads_top (steps_read (initial_reads file) since.finished)).1
    exact step_fails coherent since.begun since.taken hs

/-- A token that begins no declaration. -/
def Stray (l : Lexeme) : Prop :=
  l.tok ≠ .eof ∧ declKind? l.tok = none

theorem State.Stops.stray {s : State} {l : Lexeme} {e : Error} (h : s.Stops l e)
    (begun : s.phase.Reads []) (other : e.cause.kind ≠ .noEntry) : Stray l := by
  obtain ⟨p, phase⟩ := s
  have top : phase = .top := by
    generalize hn : ([] : List Lexeme) = none at begun
    cases begun with
    | top => rfl
    | name | named | sized => cases hn
    | body hh _ => cases hh <;> cases hn
  subst top
  rcases h with ⟨_, hf⟩ | ⟨hl, hs⟩
  · simp only [finish?] at hf
    split at hf <;> cases hf
    exact absurd rfl other
  · refine ⟨hl, ?_⟩
    simp only [step] at hs
    split at hs
    next => cases hs
    next none => exact none

theorem DeclsText.returns {ds : List Decl} {ts : List Lexeme} (h : DeclsText ds ts) {r : Routine}
    (hr : .proc r ∈ ds) : r.body.lastIsReturn := by
  induction h with
  | nil => cases hr
  | snoc _ hd ih =>
    rcases List.mem_append.mp hr with hr | hr
    · exact ih hr
    · rw [List.mem_singleton] at hr
      subst hr
      cases hd
      exact returning_last _ _

/-- The token at which an error is raised. It is at the place of the error, except that a name which
is taken comes just after the word at the place of the error. -/
def Error.RaisedAt (e : Error) (tokens : List Lexeme) (i : Nat) : Prop :=
  ∃ l, tokens[i]? = some l ∧ match e.cause with
    | .redeclared name _ => l.tok = .name ∧ l.lit = name ∧
        ∃ word, tokens[i - 1]? = some word ∧ word.pos = e.pos
    | _ => l.pos = e.pos

theorem raisedAt_of_cases {e : Error} {p : Program} {l : Lexeme} {us vs rest : List Lexeme}
    (h : e.AtToken l ∨ e.Redeclares p vs l) :
    e.RaisedAt (us ++ vs ++ l :: rest) (us ++ vs).length := by
  refine ⟨l, by simp, ?_⟩
  rcases h with ⟨hp, hk⟩ | ⟨word, d, rfl, hl, _, _, rfl⟩
  · split
    next hc => simp [hc, Cause.kind] at hk
    next => exact hp.symm
  · exact ⟨hl, rfl, word, by simp, rfl⟩

/-- How parsing stops with an error: it is raised at the token of index `i`, inside the declaration
or at the stray token that begins at index `j`. -/
structure Stopped (file : String) (tokens : List Lexeme) (p : Program) (e : Error) (i j : Nat) :
    Prop where
  raised : e.RaisedAt tokens i
  settled : ∀ other : List Lexeme, other.take (i + 1) = tokens.take (i + 1) →
    parseTokens file other = ⟨p, some e⟩
  inside : (j = i ∧ ∃ l, tokens[i]? = some l ∧ Stray l) ∨
    (j < i ∧ Begun ((tokens.take i).drop j))
  complete : DeclsText p.decls (tokens.take j)
  alone : ∃ fault, parseTokens file (tokens.take j) = ⟨p, fault⟩ ∧
    ∀ e' ∈ fault, e'.cause = .noEntry
  coherent : p.Coherent
  returns : ∀ r, .proc r ∈ p.decls → r.body.lastIsReturn

theorem parseTokens_finished {file : String} {p : Program} {us : List Lexeme}
    (plain : ∀ t ∈ us, t.tok ≠ .eof) (h : us.foldlM step ⟨{ file }, .top⟩ = .ok ⟨p, .top⟩) :
    ∃ fault, parseTokens file us = ⟨p, fault⟩ ∧ ∀ e ∈ fault, e.cause = .noEntry := by
  have whole := run_append plain h (impliedEnd file us) []
  rw [List.append_nil] at whole
  refine ⟨_, whole, ?_⟩
  intro e he
  simp only [finish?] at he
  split at he <;> cases he
  rfl

/-- A parse that fails for another reason than a missing entry point is settled by the tokens up to
the one at which the error is raised, and keeps exactly the declarations that are complete before
the one it is in the middle of. -/
theorem parse_settled_by_beginning {file : String} {tokens : List Lexeme} {e : Error}
    (ends : ∃ l, tokens.getLast? = some l ∧ l.tok = .eof)
    (fails : (parseTokens file tokens).fault = some e) (other : e.cause.kind ≠ .noEntry) :
    ∃ i j, Stopped file tokens (parseTokens file tokens).program e i j := by
  obtain ⟨final, hf, eof⟩ := ends
  obtain ⟨ts, l, rest, s, rfl, plain, taken, stops⟩ :=
    run_stops ⟨final, List.mem_of_getLast? hf, eof⟩ fails
  obtain ⟨us, vs, same, since⟩ := steps_since (since_start file) taken
  have same : ts = us ++ vs := by simpa using same.symm
  subst same
  have settles (after : List Lexeme) :
      parseTokens file (us ++ vs ++ l :: after) = ⟨s.program, some e⟩ := by
    unfold parseTokens
    rw [run_append plain taken]
    exact stops.run_eq _ _
  obtain ⟨coherent, complete⟩ := reads_top (steps_read (initial_reads file) since.finished)
  have plain' : ∀ t ∈ us, t.tok ≠ .eof := fun t ht => plain t (List.mem_append_left _ ht)
  have beginning : (us ++ vs ++ l :: rest).take us.length = us := by simp
  rw [settles rest]
  refine ⟨(us ++ vs).length, us.length, ⟨?_, ?_, ?_, ?_, ?_, coherent, ?_⟩⟩
  · exact raisedAt_of_cases (stops.cases since)
  · intro list agrees
    have agrees : list.take ((us ++ vs).length + 1) = us ++ vs ++ [l] := by
      rw [agrees, List.take_append, List.take_of_length_le (Nat.le_succ _)]
      simp
    rw [← List.take_append_drop ((us ++ vs).length + 1) list, agrees, List.append_assoc,
      List.singleton_append]
    exact settles _
  · by_cases hv : vs = []
    · subst hv
      exact .inl ⟨by simp, l, by simp, stops.stray since.begun other⟩
    · have longer : 0 < vs.length := List.length_pos_iff.mpr hv
      refine .inr ⟨by rw [List.length_append]; omega, ?_⟩
      rw [List.take_left, List.drop_left]
      exact since.begun.begun hv
  · rw [beginning]
    exact complete
  · rw [beginning]
    exact parseTokens_finished plain' since.finished
  · intro r hr
    exact complete.returns hr

/-- A procedure, and a memory region of the same name whose size is missing. -/
def twice : List Lexeme :=
  [{ tok := .keyword .procWord, pos := ⟨"f", 1, 1⟩ },
   { tok := .name, pos := ⟨"f", 1, 6⟩, lit := "a" },
   { tok := .keyword .doWord, pos := ⟨"f", 1, 8⟩ },
   { tok := .keyword .endWord, pos := ⟨"f", 1, 11⟩ },
   { tok := .keyword .memoryWord, pos := ⟨"f", 2, 1⟩ },
   { tok := .name, pos := ⟨"f", 2, 8⟩, lit := "a" },
   { tok := .keyword .endWord, pos := ⟨"f", 2, 10⟩ }, { tok := .eof, pos := ⟨"f", 2, 13⟩ }]

theorem twice_settled :
    (parseTokens "f" twice).program.decls.map Decl.name = ["a"] ∧
      ∃ i j, Stopped "f" twice (parseTokens "f" twice).program
        ⟨⟨"f", 2, 1⟩, .redeclared "a" ⟨"f", 1, 1⟩⟩ i j := by
  have fails : (parseTokens "f" twice).fault =
      some ⟨⟨"f", 2, 1⟩, .redeclared "a" ⟨"f", 1, 1⟩⟩ := by rfl
  exact ⟨by rfl, parse_settled_by_beginning ⟨_, rfl, rfl⟩ fails (by decide)⟩

end StackLang.Source
