import StackLang.Proofs.Source.Reading
/-!
The parser accepts exactly the programs of the grammar: it takes every token of a program, and it
reads nothing else.
-/

namespace StackLang.Source

/-- The words that close a block or divide two blocks of one construct. -/
def structuralWords : List Keyword :=
  [.doWord, .elifWord, .elseWord, .endWord]

theorem closing?_eq_none {frame : Frame} {block : Block} {pos : Pos} {k : Keyword}
    (h : k ∉ structuralWords) : closing? frame block pos k = none := by
  unfold closing?
  split <;> first | rfl | exact absurd (by decide) h

theorem step_body (p : Program) (head : Head) (levels : List Level) (block : OpenBlock)
    (l : Lexeme) :
    step ⟨p, .body head levels block⟩ l = stepBody p head levels block l := rfl

theorem stepBody_eq_enter {l : Lexeme} (h : ∀ k ∈ structuralWords, l.tok ≠ .keyword k)
    (p : Program) (head : Head) (levels : List Level) (block : OpenBlock) :
    stepBody p head levels block l =
      (enter head levels (block.settle l.pos) l).map (⟨p, ·⟩) := by
  unfold stepBody
  dsimp only
  split
  next hl => exact absurd hl (h .endWord (by decide))
  next frame outer levels' k hl =>
    have hk : k ∉ structuralWords := fun hk => h k hk hl
    rw [closing?_eq_none hk]
  next => rfl

/-- The tokens lead from the phase to some open block inside the given constructs. -/
def Leads (p : Program) (phase : Phase) (ts : List Lexeme) (head : Head) (levels : List Level) :
    Prop :=
  ∃ block, ts.foldlM step ⟨p, phase⟩ = .ok ⟨p, .body head levels block⟩

theorem Leads.nil {p : Program} {head : Head} {levels : List Level} {block : OpenBlock} :
    Leads p (.body head levels block) [] head levels :=
  ⟨block, rfl⟩

theorem Leads.cons {p : Program} {phase next : Phase} {l : Lexeme} {ts : List Lexeme} {head : Head}
    {levels : List Level} (hl : step ⟨p, phase⟩ l = .ok ⟨p, next⟩)
    (h : Leads p next ts head levels) : Leads p phase (l :: ts) head levels := by
  obtain ⟨block, h⟩ := h
  refine ⟨block, ?_⟩
  rw [List.foldlM_cons, hl]
  exact h

theorem Leads.append {p : Program} {phase : Phase} {ts us : List Lexeme} {head head' : Head}
    {levels levels' : List Level} (ht : Leads p phase ts head levels)
    (hu : ∀ block, Leads p (.body head levels block) us head' levels') :
    Leads p phase (ts ++ us) head' levels' := by
  obtain ⟨block, ht⟩ := ht
  obtain ⟨block', hu⟩ := hu block
  refine ⟨block', ?_⟩
  rw [List.foldlM_append, ht]
  exact hu

theorem leads_plain {o : Op} {l : Lexeme} (h : o.SpelledBy l) (p : Program) (head : Head)
    (levels : List Level) (block : OpenBlock) :
    Leads p (.body head levels block) [l] head levels := by
  have plain := plainOp?_eq_some_iff.mpr h
  have free : ∀ k ∈ structuralWords, l.tok ≠ .keyword k := by
    intro k hk hl
    simp only [structuralWords, List.mem_cons, List.not_mem_nil, or_false] at hk
    rcases hk with rfl | rfl | rfl | rfl <;> simp [plainOp?, hl] at plain
  refine ⟨(block.settle l.pos).push (.op l.pos o), ?_⟩
  rw [List.foldlM_cons, step_body, stepBody_eq_enter free, enter, plain]
  rfl

theorem step_if {l : Lexeme} (hl : l.tok = .keyword .ifWord) {levels : List Level}
    (room : levels.length < maxNesting) (p : Program) (head : Head) (block : OpenBlock) :
    step ⟨p, .body head levels block⟩ l =
      .ok ⟨p, .body head (⟨.ifCondition l.pos, block.settle l.pos⟩ :: levels) {}⟩ := by
  rw [step_body, stepBody_eq_enter (by rw [hl]; decide), enter]
  simp [plainOp?, hl, room, Except.map]

theorem step_while {l : Lexeme} (hl : l.tok = .keyword .whileWord) {levels : List Level}
    (room : levels.length < maxNesting) (p : Program) (head : Head) (block : OpenBlock) :
    step ⟨p, .body head levels block⟩ l =
      .ok ⟨p, .body head (⟨.whileCondition l.pos, block.settle l.pos⟩ :: levels) {}⟩ := by
  rw [step_body, stepBody_eq_enter (by rw [hl]; decide), enter]
  simp [plainOp?, hl, room, Except.map]

theorem step_reopen {l : Lexeme} {k : Keyword} {frame next : Frame} {block : OpenBlock}
    (hl : l.tok = .keyword k)
    (h : closing? frame (block.settle l.pos).close l.pos k = some (.reopen next)) (p : Program)
    (head : Head) (outer : OpenBlock) (levels : List Level) :
    step ⟨p, .body head (⟨frame, outer⟩ :: levels) block⟩ l =
      .ok ⟨p, .body head (⟨next, outer⟩ :: levels) {}⟩ := by
  simp [step_body, stepBody, hl, h]

theorem step_done {l : Lexeme} {k : Keyword} {frame : Frame} {block : OpenBlock} {x : Instr}
    (hl : l.tok = .keyword k)
    (h : closing? frame (block.settle l.pos).close l.pos k = some (.done x)) (p : Program)
    (head : Head) (outer : OpenBlock) (levels : List Level) :
    step ⟨p, .body head (⟨frame, outer⟩ :: levels) block⟩ l =
      .ok ⟨p, .body head levels (outer.push x)⟩ := by
  simp [step_body, stepBody, hl, h]

/-- Frames whose open block is the body of an arm, after which the tail of a conditional stands. -/
inductive Frame.InArm : Frame → Prop
  | first {pos : Pos} {cond : Block} : InArm (.ifBody pos cond)
  | further {head : Branch} {pos : Pos} {cond : Block} : InArm (.elifBody head pos cond)

theorem Frame.InArm.end {frame : Frame} (h : frame.InArm) (block : Block) (pos : Pos) :
    ∃ x, closing? frame block pos .endWord = some (.done x) := by
  cases h <;> exact ⟨_, rfl⟩

theorem Frame.InArm.else {frame : Frame} (h : frame.InArm) (block : Block) (pos : Pos) :
    ∃ head, closing? frame block pos .elseWord = some (.reopen (.elseBody head)) := by
  cases h <;> exact ⟨_, rfl⟩

theorem Frame.InArm.elif {frame : Frame} (h : frame.InArm) (block : Block) (pos : Pos) :
    ∃ head, closing? frame block pos .elifWord = some (.reopen (.elifCondition head pos)) := by
  cases h <;> exact ⟨_, rfl⟩

/-- What the parser does on the tokens of a part: it comes out at the level at which it went in,
or, for the tail of a conditional, at the level around the conditional. -/
def Part.Taken (p : Program) (n : Nat) (ts : List Lexeme) : Part → Prop
  | .block _ | .instr _ => ∀ head levels block, levels.length + n ≤ maxNesting →
      Leads p (.body head levels block) ts head levels
  | .tail _ _ => ∀ head levels frame outer block, frame.InArm → levels.length + n < maxNesting →
      Leads p (.body head (⟨frame, outer⟩ :: levels) block) ts head levels

theorem Spells.taken {n : Nat} {part : Part} {ts : List Lexeme} (h : Spells n part ts)
    (p : Program) : part.Taken p n ts := by
  induction h with
  | nil =>
    intro head levels block _
    exact .nil
  | cons _ _ hx hxs =>
    intro head levels block room
    exact (hx head levels block room).append fun block => hxs head levels block room
  | plain ho =>
    intro head levels block _
    exact leads_plain ho p head levels block
  | branch hl _ hm _ _ hc hb ht =>
    intro head levels block room
    rw [List.append_assoc]
    refine .cons (step_if hl (by omega) p head block) ?_
    refine (hc head (_ :: levels) _ (by rw [List.length_cons]; omega)).append fun block => ?_
    refine .cons (step_reopen hm rfl p head _ levels) ?_
    refine (hb head (_ :: levels) _ (by rw [List.length_cons]; omega)).append fun block => ?_
    exact ht head levels _ _ _ .first (by omega)
  | loop hl _ hm _ he hc hb =>
    intro head levels block room
    rw [List.append_assoc]
    refine .cons (step_while hl (by omega) p head block) ?_
    refine (hc head (_ :: levels) _ (by rw [List.length_cons]; omega)).append fun block => ?_
    refine .cons (step_reopen hm rfl p head _ levels) ?_
    refine (hb head (_ :: levels) _ (by rw [List.length_cons]; omega)).append fun block => ?_
    exact .cons (step_done he rfl p head _ levels) .nil
  | close he =>
    intro head levels frame outer block arm _
    obtain ⟨x, hx⟩ := arm.end _ _
    exact .cons (step_done he hx p head outer levels) .nil
  | otherwise hl _ he hb =>
    intro head levels frame outer block arm room
    obtain ⟨branch, hx⟩ := arm.else _ _
    refine .cons (step_reopen hl hx p head outer levels) ?_
    refine (hb head (_ :: levels) _ (by rw [List.length_cons]; omega)).append fun block => ?_
    exact .cons (step_done he rfl p head outer levels) .nil
  | arm hl _ hm _ _ hc hb ht =>
    intro head levels frame outer block arm room
    obtain ⟨branch, hx⟩ := arm.elif _ _
    rw [List.append_assoc]
    refine .cons (step_reopen hl hx p head outer levels) ?_
    refine (hc head (_ :: levels) _ (by rw [List.length_cons]; omega)).append fun block => ?_
    refine .cons (step_reopen hm rfl p head outer levels) ?_
    refine (hb head (_ :: levels) _ (by rw [List.length_cons]; omega)).append fun block => ?_
    exact ht head levels _ outer _ .further room

/-- What a declaration's first two tokens say. -/
def heading : Decl → DeclKind × String
  | .proc r => (.proc, r.name)
  | .inline r => (.inline, r.name)
  | .memory m => (.memory, m.name)

@[simp] theorem heading_snd (d : Decl) : (heading d).2 = d.name := by
  cases d <;> rfl

@[simp] theorem heading_withSerial (d : Decl) (n : Nat) : heading (d.withSerial n) = heading d := by
  cases d <;> rfl

theorem exists_proc_iff {ds : List Decl} {name : String} :
    (∃ r, .proc r ∈ ds ∧ r.name = name) ↔ (.proc, name) ∈ ds.map heading := by
  rw [List.mem_map]
  constructor
  · rintro ⟨r, hr, rfl⟩
    exact ⟨_, hr, rfl⟩
  · rintro ⟨d, hd, h⟩
    cases d <;> cases h
    exact ⟨_, hd, rfl⟩

theorem heading_finishRoutine {head : Head} {ts : List Lexeme} (h : head.Opens ts) (body : Block)
    (pos : Pos) : heading (finishRoutine head body pos) = (head.kind, head.name) := by
  cases h <;> rfl

theorem declare_of_free {p : Program} {d : Decl} (h : p.lookup d.name = none) :
    p.declare d = .ok (p.insert d) := by
  simp [Program.declare, Program.nameTaken?, h]

/-- The first two tokens of a declaration whose name is free. -/
theorem steps_heading {p : Program} {word name : Lexeme} (kind : DeclKind)
    (hw : declKind? word.tok = some kind) (hn : name.tok = .name)
    (free : p.lookup name.lit = none) (ts : List Lexeme) :
    (word :: name :: ts).foldlM step ⟨p, .top⟩ =
      ts.foldlM step ⟨p, .named ⟨kind, word.pos, name.lit, name.pos⟩⟩ := by
  have first : step ⟨p, .top⟩ word = .ok ⟨p, .name kind word.pos⟩ := by simp [step, hw]
  have second : step ⟨p, .name kind word.pos⟩ name =
      .ok ⟨p, .named ⟨kind, word.pos, name.lit, name.pos⟩⟩ := by
    simp [step, hn, Program.nameTaken?, free]
  rw [List.foldlM_cons, first]
  change (name :: ts).foldlM step _ = _
  rw [List.foldlM_cons, second]
  rfl

/-- A body and its closing word complete a declaration whose name is free. -/
theorem steps_routine {p : Program} {head : Head} {opening : List Lexeme} {xs : List Instr}
    {ts : List Lexeme} {closing : Lexeme} (hh : head.Opens opening)
    (free : p.lookup head.name = none) (hb : Spells maxNesting (.block xs) ts)
    (hc : closing.tok = .keyword .endWord) :
    ∃ d, heading d = (head.kind, head.name) ∧
      (ts ++ [closing]).foldlM step ⟨p, .body head [] {}⟩ = .ok ⟨p.insert d, .top⟩ := by
  obtain ⟨block, hts⟩ := hb.taken p head [] {} (by simp)
  have hd := heading_finishRoutine hh (block.settle closing.pos).close closing.pos
  have name : (finishRoutine head (block.settle closing.pos).close closing.pos).name =
      head.name := by
    rw [← heading_snd, hd]
  refine ⟨_, hd, ?_⟩
  rw [List.foldlM_append, hts]
  change step _ closing >>= _ = _
  rw [step_body]
  simp [stepBody, hc, declare_of_free (name.symm ▸ free), Except.map]

/-- The word before a body moves the parser into it. -/
theorem steps_do {p : Program} {head : Head} {l : Lexeme} (hl : l.tok = .keyword .doWord)
    (hk : head.kind ≠ .memory) (ts : List Lexeme) :
    (l :: ts).foldlM step ⟨p, .named head⟩ = ts.foldlM step ⟨p, .body head [] {}⟩ := by
  have enters : stepNamed p head l = .ok ⟨p, .body head [] {}⟩ := by
    unfold stepNamed
    cases hkind : head.kind with
    | proc => simp [hl]
    | inline => simp [hl]
    | memory => exact absurd hkind hk
  rw [List.foldlM_cons]
  change stepNamed p head l >>= _ = _
  rw [enters]
  rfl

/-- An inline without that word is read as if the parser were in its body already. -/
theorem steps_without_do {p : Program} {head : Head} {ts : List Lexeme} {s : State}
    (hk : head.kind = .inline) (hne : ts ≠ [])
    (h : ts.foldlM step ⟨p, .body head [] {}⟩ = .ok s) :
    ts.foldlM step ⟨p, .named head⟩ = .ok s := by
  obtain ⟨l, us, rfl⟩ := List.exists_cons_of_ne_nil hne
  have hl : l.tok ≠ .keyword .doWord := by
    intro hl
    obtain ⟨_, hs, _⟩ := bind_eq_ok.mp h
    simp [step_body, stepBody, enter, plainOp?, declKind?, hl, Except.map] at hs
  rw [List.foldlM_cons] at h ⊢
  have same : step ⟨p, .named head⟩ l = step ⟨p, .body head [] {}⟩ l := by
    rw [step_body]
    simp [step, stepNamed, hk, hl]
  rw [same]
  exact h

theorem DeclText.taken {d : Decl} {ts : List Lexeme} (h : DeclText d ts) {p : Program}
    (free : p.lookup d.name = none) :
    ∃ d', heading d' = heading d ∧ ts.foldlM step ⟨p, .top⟩ = .ok ⟨p.insert d', .top⟩ := by
  cases h with
  | proc hw hn hm hb hc =>
    obtain ⟨d, hd, hs⟩ := steps_routine (.proc hw hn hm) free hb hc
    refine ⟨d, hd, ?_⟩
    rw [List.cons_append, List.cons_append, List.cons_append,
      steps_heading .proc (declKind?_eq_some_iff.mpr hw) hn free, steps_do hm (by simp)]
    exact hs
  | inline hw hn hm hb hc =>
    obtain ⟨d, hd, hs⟩ := steps_routine (.inline hw hn hm) free hb hc
    refine ⟨d, hd, ?_⟩
    rw [List.cons_append, List.cons_append, List.cons_append, List.cons_append,
      steps_heading .inline (declKind?_eq_some_iff.mpr hw) hn free]
    obtain rfl | ⟨l, hl, rfl⟩ := hm
    · exact steps_without_do rfl (by simp) hs
    · rw [List.append_assoc, List.singleton_append, steps_do hl (by simp)]
      exact hs
  | @memory _ word name size closing hw hn hi hv hc =>
    let memory : Memory :=
      { name := name.lit, pos := word.pos, namePos := name.pos, size := size.value }
    have sized : step ⟨p, .named ⟨.memory, word.pos, name.lit, name.pos⟩⟩ size =
        .ok ⟨p, .sized ⟨.memory, word.pos, name.lit, name.pos⟩ size.value⟩ := by
      simp [step, stepNamed, hi, hv]
    have closed : step ⟨p, .sized ⟨.memory, word.pos, name.lit, name.pos⟩ size.value⟩ closing =
        .ok ⟨p.insert (.memory memory), .top⟩ := by
      simp [step, hc, declare_of_free (d := .memory memory) free, memory, Except.map]
    refine ⟨.memory memory, rfl, ?_⟩
    rw [steps_heading .memory (declKind?_eq_some_iff.mpr hw) hn free, List.foldlM_cons, sized]
    change step _ closing >>= _ = _
    rw [closed]
    rfl

theorem DeclsText.taken {ds : List Decl} {ts : List Lexeme} (h : DeclsText ds ts)
    (nodup : (ds.map Decl.name).Nodup) (file : String) :
    ∃ p, ts.foldlM step ⟨{ file }, .top⟩ = .ok ⟨p, .top⟩ ∧
      p.decls.map heading = ds.map heading := by
  induction h with
  | nil => exact ⟨_, rfl, rfl⟩
  | @snoc ds d ts us _ hd ih =>
    rw [List.map_append, List.map_singleton] at nodup
    obtain ⟨before, _, apart⟩ := List.nodup_append.mp nodup
    obtain ⟨p, hts, same⟩ := ih before
    have names : p.decls.map Decl.name = ds.map Decl.name := by
      have h := congrArg (List.map Prod.snd) same
      simpa [Function.comp_def] using h
    have coherent : p.Coherent := (steps_read (initial_reads file) hts).coherent
    have free : p.lookup d.name = none := by
      rw [coherent.lookup_eq_none_iff_not_mem, names]
      intro hm
      exact apart _ hm _ (by simp) rfl
    obtain ⟨d', hd', hus⟩ := hd.taken free
    refine ⟨p.insert d', ?_, ?_⟩
    · rw [List.foldlM_append, hts]
      exact hus
    · simp [Program.insert_decls, same, hd']

theorem reads_top {p : Program} {ts : List Lexeme} (h : State.Reads ⟨p, .top⟩ ts) :
    p.Coherent ∧ DeclsText p.decls ts := by
  obtain ⟨coherent, us, vs, rfl, hu, hv⟩ := h
  cases hv
  simpa using ⟨coherent, hu⟩

theorem finish?_result {s : State} {l : Lexeme} {p : Program} :
    Parsed.result ⟨s.program, finish? s l⟩ = .ok p ↔ s = ⟨p, .top⟩ ∧ p.entry?.isSome := by
  obtain ⟨p', phase⟩ := s
  unfold finish? Parsed.result
  cases phase with
  | top =>
    by_cases h : p'.entry?.isSome
    · simp only [h, if_true, Except.ok.injEq, State.mk.injEq, and_true]
      exact ⟨fun e => ⟨e, e ▸ h⟩, And.left⟩
    · simp only [h, State.mk.injEq, and_true]
      simp only [Bool.false_eq_true, if_false, reduceCtorEq, false_iff]
      rintro ⟨rfl, hp⟩
      exact h hp
  | name kind pos => simp
  | named head =>
    obtain ⟨kind, pos, name, namePos⟩ := head
    cases kind <;> simp
  | sized head size => simp
  | body head levels block => cases levels <;> simp

theorem run_result {last : Lexeme} {s : State} {tokens : List Lexeme} {p : Program} :
    (run last s tokens).result = .ok p ↔
      (beforeEnd tokens).foldlM step s = .ok ⟨p, .top⟩ ∧ p.entry?.isSome := by
  induction tokens generalizing s with
  | nil => simpa [run, beforeEnd, Pure.pure, Except.pure] using finish?_result
  | cons l rest ih =>
    by_cases hl : l.tok = .eof
    · simpa [run, beforeEnd, hl, Pure.pure, Except.pure] using finish?_result
    · have before : beforeEnd (l :: rest) = l :: beforeEnd rest := by simp [beforeEnd, hl]
      rw [before, List.foldlM_cons, run, if_neg hl]
      cases hs : step s l with
      | ok next => exact ih
      | error e => simp [Parsed.result, bind, Except.bind]

theorem parsed_iff {file : String} {tokens : List Lexeme} {p : Program} :
    (parseTokens file tokens).result = .ok p ↔
      (beforeEnd tokens).foldlM step ⟨{ file }, .top⟩ = .ok ⟨p, .top⟩ ∧ p.entry?.isSome :=
  run_result

theorem parsed_reads {file : String} {tokens : List Lexeme} {p : Program}
    (h : (parseTokens file tokens).result = .ok p) :
    p.Coherent ∧ DeclsText p.decls (beforeEnd tokens) :=
  reads_top (steps_read (initial_reads file) (parsed_iff.mp h).1)

/-- The parser accepts exactly the token sequences that are programs, and the declarations it
returns are spelled by the tokens that it read. -/
theorem parser_accepts_sentences (file : String) (tokens : List Lexeme) :
    ((∃ p, (parseTokens file tokens).result = .ok p) ↔ Sentence (beforeEnd tokens)) ∧
    ∀ p, (parseTokens file tokens).result = .ok p → DeclsText p.decls (beforeEnd tokens) := by
  refine ⟨⟨?_, ?_⟩, fun p h => (parsed_reads h).2⟩
  · rintro ⟨p, h⟩
    obtain ⟨coherent, text⟩ := parsed_reads h
    obtain ⟨r, hr⟩ := Option.isSome_iff_exists.mp (parsed_iff.mp h).2
    exact ⟨p.decls, text, coherent.nodup, r, coherent.proc_iff.mp hr⟩
  · rintro ⟨ds, text, nodup, main⟩
    obtain ⟨p, hs, same⟩ := text.taken nodup file
    have coherent : p.Coherent := (steps_read (initial_reads file) hs).coherent
    rw [exists_proc_iff, ← same, ← exists_proc_iff] at main
    obtain ⟨r, hr, name⟩ := main
    have entry : p.entry? = some r := coherent.proc_iff.mpr ⟨hr, name⟩
    exact ⟨p, parsed_iff.mpr ⟨hs, by simp [entry]⟩⟩

end StackLang.Source
