import StackLang.Proofs.Namespace
import StackLang.Proofs.Outcome
import StackLang.Proofs.Source.Grammar
/-!
What the parser has read. Every state stands for a token sequence that is the beginning of a
program, and each token that the parser takes makes that sequence one token longer.
-/

namespace StackLang.Source

/-- The tokens of a conditional up to the end of an arm: whatever tail follows completes them. -/
def Branch.Reads (n : Nat) (head : Branch) (ts : List Lexeme) : Prop :=
  ∀ (arms : List Arm) (otherwise : Block) (us : List Lexeme),
    Spells n (.tail arms otherwise) us →
    Spells (n + 1)
      (.instr (.branch head.pos head.cond head.body (head.arms.reverse ++ arms) otherwise))
      (ts ++ us)

/-- The tokens of an open construct up to the beginning of its open block. -/
inductive Frame.Reads (n : Nat) : Frame → List Lexeme → Prop
  | ifCondition {l : Lexeme} : l.tok = .keyword .ifWord → Reads n (.ifCondition l.pos) [l]
  | ifBody {l mid : Lexeme} {p : Pos} {c : List Instr} {cs : List Lexeme} :
      l.tok = .keyword .ifWord → Spells n (.block c) cs → mid.tok = .keyword .doWord →
      Reads n (.ifBody l.pos (.mk p c)) (l :: cs ++ [mid])
  | elifCondition {head : Branch} {l : Lexeme} {ts : List Lexeme} :
      head.Reads n ts → l.tok = .keyword .elifWord →
      Reads n (.elifCondition head l.pos) (ts ++ [l])
  | elifBody {head : Branch} {l mid : Lexeme} {p : Pos} {c : List Instr} {ts cs : List Lexeme} :
      head.Reads n ts → l.tok = .keyword .elifWord → Spells n (.block c) cs →
      mid.tok = .keyword .doWord →
      Reads n (.elifBody head l.pos (.mk p c)) (ts ++ l :: cs ++ [mid])
  | elseBody {head : Branch} {l : Lexeme} {ts : List Lexeme} :
      head.Reads n ts → l.tok = .keyword .elseWord → Reads n (.elseBody head) (ts ++ [l])
  | whileCondition {l : Lexeme} :
      l.tok = .keyword .whileWord → Reads n (.whileCondition l.pos) [l]
  | whileBody {l mid : Lexeme} {p : Pos} {c : List Instr} {cs : List Lexeme} :
      l.tok = .keyword .whileWord → Spells n (.block c) cs → mid.tok = .keyword .doWord →
      Reads n (.whileBody l.pos (.mk p c)) (l :: cs ++ [mid])

/-- The tokens of a body up to the end of its open block, inside which `n` further constructs may
nest. -/
inductive Within : Nat → List Level → OpenBlock → List Lexeme → Prop
  | root {block : OpenBlock} {ts : List Lexeme} :
      Spells maxNesting (.block block.reversed.reverse) ts → Within maxNesting [] block ts
  | nest {n : Nat} {levels : List Level} {frame : Frame} {outer block : OpenBlock}
      {ts us vs : List Lexeme} :
      Within (n + 1) levels outer ts → frame.Reads n us →
      Spells n (.block block.reversed.reverse) vs →
      Within n (⟨frame, outer⟩ :: levels) block (ts ++ us ++ vs)

/-- The tokens of a declaration up to the beginning of its body. -/
inductive Head.Opens : Head → List Lexeme → Prop
  | proc {word name mid : Lexeme} :
      word.tok = .keyword .procWord → name.tok = .name → mid.tok = .keyword .doWord →
      Opens ⟨.proc, word.pos, name.lit, name.pos⟩ [word, name, mid]
  | inline {word name : Lexeme} {mid : List Lexeme} :
      word.tok = .keyword .inlineWord → name.tok = .name →
      (mid = [] ∨ ∃ l, l.tok = .keyword .doWord ∧ mid = [l]) →
      Opens ⟨.inline, word.pos, name.lit, name.pos⟩ (word :: name :: mid)

/-- The tokens of the declaration that the parser is in the middle of. -/
inductive Phase.Reads : Phase → List Lexeme → Prop
  | top : Reads .top []
  | name {kind : DeclKind} {word : Lexeme} :
      declKind? word.tok = some kind → Reads (.name kind word.pos) [word]
  | named {kind : DeclKind} {word name : Lexeme} :
      declKind? word.tok = some kind → name.tok = .name →
      Reads (.named ⟨kind, word.pos, name.lit, name.pos⟩) [word, name]
  | sized {word name size : Lexeme} :
      word.tok = .keyword .memoryWord → name.tok = .name → size.tok = .int → 0 < size.value →
      Reads (.sized ⟨.memory, word.pos, name.lit, name.pos⟩ size.value) [word, name, size]
  | body {head : Head} {n : Nat} {levels : List Level} {block : OpenBlock} {ts us : List Lexeme} :
      head.Opens ts → Within n levels block us → Reads (.body head levels block) (ts ++ us)

/-- The tokens taken so far: those of the finished declarations, and those of the one begun. -/
structure State.Reads (s : State) (ts : List Lexeme) : Prop where
  coherent : s.program.Coherent
  read : ∃ us vs, ts = us ++ vs ∧ DeclsText s.program.decls us ∧ s.phase.Reads vs

theorem Branch.reads_first {n : Nat} {l mid : Lexeme} {p q : Pos} {c b : List Instr}
    {cs bs : List Lexeme} (hl : l.tok = .keyword .ifWord) (hc : Spells n (.block c) cs)
    (hm : mid.tok = .keyword .doWord) (hb : Spells n (.block b) bs) :
    Branch.Reads n ⟨l.pos, .mk p c, .mk q b, []⟩ (l :: cs ++ [mid] ++ bs) := by
  intro arms otherwise us ht
  simpa using Spells.branch (p := p) (q := q) hl hc hm hb ht

theorem Branch.Reads.further {n : Nat} {head : Branch} {l mid : Lexeme} {p q : Pos}
    {c b : List Instr} {ts cs bs : List Lexeme} (h : head.Reads n ts)
    (hl : l.tok = .keyword .elifWord) (hc : Spells n (.block c) cs)
    (hm : mid.tok = .keyword .doWord) (hb : Spells n (.block b) bs) :
    Branch.Reads n { head with arms := .mk l.pos (.mk p c) (.mk q b) :: head.arms }
      (ts ++ l :: cs ++ [mid] ++ bs) := by
  intro arms otherwise us ht
  simpa using h _ _ _ (Spells.arm (p := p) (q := q) hl hc hm hb ht)

theorem Branch.Reads.done {n : Nat} {head : Branch} {ts us : List Lexeme} {otherwise : Block}
    (h : head.Reads n ts) (ht : Spells n (.tail [] otherwise) us) :
    Spells (n + 1) (.instr (head.instr otherwise)) (ts ++ us) := by
  simpa [Branch.instr] using h _ _ _ ht

theorem Frame.Reads.reopen {n : Nat} {frame next : Frame} {q : Pos} {xs : List Instr} {k : Keyword}
    {l : Lexeme} {ts us : List Lexeme} (h : frame.Reads n ts) (hxs : Spells n (.block xs) us)
    (hl : l.tok = .keyword k)
    (hc : closing? frame (.mk q xs) l.pos k = some (.reopen next)) :
    next.Reads n (ts ++ us ++ [l]) := by
  unfold closing? at hc
  split at hc <;> cases hc
  · cases h with
    | ifCondition hi => simpa using Frame.Reads.ifBody (p := q) hi hxs hl
  · cases h with
    | ifBody hi hcond hm => exact .elifCondition (Branch.reads_first hi hcond hm hxs) hl
  · cases h with
    | ifBody hi hcond hm => exact .elseBody (Branch.reads_first hi hcond hm hxs) hl
  · cases h with
    | elifCondition hh he => simpa using Frame.Reads.elifBody (p := q) hh he hxs hl
  · cases h with
    | elifBody hh he hcond hm => exact .elifCondition (hh.further he hcond hm hxs) hl
  · cases h with
    | elifBody hh he hcond hm => exact .elseBody (hh.further he hcond hm hxs) hl
  · cases h with
    | whileCondition hw => simpa using Frame.Reads.whileBody (p := q) hw hxs hl

theorem Frame.Reads.done {n : Nat} {frame : Frame} {q : Pos} {xs : List Instr} {k : Keyword}
    {l : Lexeme} {x : Instr} {ts us : List Lexeme} (h : frame.Reads n ts)
    (hxs : Spells n (.block xs) us) (hl : l.tok = .keyword k)
    (hc : closing? frame (.mk q xs) l.pos k = some (.done x)) :
    Spells (n + 1) (.instr x) (ts ++ us ++ [l]) := by
  unfold closing? at hc
  split at hc <;> cases hc
  · cases h with
    | ifBody hi hcond hm => exact (Branch.reads_first hi hcond hm hxs).done (.close hl)
  · cases h with
    | elifBody hh he hcond hm => exact (hh.further he hcond hm hxs).done (.close hl)
  · cases h with
    | elseBody hh he => simpa using hh.done (.otherwise (p := q) he hxs hl)
  · cases h with
    | whileBody hw hcond hm => simpa using Spells.loop (q := q) hw hcond hm hxs hl

theorem Within.start : Within maxNesting [] {} [] :=
  .root .nil

theorem Within.begin {n : Nat} {levels : List Level} {outer : OpenBlock} {frame : Frame}
    {ts us : List Lexeme} (h : Within (n + 1) levels outer ts) (hf : frame.Reads n us) :
    Within n (⟨frame, outer⟩ :: levels) {} (ts ++ us) := by
  have empty : Spells n (.block ({} : OpenBlock).reversed.reverse) [] := .nil
  simpa using Within.nest h hf empty

theorem Within.settle {n : Nat} {levels : List Level} {block : OpenBlock} {ts : List Lexeme}
    (h : Within n levels block ts) (pos : Pos) : Within n levels (block.settle pos) ts := by
  cases h with
  | root hb => exact .root hb
  | nest ho hf hb => exact .nest ho hf hb

theorem Within.push {n : Nat} {levels : List Level} {block : OpenBlock} {x : Instr}
    {ts us : List Lexeme} (h : Within n levels block ts) (hx : Spells n (.instr x) us) :
    Within n levels (block.push x) (ts ++ us) := by
  cases h with
  | root hb =>
    refine .root ?_
    simpa [OpenBlock.push] using hb.snoc hx
  | nest ho hf hb =>
    rw [List.append_assoc]
    refine .nest ho hf ?_
    simpa [OpenBlock.push] using hb.snoc hx

theorem Within.length {n : Nat} {levels : List Level} {block : OpenBlock} {ts : List Lexeme}
    (h : Within n levels block ts) : levels.length + n = maxNesting := by
  induction h with
  | root => simp
  | nest _ _ _ ih =>
    rw [List.length_cons]
    omega

/-- A construct may be opened wherever the nesting leaves room for it. -/
theorem Within.open {n : Nat} {levels : List Level} {block : OpenBlock} {frame : Frame}
    {ts us : List Lexeme} (h : Within n levels block ts) (room : levels.length < maxNesting)
    (hf : ∀ m, frame.Reads m us) : ∃ m, Within m (⟨frame, block⟩ :: levels) {} (ts ++ us) := by
  have hlen := h.length
  obtain ⟨m, rfl⟩ : ∃ m, n = m + 1 := ⟨n - 1, by omega⟩
  exact ⟨m, h.begin (hf m)⟩

theorem enter_reads {head : Head} {n : Nat} {levels : List Level} {block : OpenBlock} {l : Lexeme}
    {phase : Phase} {ts us : List Lexeme} (hh : head.Opens ts) (hw : Within n levels block us)
    (h : enter head levels block l = .ok phase) : phase.Reads (ts ++ us ++ [l]) := by
  rw [List.append_assoc]
  unfold enter at h
  split at h
  next o ho =>
    cases h
    exact .body hh (hw.push (.plain (plainOp?_eq_some_iff.mp ho)))
  next =>
    dsimp only at h
    split at h
    next hl =>
      split at h <;> cases h
      obtain ⟨m, hm⟩ := hw.open ‹_› fun _ => .ifCondition hl
      exact .body hh hm
    next =>
      split at h
      next hl =>
        split at h <;> cases h
        obtain ⟨m, hm⟩ := hw.open ‹_› fun _ => .whileCondition hl
        exact .body hh hm
      next => split at h <;> cases h

theorem finishRoutine_text {head : Head} {block : OpenBlock} {closing : Lexeme}
    {ts us : List Lexeme} (hh : head.Opens ts)
    (hb : Spells maxNesting (.block block.reversed.reverse) us)
    (hc : closing.tok = .keyword .endWord) (serial : Nat) :
    DeclText ((finishRoutine head block.close closing.pos).withSerial serial)
      (ts ++ us ++ [closing]) := by
  cases hh with
  | proc hw hn hm =>
    have text := DeclText.proc (s := serial) (p := block.pos.getD Pos.none) hw hn hm hb hc
    unfold returning at text
    unfold finishRoutine Block.lastIsReturn
    split at text <;> simp_all [OpenBlock.close, Block.instrs, Block.withInstrs, Decl.withSerial]
  | inline hw hn hm =>
    have text := DeclText.inline (s := serial) (p := block.pos.getD Pos.none) hw hn hm hb hc
    simpa [finishRoutine, OpenBlock.close, Decl.withSerial] using text

theorem declare_eq_ok {p p' : Program} {d : Decl} (h : p.declare d = .ok p') :
    p.lookup d.name = none ∧ p' = p.insert d := by
  unfold Program.declare Program.nameTaken? at h
  split at h
  next => cases h
  next hn =>
    cases h
    exact ⟨Option.map_eq_none_iff.mp hn, rfl⟩

/-- What a token does to a program in the middle of a declaration whose tokens, with that token,
are `ts`: the declaration goes on, or it is complete and the program has it. -/
inductive Advances (p : Program) (ts : List Lexeme) : State → Prop
  | further {phase : Phase} : phase.Reads ts → Advances p ts ⟨p, phase⟩
  | complete {d : Decl} : p.lookup d.name = none →
      (∀ serial, DeclText (d.withSerial serial) ts) → Advances p ts ⟨p.insert d, .top⟩

theorem declare_advances {p p' : Program} {d : Decl} {ts : List Lexeme}
    (text : ∀ serial, DeclText (d.withSerial serial) ts) (h : p.declare d = .ok p') :
    Advances p ts ⟨p', .top⟩ := by
  obtain ⟨free, rfl⟩ := declare_eq_ok h
  exact .complete free text

theorem stepBody_advances {p : Program} {head : Head} {n : Nat} {levels : List Level}
    {block : OpenBlock} {l : Lexeme} {s : State} {ts us : List Lexeme} (hh : head.Opens ts)
    (hw : Within n levels block us) (h : stepBody p head levels block l = .ok s) :
    Advances p (ts ++ us ++ [l]) s := by
  replace hw := hw.settle l.pos
  unfold stepBody at h
  dsimp only at h
  split at h
  next hl =>
    obtain ⟨p', hd, rfl⟩ := map_eq_ok.mp h
    cases hw with
    | root hb => exact declare_advances (finishRoutine_text hh hb hl) hd
  next frame outer levels' k hl =>
    split at h
    next following hc =>
      cases h
      cases hw with
      | nest ho hf hb =>
        refine .further ?_
        simpa using Phase.Reads.body hh (ho.begin (hf.reopen hb hl hc))
    next x hc =>
      cases h
      cases hw with
      | nest ho hf hb =>
        refine .further ?_
        simpa using Phase.Reads.body hh (ho.push (hf.done hb hl hc))
    next =>
      obtain ⟨phase, he, rfl⟩ := map_eq_ok.mp h
      exact .further (enter_reads hh hw he)
  next =>
    obtain ⟨phase, he, rfl⟩ := map_eq_ok.mp h
    exact .further (enter_reads hh hw he)

theorem stepNamed_advances {p : Program} {kind : DeclKind} {word name l : Lexeme} {s : State}
    (hw : declKind? word.tok = some kind) (hn : name.tok = .name)
    (h : stepNamed p ⟨kind, word.pos, name.lit, name.pos⟩ l = .ok s) :
    Advances p [word, name, l] s := by
  have hw := declKind?_eq_some_iff.mp hw
  unfold stepNamed at h
  dsimp only at h
  split at h
  next =>
    split at h <;> cases h
    next hl =>
      refine .further ?_
      simpa using Phase.Reads.body (.proc hw hn hl) .start
  next =>
    split at h
    next hl =>
      cases h
      refine .further ?_
      simpa using Phase.Reads.body (.inline hw hn (.inr ⟨l, hl, rfl⟩)) .start
    next =>
      have opens := Head.Opens.inline hw hn (.inl rfl)
      exact stepBody_advances opens .start h
  next =>
    split at h <;> cases h
    next hl => exact .further (.sized hw hn hl.1 hl.2)

/-- Every token that the parser takes carries the declaration on or completes it. -/
theorem step_advances {p : Program} {phase : Phase} {s : State} {l : Lexeme} {ts : List Lexeme}
    (hv : phase.Reads ts) (h : step ⟨p, phase⟩ l = .ok s) : Advances p (ts ++ [l]) s := by
  unfold step at h
  cases hv with
  | top =>
    dsimp only at h
    split at h
    next kind hk =>
      cases h
      exact .further (.name hk)
    next => split at h <;> cases h
  | name hw =>
    dsimp only at h
    split at h
    next hn =>
      split at h <;> cases h
      exact .further (.named hw hn)
    next => cases h
  | named hw hn => exact stepNamed_advances hw hn h
  | sized hw hn hi hv =>
    dsimp only at h
    split at h
    next hl =>
      obtain ⟨p', hd, rfl⟩ := map_eq_ok.mp h
      refine declare_advances ?_ hd
      intro serial
      exact .memory hw hn hi hv hl
    next => cases h
  | body hh hw => exact stepBody_advances hh hw h

/-- Each token that the parser takes makes the sequence read one token longer. -/
theorem step_reads {s s' : State} {l : Lexeme} {ts : List Lexeme} (hs : s.Reads ts)
    (h : step s l = .ok s') : s'.Reads (ts ++ [l]) := by
  obtain ⟨hp, us, vs, rfl, hu, hv⟩ := hs
  rw [List.append_assoc]
  cases step_advances hv h with
  | further hv' => exact ⟨hp, us, _, rfl, hu, hv'⟩
  | complete free text => exact ⟨hp.insert free, _, [], by simp, .snoc hu (text _), .top⟩

theorem initial_reads (file : String) : State.Reads ⟨{ file }, .top⟩ [] :=
  ⟨Program.coherent_empty file, [], [], rfl, .nil, .top⟩

theorem steps_read {s s' : State} {ts us : List Lexeme} (hs : s.Reads ts)
    (h : us.foldlM step s = .ok s') : s'.Reads (ts ++ us) := by
  induction us generalizing s ts with
  | nil =>
    cases h
    simpa using hs
  | cons l us ih =>
    rw [List.foldlM_cons] at h
    obtain ⟨next, hl, h⟩ := bind_eq_ok.mp h
    simpa using ih (step_reads hs hl) h

end StackLang.Source
