import StackLang.Proofs.Relocation.Program
import StackLang.Source.Parser
/-!
The parser goes with every replacement of places: tokens at other places give the same program or
the same fault at other places. One token keeps this, so all of them do.
-/

namespace StackLang.Source

def OpenBlock.move (f : Pos → Pos) (b : OpenBlock) : OpenBlock :=
  ⟨b.pos.map f, b.reversed.map (Instr.move f)⟩

def Branch.move (f : Pos → Pos) (h : Branch) : Branch :=
  ⟨f h.pos, h.cond.move f, h.body.move f, h.arms.map (Arm.move f)⟩

def Frame.move (f : Pos → Pos) : Frame → Frame
  | .ifCondition pos => .ifCondition (f pos)
  | .ifBody pos cond => .ifBody (f pos) (cond.move f)
  | .elifCondition head pos => .elifCondition (head.move f) (f pos)
  | .elifBody head pos cond => .elifBody (head.move f) (f pos) (cond.move f)
  | .elseBody head => .elseBody (head.move f)
  | .whileCondition pos => .whileCondition (f pos)
  | .whileBody pos cond => .whileBody (f pos) (cond.move f)

def Level.move (f : Pos → Pos) (level : Level) : Level :=
  ⟨level.frame.move f, level.outer.move f⟩

def Head.move (f : Pos → Pos) (head : Head) : Head :=
  { head with pos := f head.pos, namePos := f head.namePos }

def Phase.move (f : Pos → Pos) : Phase → Phase
  | .top => .top
  | .name kind pos => .name kind (f pos)
  | .named head => .named (head.move f)
  | .sized head size => .sized (head.move f) size
  | .body head levels block => .body (head.move f) (levels.map (Level.move f)) (block.move f)

def State.move (f : Pos → Pos) (s : State) : State :=
  ⟨s.program.move f, s.phase.move f⟩

def Closing.move (f : Pos → Pos) : Closing → Closing
  | .reopen frame => .reopen (frame.move f)
  | .done x => .done (x.move f)

def Parsed.move (f : Pos → Pos) (r : Parsed) : Parsed :=
  ⟨r.program.move f, r.fault.map (Error.move f)⟩

variable {f : Pos → Pos}

theorem Frame.region_move (frame : Frame) : (frame.move f).region = frame.region := by
  cases frame <;> rfl

theorem OpenBlock.settle_move (b : OpenBlock) (pos : Pos) :
    (b.move f).settle (f pos) = (b.settle pos).move f := by
  obtain ⟨place, xs⟩ := b
  cases place <;> rfl

/-- The absent place never gets into a block, as a block is closed only when its place is
settled. -/
theorem OpenBlock.close_move (b : OpenBlock) (pos : Pos) :
    ((b.settle pos).move f).close = (b.settle pos).close.move f := by
  simp only [OpenBlock.close, OpenBlock.move, OpenBlock.settle, Block.move, Option.map_some,
    Option.getD_some, Instr.moveList_eq_map, List.map_reverse]

theorem Branch.instr_move (h : Branch) (otherwise : Block) :
    (h.move f).instr (otherwise.move f) = (h.instr otherwise).move f := by
  simp only [Branch.instr, Branch.move, Instr.move, Arm.moveList_eq_map, List.map_reverse]

theorem finishRoutine_move (head : Head) (body : Block) (endPos : Pos) :
    finishRoutine (head.move f) (body.move f) (f endPos) =
      (finishRoutine head body endPos).move f := by
  have added : (body.move f).withInstrs ((body.move f).instrs ++ [.op (f endPos) .ret]) =
      (body.withInstrs (body.instrs ++ [.op endPos .ret])).move f := by
    rw [← Block.withInstrs_move, List.map_append, Block.instrs_move]
    rfl
  unfold finishRoutine
  rw [Block.lastIsReturn_move, added]
  cases hk : head.kind with
  | proc => cases body.lastIsReturn <;> simp [Head.move, hk, Decl.move, Routine.move]
  | inline => simp [Head.move, hk, Decl.move, Routine.move]
  | memory => simp [Head.move, hk, Decl.move, Routine.move]

theorem closing?_move (frame : Frame) (block : Block) (pos : Pos) (k : Keyword) :
    closing? (frame.move f) (block.move f) (f pos) k =
      (closing? frame block pos k).map (Closing.move f) := by
  cases frame <;> cases k <;>
    simp [closing?, Frame.move, Closing.move, Branch.move, Arm.move, Block.move, Instr.move,
      ← Branch.instr_move]

theorem enter_move (head : Head) (levels : List Level) (block : OpenBlock) (l : Lexeme) :
    enter (head.move f) (levels.map (Level.move f)) (block.move f) (l.move f) =
      carry (Error.move f) (Phase.move f) (enter head levels block l) := by
  have op : plainOp? (l.move f) = plainOp? l := rfl
  unfold enter
  rw [op, Lexeme.tok_move, List.length_map]
  cases plainOp? l with
  | some o => rfl
  | none =>
    dsimp only
    split_ifs <;> rfl

theorem stepBody_move (p : Program) (head : Head) (levels : List Level) (block : OpenBlock)
    (l : Lexeme) :
    stepBody (p.move f) (head.move f) (levels.map (Level.move f)) (block.move f) (l.move f) =
      carry (Error.move f) (State.move f) (stepBody p head levels block l) := by
  have entered : (enter (head.move f) (levels.map (Level.move f)) ((block.settle l.pos).move f)
      (l.move f)).map (State.mk (p.move f)) = carry (Error.move f) (State.move f)
        ((enter head levels (block.settle l.pos) l).map (State.mk p)) := by
    rw [enter_move, map_carry, carry_map]
    rfl
  unfold stepBody
  rw [Lexeme.tok_move, Lexeme.pos_move, OpenBlock.settle_move]
  dsimp only
  rw [OpenBlock.close_move]
  cases l.tok with
  | keyword k =>
    cases levels with
    | nil =>
      cases k with
      | endWord =>
        dsimp only [List.map_nil]
        rw [finishRoutine_move, Program.declare_move, map_carry, carry_map]
        rfl
      | _ => exact entered
    | cons level rest =>
      rw [List.map_cons, Level.move]
      dsimp only
      rw [closing?_move]
      cases closing? level.frame (block.settle l.pos).close l.pos k with
      | some effect => cases effect <;> rfl
      | none => exact entered
  | _ => cases levels <;> exact entered

theorem stepNamed_move (p : Program) (head : Head) (l : Lexeme) :
    stepNamed (p.move f) (head.move f) (l.move f) =
      carry (Error.move f) (State.move f) (stepNamed p head l) := by
  have kind : (head.move f).kind = head.kind := rfl
  have value : (l.move f).value = l.value := rfl
  have inside : stepBody (p.move f) (head.move f) [] {} (l.move f) =
      carry (Error.move f) (State.move f) (stepBody p head [] {} l) :=
    stepBody_move p head [] {} l
  unfold stepNamed
  rw [kind, value, Lexeme.tok_move, inside]
  cases head.kind <;> dsimp only <;> split_ifs <;> rfl

/-- One token keeps places apart from everything else. -/
theorem step_move (s : State) (l : Lexeme) :
    step (s.move f) (l.move f) = carry (Error.move f) (State.move f) (step s l) := by
  obtain ⟨p, phase⟩ := s
  unfold step
  cases phase with
  | top =>
    have opens : opensInstr (l.move f) = opensInstr l := rfl
    simp only [State.move, Phase.move, Lexeme.tok_move, opens]
    cases declKind? l.tok with
    | some kind => rfl
    | none => dsimp only; split_ifs <;> rfl
  | name kind pos =>
    have lit : (l.move f).lit = l.lit := rfl
    simp only [State.move, Phase.move, Lexeme.tok_move, lit, Program.nameTaken?_move]
    cases p.nameTaken? l.lit pos with
    | some e => dsimp only [Option.map_some]; split_ifs <;> rfl
    | none => dsimp only [Option.map_none]; split_ifs <;> rfl
  | named head => exact stepNamed_move p head l
  | sized head size =>
    have declared := p.declare_move (f := f)
      (.memory { name := head.name, pos := head.pos, namePos := head.namePos, size })
    dsimp only [State.move, Phase.move]
    rw [Lexeme.tok_move]
    split_ifs
    · rw [carry_map]
      exact (congrArg (Except.map _) declared).trans (map_carry ..)
    · rfl
  | body head levels block => exact stepBody_move p head levels block l

theorem finish?_move (s : State) (l : Lexeme) :
    finish? (s.move f) (l.move f) = (finish? s l).map (Error.move f) := by
  obtain ⟨p, phase⟩ := s
  cases phase with
  | top =>
    simp only [finish?, State.move, Phase.move, Program.isSome_entry_move]
    split_ifs <;> rfl
  | named head =>
    simp only [finish?, State.move, Phase.move, Head.move]
    cases head.kind <;> rfl
  | body head levels block =>
    cases levels with
    | nil => rfl
    | cons level rest =>
      simp only [finish?, State.move, Phase.move, List.map_cons, Level.move, Frame.region_move]
      rfl
  | _ => rfl

theorem run_move (last : Lexeme) (s : State) (tokens : List Lexeme) :
    run (last.move f) (s.move f) (tokens.map (Lexeme.move f)) = (run last s tokens).move f := by
  induction tokens generalizing s with
  | nil =>
    simp only [List.map_nil, run, finish?_move]
    rfl
  | cons l rest ih =>
    simp only [List.map_cons, run, Lexeme.tok_move, finish?_move, step_move]
    split_ifs
    · rfl
    · cases step s l with
      | ok s => exact ih s
      | error e => rfl

/-- The end of file that is added to tokens has the place of one of them. -/
theorem impliedEnd_move (file : String) {tokens : List Lexeme} (nonempty : tokens ≠ []) :
    impliedEnd file (tokens.map (Lexeme.move f)) = (impliedEnd file tokens).move f := by
  simp [impliedEnd, Lexeme.move, List.getLast?_map, List.getLast?_eq_some_getLast nonempty]

theorem parseTokens_move (file : String) {tokens : List Lexeme} (nonempty : tokens ≠ []) :
    parseTokens file (tokens.map (Lexeme.move f)) = (parseTokens file tokens).move f := by
  unfold parseTokens
  rw [impliedEnd_move file nonempty, ← run_move]
  rfl

theorem Parsed.result_move (r : Parsed) :
    (r.move f).result = carry (Error.move f) (Program.move f) r.result := by
  obtain ⟨p, fault⟩ := r
  cases fault <;> rfl

end StackLang.Source
