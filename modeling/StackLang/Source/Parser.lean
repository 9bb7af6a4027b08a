import StackLang.Program
import StackLang.Source.Scanner
/-!
Programs from tokens. The parser takes the tokens one after another; what it has begun and not
finished is a declaration head or a stack of open blocks. The first token that cannot go on stops
it, and the declarations completed before that stay.
-/

namespace StackLang.Source

/-- A block that is being read: its place, which is that of the token after its opening and so
unknown at first, and its instructions, the last one in front. -/
structure OpenBlock where
  pos : Option Pos := none
  reversed : List Instr := []

namespace OpenBlock

/-- Settles the place of a block at the first token after its opening. -/
def settle (b : OpenBlock) (pos : Pos) : OpenBlock :=
  { b with pos := some (b.pos.getD pos) }

def push (b : OpenBlock) (x : Instr) : OpenBlock :=
  { b with reversed := x :: b.reversed }

def close (b : OpenBlock) : Block :=
  .mk (b.pos.getD Pos.none) b.reversed.reverse

end OpenBlock

/-- The finished part of a conditional: its place, condition, body and further arms, the last arm
in front. -/
structure Branch where
  pos : Pos
  cond : Block
  body : Block
  arms : List Arm := []

/-- A conditional or loop with one block still open. -/
inductive Frame where
  | ifCondition (pos : Pos)
  | ifBody (pos : Pos) (cond : Block)
  | elifCondition (head : Branch) (pos : Pos)
  | elifBody (head : Branch) (pos : Pos) (cond : Block)
  | elseBody (head : Branch)
  | whileCondition (pos : Pos)
  | whileBody (pos : Pos) (cond : Block)

/-- The part of the program that the open block of a frame is. -/
def Frame.region : Frame → Region
  | .ifCondition _ => .ifCondition
  | .ifBody _ _ => .ifBody
  | .elifCondition _ _ => .elifCondition
  | .elifBody _ _ _ => .elifBody
  | .elseBody _ => .elseBody
  | .whileCondition _ => .whileCondition
  | .whileBody _ _ => .whileBody

/-- An open construct and the block around it, which waits for it. -/
structure Level where
  frame : Frame
  outer : OpenBlock

/-- A declaration whose name has been read. -/
structure Head where
  kind : DeclKind
  pos : Pos
  name : String
  namePos : Pos

/-- What the parser is in the middle of. `body` holds the open constructs around the open block,
the innermost one in front. -/
inductive Phase where
  | top
  | name (kind : DeclKind) (pos : Pos)
  | named (head : Head)
  | sized (head : Head) (size : Int64)
  | body (head : Head) (levels : List Level) (block : OpenBlock)

/-- The parser between two tokens. -/
structure State where
  program : Program
  phase : Phase := .top

def plainOp? (l : Lexeme) : Option Op :=
  match l.tok with
  | .int => some (.pushInt l.value)
  | .str => some (.pushStr l.str l.lit)
  | .name => some (.ident l.lit)
  | .load => some (.load l.width)
  | .store => some (.store l.width)
  | .syscall => some (.syscall l.argc)
  | .operator o => some (.binary (.operator o))
  | .keyword .pop => some .pop
  | .keyword .dup => some .dup
  | .keyword .swap => some .swap
  | .keyword .over => some .over
  | .keyword .rot => some .rot
  | .keyword .pick => some .pick
  | .keyword .put => some .put
  | .keyword .size => some .size
  | .keyword .returnWord => some .ret
  | _ => none

def opensInstr (l : Lexeme) : Bool :=
  (plainOp? l).isSome || l.tok = .keyword .ifWord || l.tok = .keyword .whileWord

/-- The kind of declaration that a word begins. -/
def declKind? : Token → Option DeclKind
  | .keyword .procWord => some .proc
  | .keyword .inlineWord => some .inline
  | .keyword .memoryWord => some .memory
  | _ => none

/-- Completes a procedure or inline. A procedure whose last instruction does not leave it gets one
that does, at the place of its closing word. -/
def finishRoutine (head : Head) (body : Block) (endPos : Pos) : Decl :=
  match head.kind with
  | .proc =>
    let body := if body.lastIsReturn then body
      else body.withInstrs (body.instrs ++ [.op endPos .ret])
    .proc { name := head.name, pos := head.pos, namePos := head.namePos, body }
  | _ => .inline { name := head.name, pos := head.pos, namePos := head.namePos, body }

/-- The instruction of a conditional whose parts are complete. -/
def Branch.instr (h : Branch) (otherwise : Block) : Instr :=
  .branch h.pos h.cond h.body h.arms.reverse otherwise

/-- What a structural word does to the open block of a frame: it may close the block and open
the next one of the same construct, or complete the construct. -/
inductive Closing where
  | reopen (frame : Frame)
  | done (x : Instr)

/-- The effect of a word on the innermost open construct, if it closes its block. -/
def closing? (frame : Frame) (block : Block) (pos : Pos) (k : Keyword) : Option Closing :=
  match frame, k with
  | .ifCondition p, .doWord => some (.reopen (.ifBody p block))
  | .ifBody p c, .elifWord => some (.reopen (.elifCondition ⟨p, c, block, []⟩ pos))
  | .ifBody p c, .elseWord => some (.reopen (.elseBody ⟨p, c, block, []⟩))
  | .ifBody p c, .endWord => some (.done (Branch.instr ⟨p, c, block, []⟩ .absent))
  | .elifCondition h p, .doWord => some (.reopen (.elifBody h p block))
  | .elifBody h p c, .elifWord =>
    some (.reopen (.elifCondition { h with arms := .mk p c block :: h.arms } pos))
  | .elifBody h p c, .elseWord =>
    some (.reopen (.elseBody { h with arms := .mk p c block :: h.arms }))
  | .elifBody h p c, .endWord =>
    some (.done (Branch.instr { h with arms := .mk p c block :: h.arms } .absent))
  | .elseBody h, .endWord => some (.done (h.instr block))
  | .whileCondition p, .doWord => some (.reopen (.whileBody p block))
  | .whileBody p c, .endWord => some (.done (.loop p c block))
  | _, _ => none

/-- Takes a token that does not close the open block: an instruction, or the opening of one. -/
def enter (head : Head) (levels : List Level) (block : OpenBlock) (l : Lexeme) :
    Except Error Phase :=
  match plainOp? l with
  | some o => .ok (.body head levels (block.push (.op l.pos o)))
  | none =>
    let nest (frame : Frame) : Except Error Phase :=
      if levels.length < maxNesting then .ok (.body head (⟨frame, block⟩ :: levels) {})
      else .error ⟨l.pos, .tooDeep⟩
    if l.tok = .keyword .ifWord then nest (.ifCondition l.pos)
    else if l.tok = .keyword .whileWord then nest (.whileCondition l.pos)
    else if (declKind? l.tok).isSome then .error ⟨l.pos, .nestedDeclaration l.tok⟩
    else .error ⟨l.pos, .unexpected l⟩

def stepBody (p : Program) (head : Head) (levels : List Level) (block : OpenBlock) (l : Lexeme) :
    Except Error State :=
  let block := block.settle l.pos
  match levels, l.tok with
  | [], .keyword .endWord =>
    (p.declare (finishRoutine head block.close l.pos)).map fun p => ⟨p, .top⟩
  | ⟨frame, outer⟩ :: levels', .keyword k =>
    match closing? frame block.close l.pos k with
    | some (.reopen frame) => .ok ⟨p, .body head (⟨frame, outer⟩ :: levels') {}⟩
    | some (.done x) => .ok ⟨p, .body head levels' (outer.push x)⟩
    | none => (enter head levels block l).map (⟨p, ·⟩)
  | _, _ => (enter head levels block l).map (⟨p, ·⟩)

/-- Takes the token after a declared name. An inline may leave out the word before its body. -/
def stepNamed (p : Program) (head : Head) (l : Lexeme) : Except Error State :=
  match head.kind with
  | .proc =>
    if l.tok = .keyword .doWord then .ok ⟨p, .body head [] {}⟩
    else .error ⟨l.pos, .doExpected head.name l⟩
  | .inline =>
    if l.tok = .keyword .doWord then .ok ⟨p, .body head [] {}⟩
    else stepBody p head [] {} l
  | .memory =>
    if l.tok = .int ∧ 0 < l.value then .ok ⟨p, .sized head l.value⟩
    else .error ⟨l.pos, .sizeExpected head.name l⟩

/-- Takes one token that is not the end of the file. -/
def step (s : State) (l : Lexeme) : Except Error State :=
  let p := s.program
  match s.phase with
  | .top =>
    match declKind? l.tok with
    | some kind => .ok ⟨p, .name kind l.pos⟩
    | none =>
      if opensInstr l then .error ⟨l.pos, .instructionAtTop l⟩
      else .error ⟨l.pos, .unexpectedAtTop l⟩
  | .name kind pos =>
    if l.tok = .name then
      match p.nameTaken? l.lit pos with
      | some e => .error e
      | none => .ok ⟨p, .named ⟨kind, pos, l.lit, l.pos⟩⟩
    else .error ⟨l.pos, .nameExpected kind l⟩
  | .named head => stepNamed p head l
  | .sized head size =>
    if l.tok = .keyword .endWord then
      let memory : Memory := { name := head.name, pos := head.pos, namePos := head.namePos, size }
      (p.declare (.memory memory)).map fun p => ⟨p, .top⟩
    else .error ⟨l.pos, .memoryOpen head.name l⟩
  | .body head levels block => stepBody p head levels block l

/-- What is wrong, if anything, when the file ends here. -/
def finish? (s : State) (l : Lexeme) : Option Error :=
  match s.phase with
  | .top => if s.program.entry?.isSome then none else some ⟨l.pos, .noEntry⟩
  | .name kind _ => some ⟨l.pos, .nameExpected kind l⟩
  | .named head =>
    match head.kind with
    | .proc => some ⟨l.pos, .doExpected head.name l⟩
    | .inline => some ⟨l.pos, .blockOpen (.body .inline head.name)⟩
    | .memory => some ⟨l.pos, .sizeExpected head.name l⟩
  | .sized head _ => some ⟨l.pos, .memoryOpen head.name l⟩
  | .body head [] _ => some ⟨l.pos, .blockOpen (.body head.kind head.name)⟩
  | .body _ (level :: _) _ => some ⟨l.pos, .blockOpen level.frame.region⟩

/-- What parsing gives: the declarations that are complete, and the fault that stopped it. -/
structure Parsed where
  program : Program
  fault : Option Error

/-- Takes the tokens up to the first end of file. The last token is followed by `last`. -/
def run (last : Lexeme) : State → List Lexeme → Parsed
  | s, [] => ⟨s.program, finish? s last⟩
  | s, l :: rest =>
    if l.tok = .eof then ⟨s.program, finish? s l⟩
    else
      match step s l with
      | .ok s => run last s rest
      | .error e => ⟨s.program, some e⟩

/-- The end of file that follows tokens which do not hold one: at the place of the last token. -/
def impliedEnd (file : String) (tokens : List Lexeme) : Lexeme :=
  { tok := .eof, pos := (tokens.getLast?.map Lexeme.pos).getD ⟨file, 1, 1⟩ }

def parseTokens (file : String) (tokens : List Lexeme) : Parsed :=
  run (impliedEnd file tokens) ⟨{ file }, .top⟩ tokens

def Parsed.result (r : Parsed) : Except Error Program :=
  match r.fault with
  | some e => .error e
  | none => .ok r.program

/-- Divides a source text into tokens and parses them. -/
def parse (file : String) (bytes : List UInt8) : Except Error Program := do
  let tokens ← tokenize file bytes
  (parseTokens file tokens).result

end StackLang.Source
