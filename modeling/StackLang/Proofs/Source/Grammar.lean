import StackLang.Code.Walk
import StackLang.Source.Parser
/-!
The grammar of programs, said without the parser: which tokens spell which instructions, blocks
and declarations.
-/

namespace StackLang

/-- The token that an instruction without parts is written as, with the payload it holds. -/
def Op.SpelledBy : Op → Lexeme → Prop
  | .pushInt v, l => l.tok = .int ∧ l.value = v
  | .pushStr v raw, l => l.tok = .str ∧ l.str = v ∧ l.lit = raw
  | .binary t, l => l.tok = t ∧ ∃ o, t = .operator o
  | .pop, l => l.tok = .keyword .pop
  | .dup, l => l.tok = .keyword .dup
  | .swap, l => l.tok = .keyword .swap
  | .over, l => l.tok = .keyword .over
  | .rot, l => l.tok = .keyword .rot
  | .pick, l => l.tok = .keyword .pick
  | .put, l => l.tok = .keyword .put
  | .size, l => l.tok = .keyword .size
  | .ret, l => l.tok = .keyword .returnWord
  | .load w, l => l.tok = .load ∧ l.width = w
  | .store w, l => l.tok = .store ∧ l.width = w
  | .syscall n, l => l.tok = .syscall ∧ l.argc = n
  | .ident name, l => l.tok = .name ∧ l.lit = name

theorem Instr.nodesList_append (enter : Node → Bool) (xs ys : List Instr) :
    Instr.nodesList enter (xs ++ ys) =
      Instr.nodesList enter xs ++ Instr.nodesList enter ys := by
  induction xs with
  | nil => rfl
  | cons x xs ih => simp [Instr.nodesList, ih]

namespace Source

/-- The parts of a body that have a spelling of their own. A tail is what follows the body of a
conditional: its further arms, its else block if there is one, and its closing word. -/
inductive Part where
  | block (xs : List Instr)
  | instr (x : Instr)
  | tail (arms : List Arm) (otherwise : Block)

/-- What a part of a body holds, in the order in which it is written. -/
def Part.nodes : Part → List Node
  | .block xs => Instr.nodesList (fun _ => true) xs
  | .instr x => x.nodes fun _ => true
  | .tail arms otherwise => Arm.nodesList (fun _ => true) arms ++ otherwise.nodes fun _ => true

/-- The tokens of a part of a body in which conditionals and loops nest at most `n` deep. -/
inductive Spells : Nat → Part → List Lexeme → Prop
  | nil {n : Nat} : Spells n (.block []) []
  | cons {n : Nat} {x : Instr} {xs : List Instr} {ts us : List Lexeme} :
      Spells n (.instr x) ts → Spells n (.block xs) us → Spells n (.block (x :: xs)) (ts ++ us)
  | plain {n : Nat} {o : Op} {l : Lexeme} : o.SpelledBy l → Spells n (.instr (.op l.pos o)) [l]
  | branch {n : Nat} {opening mid : Lexeme} {p q : Pos} {c b : List Instr} {arms : List Arm}
      {otherwise : Block} {cs bs ts : List Lexeme} :
      opening.tok = .keyword .ifWord → Spells n (.block c) cs → mid.tok = .keyword .doWord →
      Spells n (.block b) bs → Spells n (.tail arms otherwise) ts →
      Spells (n + 1) (.instr (.branch opening.pos (.mk p c) (.mk q b) arms otherwise))
        (opening :: cs ++ mid :: bs ++ ts)
  | loop {n : Nat} {opening mid closing : Lexeme} {p q : Pos} {c b : List Instr}
      {cs bs : List Lexeme} :
      opening.tok = .keyword .whileWord → Spells n (.block c) cs → mid.tok = .keyword .doWord →
      Spells n (.block b) bs → closing.tok = .keyword .endWord →
      Spells (n + 1) (.instr (.loop opening.pos (.mk p c) (.mk q b)))
        (opening :: cs ++ mid :: bs ++ [closing])
  | close {n : Nat} {closing : Lexeme} :
      closing.tok = .keyword .endWord → Spells n (.tail [] .absent) [closing]
  | otherwise {n : Nat} {opening closing : Lexeme} {p : Pos} {xs : List Instr}
      {ts : List Lexeme} :
      opening.tok = .keyword .elseWord → Spells n (.block xs) ts →
      closing.tok = .keyword .endWord →
      Spells n (.tail [] (.mk p xs)) (opening :: ts ++ [closing])
  | arm {n : Nat} {opening mid : Lexeme} {p q : Pos} {c b : List Instr} {arms : List Arm}
      {otherwise : Block} {cs bs ts : List Lexeme} :
      opening.tok = .keyword .elifWord → Spells n (.block c) cs → mid.tok = .keyword .doWord →
      Spells n (.block b) bs → Spells n (.tail arms otherwise) ts →
      Spells n (.tail (.mk opening.pos (.mk p c) (.mk q b) :: arms) otherwise)
        (opening :: cs ++ mid :: bs ++ ts)

/-- The instructions of a procedure: those written, and a return at the closing word unless the
last one written is a return already. -/
def returning (closing : Pos) (xs : List Instr) : List Instr :=
  if xs.getLast?.any Instr.isReturn then xs else xs ++ [.op closing .ret]

/-- The tokens of a declaration. -/
inductive DeclText : Decl → List Lexeme → Prop
  | proc {s : Nat} {word name mid closing : Lexeme} {p : Pos} {xs : List Instr}
      {ts : List Lexeme} :
      word.tok = .keyword .procWord → name.tok = .name → mid.tok = .keyword .doWord →
      Spells maxNesting (.block xs) ts → closing.tok = .keyword .endWord →
      DeclText
        (.proc { serial := s, name := name.lit, pos := word.pos, namePos := name.pos,
                 body := .mk p (returning closing.pos xs) })
        (word :: name :: mid :: ts ++ [closing])
  | inline {s : Nat} {word name closing : Lexeme} {p : Pos} {xs : List Instr}
      {mid ts : List Lexeme} :
      word.tok = .keyword .inlineWord → name.tok = .name →
      (mid = [] ∨ ∃ l, l.tok = .keyword .doWord ∧ mid = [l]) →
      Spells maxNesting (.block xs) ts → closing.tok = .keyword .endWord →
      DeclText
        (.inline { serial := s, name := name.lit, pos := word.pos, namePos := name.pos,
                   body := .mk p xs })
        (word :: name :: mid ++ ts ++ [closing])
  | memory {s : Nat} {word name size closing : Lexeme} :
      word.tok = .keyword .memoryWord → name.tok = .name → size.tok = .int → 0 < size.value →
      closing.tok = .keyword .endWord →
      DeclText
        (.memory { serial := s, name := name.lit, pos := word.pos, namePos := name.pos,
                   size := size.value })
        [word, name, size, closing]

/-- The tokens of declarations one after another. -/
inductive DeclsText : List Decl → List Lexeme → Prop
  | nil : DeclsText [] []
  | snoc {ds : List Decl} {d : Decl} {ts us : List Lexeme} :
      DeclsText ds ts → DeclText d us → DeclsText (ds ++ [d]) (ts ++ us)

/-- Token sequences that are programs: declarations of different names, one of which is the
procedure in which programs start. -/
def Sentence (ts : List Lexeme) : Prop :=
  ∃ ds, DeclsText ds ts ∧ (ds.map Decl.name).Nodup ∧
    ∃ r, .proc r ∈ ds ∧ r.name = entryPoint

/-- The tokens before the first end of file. -/
def beforeEnd (tokens : List Lexeme) : List Lexeme :=
  tokens.takeWhile fun l => l.tok ≠ .eof

theorem plainOp?_eq_some_iff {l : Lexeme} {o : Op} : plainOp? l = some o ↔ o.SpelledBy l := by
  unfold plainOp?
  constructor
  · intro h
    split at h <;> cases h <;> simp_all [Op.SpelledBy]
  · intro h
    cases o <;> simp only [Op.SpelledBy] at h
    case binary t =>
      obtain ⟨ht, o, rfl⟩ := h
      simp [ht]
    all_goals simp [h]

theorem declKind?_eq_some_iff {t : Token} {kind : DeclKind} : declKind? t = some kind ↔
    t = match kind with
      | .proc => .keyword .procWord
      | .inline => .keyword .inlineWord
      | .memory => .keyword .memoryWord := by
  unfold declKind?
  constructor
  · intro h
    split at h <;> cases h <;> rfl
  · rintro rfl
    cases kind <;> rfl

theorem returning_last (closing : Pos) (xs : List Instr) :
    (returning closing xs).getLast?.any Instr.isReturn := by
  unfold returning
  split
  next h => exact h
  next => simp [Instr.isReturn]

/-- The return that is added to a procedure is one node more. -/
theorem nodes_returning (closing : Pos) (xs : List Instr) :
    (Part.block (returning closing xs)).nodes = (Part.block xs).nodes ∨
      (Part.block (returning closing xs)).nodes =
        (Part.block xs).nodes ++ [.instr (.op closing .ret)] := by
  unfold returning
  split
  next => exact .inl rfl
  next =>
    refine .inr ?_
    simp only [Part.nodes, Instr.nodesList_append, Instr.nodesList, Instr.nodes, List.append_nil]

/-- One more instruction at the end of a block. -/
theorem Spells.snoc {n : Nat} {x : Instr} {xs : List Instr} {ts us : List Lexeme}
    (h : Spells n (.block xs) ts) (hx : Spells n (.instr x) us) :
    Spells n (.block (xs ++ [x])) (ts ++ us) := by
  induction xs generalizing ts with
  | nil =>
    cases h
    simpa using Spells.cons hx .nil
  | cons y ys ih =>
    cases h with
    | cons hy hys =>
      rw [List.append_assoc]
      exact .cons hy (ih hys)

end Source

end StackLang
