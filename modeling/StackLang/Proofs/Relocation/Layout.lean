import StackLang.Proofs.Compile
import StackLang.Proofs.Relocation.Generation
import StackLang.Proofs.Relocation.Parsing
import StackLang.Proofs.Target.Resolution
/-!
Source texts that differ in layout only: their tokens are the same but for their places. They have
the same assembly, or fail for the same reason at corresponding tokens.
-/

namespace StackLang

/-- Two tokens that differ at most in their place. -/
def Lexeme.Alike (l l' : Lexeme) : Prop :=
  { l with pos := l'.pos } = l'
  deriving Decidable

namespace Failure

/-- The place that a failure of a source text names. -/
def pos? : Failure → Option Pos
  | .source e => some e.pos
  | .cycle c => some c.pos
  | .generation pos _ => some pos
  | _ => none

/-- Failures of a source text for the same reason: faults of the same kind, cycles with the same
chain, or refusals of the generator with the same message. -/
inductive Alike : Failure → Failure → Prop
  | source {e e' : Source.Error} : e.cause.kind = e'.cause.kind → Alike (.source e) (.source e')
  | cycle {c c' : Cycle} : c.chain = c'.chain → Alike (.cycle c) (.cycle c')
  | generation {pos pos' : Pos} {cause cause' : Target.Cause} : cause.text = cause'.text →
      Alike (.generation pos cause) (.generation pos' cause')

theorem pos?_move (f : Pos → Pos) (failure : Failure) :
    (failure.move f).pos? = failure.pos?.map f := by
  cases failure <;> rfl

theorem alike_move (f g : Pos → Pos) {failure : Failure} (located : failure.pos?.isSome) :
    (failure.move f).Alike (failure.move g) := by
  cases failure with
  | source e => exact .source ((Source.Cause.kind_move _).trans (Source.Cause.kind_move _).symm)
  | cycle c => exact .cycle rfl
  | generation pos cause => exact .generation rfl
  | _ => cases located

end Failure

/-! ### The assembly of tokens -/

/-- The assembly of a list of tokens, without any pass. -/
def assembleTokens (s : Target.Settings) (file : String) (tokens : List Lexeme) :
    Except Failure String :=
  match (Source.parseTokens file tokens).result with
  | .error e => .error (.source e)
  | .ok p => p.assemble s

section

variable {s : Target.Settings} {tokens : List Lexeme}

theorem assembleTokens_move (f : Pos → Pos) (file : String)
    (depth : 0 ≤ s.depth ∧ s.depth ≤ Target.maxDepth) (nonempty : tokens ≠ []) :
    assembleTokens s file (tokens.map (Lexeme.move f)) =
      (assembleTokens s file tokens).mapError (Failure.move f) := by
  unfold assembleTokens
  rw [Source.parseTokens_move file nonempty, Source.Parsed.result_move]
  cases hp : (Source.parseTokens file tokens).result with
  | error e => rfl
  | ok p => exact Program.assemble_move depth (Source.parsed_iff.mp hp).2

/-- A failure names the place of a token. Otherwise its place could be moved while all tokens stay
where they are, and the same tokens would fail at two places. -/
theorem assembleTokens_error_at_token {file : String}
    (depth : 0 ≤ s.depth ∧ s.depth ≤ Target.maxDepth) (nonempty : tokens ≠ []) {e : Failure}
    {pos : Pos} (fails : assembleTokens s file tokens = .error e) (place : e.pos? = some pos) :
    ∃ l ∈ tokens, l.pos = pos := by
  let g (q : Pos) : Pos := if q ∈ tokens.map Lexeme.pos then q else { q with line := q.line + 1 }
  have stays : tokens.map (Lexeme.move g) = tokens := by
    refine (List.map_congr_left fun l hl => ?_).trans (List.map_id tokens)
    have fixed : g l.pos = l.pos := if_pos (List.mem_map_of_mem hl)
    rw [Lexeme.move, fixed, id]
  have again := assembleTokens_move g file depth nonempty
  rw [stays, fails] at again
  have fixed : e.pos?.map g = e.pos? := by
    rw [← Failure.pos?_move, ← Except.error.inj again]
  rw [place, Option.map_some, Option.some.injEq] at fixed
  by_contra absent
  have shifted : g pos = { pos with line := pos.line + 1 } := if_neg (by simpa using absent)
  have same := congrArg Pos.line (shifted.symm.trans fixed)
  exact Nat.succ_ne_self _ same

/-- All that can be wrong with the tokens of a text has a place. -/
theorem assembleTokens_located {file : String} {bytes : List UInt8}
    (depth : 0 ≤ s.depth ∧ s.depth ≤ Target.maxDepth)
    (ht : Source.tokenize file bytes = .ok tokens) {e : Failure}
    (fails : assembleTokens s file tokens = .error e) : e.pos?.isSome := by
  unfold assembleTokens at fails
  split at fails
  next => cases fails; rfl
  next p hp =>
    have hv := Source.parsed_violations ht hp
    obtain ⟨entry, _, _⟩ := Program.violations_eq_nil_iff.mp hv
    cases hc : p.checkCycles with
    | error c =>
      rw [Program.assemble, generate_cycle depth entry hc] at fails
      cases fails
      rfl
    | ok u =>
      cases u
      have outcome := Target.assemble_met hv hc depth
      split at outcome
      next =>
        obtain ⟨text, done⟩ := outcome
        rw [done] at fails
        cases fails
      next =>
        rw [outcome] at fails
        cases fails
        rfl

end

/-! ### Tokens that stand at their own index -/

/-- Tokens in which the number of every token is its line. -/
def numbered (tokens : List Lexeme) : List Lexeme :=
  tokens.mapIdx fun i l => { l with pos := ⟨"", i, 0⟩ }

/-- The place of the token whose number is given as a line. -/
def placeIn (tokens : List Lexeme) (pos : Pos) : Pos :=
  ((tokens[pos.line]?).map Lexeme.pos).getD default

/-- Tokens come from the numbered ones, also from those of tokens that stand at other places. -/
theorem numbered_move {tokens tokens' : List Lexeme}
    (alike : List.Forall₂ Lexeme.Alike tokens tokens') :
    (numbered tokens).map (Lexeme.move (placeIn tokens')) = tokens' := by
  apply List.ext_getElem
  · simp [numbered, alike.length_eq]
  · intro i hi hi'
    have same := alike.get (by simpa [numbered] using hi) hi'
    simp only [List.getElem_map, numbered, List.getElem_mapIdx, Lexeme.move, placeIn,
      List.getElem?_eq_getElem hi', Option.map_some, Option.getD_some]
    exact same

theorem placeIn_number {tokens : List Lexeme} {i : Nat} {l : Lexeme} (h : tokens[i]? = some l) :
    placeIn tokens ⟨"", i, 0⟩ = l.pos := by
  simp [placeIn, h]

/-- Numbered tokens fail at the number of a token. -/
theorem numbered_error_at_token {s : Target.Settings} {file : String} {tokens : List Lexeme}
    (depth : 0 ≤ s.depth ∧ s.depth ≤ Target.maxDepth) (nonempty : numbered tokens ≠ [])
    {e : Failure} (fails : assembleTokens s file (numbered tokens) = .error e)
    (located : e.pos?.isSome) : ∃ i < tokens.length, e.pos? = some ⟨"", i, 0⟩ := by
  obtain ⟨pos, place⟩ := Option.isSome_iff_exists.mp located
  obtain ⟨l, hl, rfl⟩ := assembleTokens_error_at_token depth nonempty fails place
  obtain ⟨i, hi, rfl⟩ := List.mem_mapIdx.mp hl
  exact ⟨i, hi, place⟩

/-! ### Texts with the same tokens -/

section

variable {s : CompileSettings} {file : String} {bytes : List UInt8} {tokens : List Lexeme}

theorem compile_assembly (silent : s.passes.Silent)
    (depth : 0 ≤ s.target.depth ∧ s.target.depth ≤ Target.maxDepth)
    (ht : Source.tokenize file bytes = .ok tokens) :
    (compile s file bytes).1.map Compiled.assembly = assembleTokens s.target file tokens := by
  rw [compile, ht]
  dsimp only
  rw [compileLexemes, assembleTokens]
  cases hp : (Source.parseTokens file tokens).result with
  | error e => rfl
  | ok p =>
    have passes := runPasses_assemble silent depth (Source.parsed_violations ht hp)
    dsimp only
    cases s.skipInline with
    | true =>
      simp only [if_true, runPasses]
      cases p.assemble s.target <;> rfl
    | false =>
      simp only [Bool.false_eq_true, if_false, ← passes]
      obtain ⟨g, failure⟩ := runPasses s.passes usualPasses { program := p }
      cases failure with
      | some f => rfl
      | none =>
        dsimp only
        cases g.program.assemble s.target <;> rfl

theorem tokenize_ne_nil (ht : Source.tokenize file bytes = .ok tokens) : tokens ≠ [] := by
  have laid := (Source.tokenize_laid ht).1
  generalize (Source.Cursor.start bytes).chars = text at laid
  cases laid <;> simp

end

/-- Layout makes no difference. Two texts whose tokens are the same but for their places have the
same assembly, or both fail for the same reason, each at its token of the same number. -/
theorem compile_ignores_layout {s : CompileSettings} {file : String} {bytes bytes' : List UInt8}
    {tokens tokens' : List Lexeme} (silent : s.passes.Silent)
    (depth : 0 ≤ s.target.depth ∧ s.target.depth ≤ Target.maxDepth)
    (ht : Source.tokenize file bytes = .ok tokens)
    (ht' : Source.tokenize file bytes' = .ok tokens')
    (alike : List.Forall₂ Lexeme.Alike tokens tokens') :
    (∃ c c', (compile s file bytes).1 = .ok c ∧ (compile s file bytes').1 = .ok c' ∧
      c.assembly = c'.assembly) ∨
    ∃ e e', (compile s file bytes).1 = .error e ∧ (compile s file bytes').1 = .error e' ∧
      e.Alike e' ∧ ∃ (i : Nat) (l l' : Lexeme), tokens[i]? = some l ∧ tokens'[i]? = some l' ∧
        e.pos? = some l.pos ∧ e'.pos? = some l'.pos := by
  have self : List.Forall₂ Lexeme.Alike tokens tokens := List.forall₂_same.mpr fun _ _ => rfl
  have nonempty : numbered tokens ≠ [] := by simpa [numbered] using tokenize_ne_nil ht
  have run := compile_assembly silent depth ht
  have run' := compile_assembly silent depth ht'
  -- both runs are the run on numbered tokens, moved to the places of the one or the other text
  have first := assembleTokens_move (placeIn tokens) file depth nonempty
  have second := assembleTokens_move (placeIn tokens') file depth nonempty
  rw [numbered_move self] at first
  rw [numbered_move alike] at second
  cases h : assembleTokens s.target file (numbered tokens) with
  | ok text =>
    rw [h] at first second
    obtain ⟨c, done, same⟩ := map_eq_ok.mp (run.trans first)
    obtain ⟨c', done', same'⟩ := map_eq_ok.mp (run'.trans second)
    exact .inl ⟨c, c', done, done', same.trans same'.symm⟩
  | error e =>
    rw [h] at first second
    have located : e.pos?.isSome := by
      simpa [Failure.pos?_move] using assembleTokens_located depth ht first
    obtain ⟨i, hi, place⟩ := numbered_error_at_token depth nonempty h located
    have hl : tokens[i]? = some tokens[i] := List.getElem?_eq_getElem hi
    have hi' : i < tokens'.length := alike.length_eq ▸ hi
    have hl' : tokens'[i]? = some tokens'[i] := List.getElem?_eq_getElem hi'
    refine .inr ⟨_, _, map_eq_error.mp (run.trans first), map_eq_error.mp (run'.trans second),
      Failure.alike_move _ _ located, i, _, _, hl, hl', ?_, ?_⟩
    · rw [Failure.pos?_move, place, Option.map_some, placeIn_number hl]
    · rw [Failure.pos?_move, place, Option.map_some, placeIn_number hl']

def crowded : List UInt8 :=
  Text.bytesOf "inline a lost end proc main do a end"

/-- The tokens of `crowded` on several lines, with a comment. -/
def spacious : List UInt8 :=
  Text.bytesOf "; draft\ninline a\n lost\nend\nproc main do a end"

theorem crowded_as_spacious : ∃ tokens tokens', Source.tokenize "f" crowded = .ok tokens ∧
    Source.tokenize "f" spacious = .ok tokens' ∧ List.Forall₂ Lexeme.Alike tokens tokens' ∧
    ∃ e e', (compile {} "f" crowded).1 = .error e ∧ (compile {} "f" spacious).1 = .error e' ∧
      e.Alike e' ∧ ∃ (i : Nat) (l l' : Lexeme), tokens[i]? = some l ∧ tokens'[i]? = some l' ∧
        l.pos = ⟨"f", 1, 10⟩ ∧ e.pos? = some l.pos ∧ e'.pos? = some l'.pos := by
  have texts : (do
      let tokens ← Source.tokenize "f" crowded
      let tokens' ← Source.tokenize "f" spacious
      return decide (List.Forall₂ Lexeme.Alike tokens tokens')) = .ok true := by decide +kernel
  obtain ⟨tokens, ht, texts⟩ := bind_eq_ok.mp texts
  obtain ⟨tokens', ht', alike⟩ := bind_eq_ok.mp texts
  have alike := of_decide_eq_true (Except.ok.inj alike)
  have refused : (compile {} "f" crowded).1.map Compiled.assembly =
      .error (.generation ⟨"f", 1, 10⟩ (.unknownName "lost")) := by decide +kernel
  refine ⟨tokens, tokens', ht, ht', alike, ?_⟩
  obtain ⟨c, _, done, _⟩ | ⟨e, e', fails, fails', same, i, l, l', hl, hl', place, place'⟩ :=
    compile_ignores_layout (s := {}) (by decide) (by decide) ht ht' alike
  · rw [done] at refused
    cases refused
  · have known := fails.symm.trans (map_eq_error.mp refused)
    cases known
    have spot : l.pos = ⟨"f", 1, 10⟩ := (Option.some.inj place).symm
    exact ⟨_, e', fails, fails', same, i, l, l', hl, hl', spot, place, place'⟩

end StackLang
