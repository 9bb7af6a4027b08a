import Mathlib.Data.List.Induction
import StackLang.Proofs.Source.Stopping
/-!
The declarations that a parse keeps, wherever it stops: those of the longest beginning of the tokens
that consists of whole declarations of different names.
-/

namespace StackLang.Source

/-- Whole declarations of different names. -/
def Whole (ts : List Lexeme) : Prop :=
  ∃ ds, DeclsText ds ts ∧ (ds.map Decl.name).Nodup

/-- The tokens `us` of the declarations that are complete before the first error: no longer
beginning of the tokens consists of whole declarations. -/
structure Completed (tokens us : List Lexeme) : Prop where
  beginning : us <+: beforeEnd tokens
  whole : Whole us
  longest : ∀ vs, vs <+: beforeEnd tokens → Whole vs → vs.length ≤ us.length

theorem Completed.unique {tokens us vs : List Lexeme} (hu : Completed tokens us)
    (hv : Completed tokens vs) : us = vs := by
  have most := hu.longest vs hv.beginning hv.whole
  have least := hv.longest us hu.beginning hu.whole
  exact (List.prefix_of_prefix_length_le hu.beginning hv.beginning least).eq_of_length
    (Nat.le_antisymm least most)

/-! ### The last place where no declaration is open -/

/-- The tokens `us` are those before the declaration that is being read after `ts`: behind no longer
beginning of `ts` is the parser between two declarations. -/
structure State.LastTop (file : String) (s : State) (ts us : List Lexeme) : Prop where
  beginning : us <+: ts
  finished : us.foldlM step ⟨{ file }, .top⟩ = .ok ⟨s.program, .top⟩
  last : ∀ ws p, ws <+: ts → ws.foldlM step ⟨{ file }, .top⟩ = .ok ⟨p, .top⟩ →
    ws.length ≤ us.length

theorem Phase.Reads.ne_top {phase : Phase} {ts : List Lexeme} {l : Lexeme}
    (h : phase.Reads (ts ++ [l])) : phase ≠ .top := by
  rintro rfl
  generalize hn : ts ++ [l] = all at h
  cases h
  simp at hn

theorem steps_lastTop {file : String} {ts : List Lexeme} {s : State}
    (h : ts.foldlM step ⟨{ file }, .top⟩ = .ok s) : ∃ us, s.LastTop file ts us := by
  induction ts using List.reverseRecOn generalizing s with
  | nil =>
    cases h
    refine ⟨[], List.prefix_rfl, rfl, ?_⟩
    intro ws p hw _
    exact hw.length_le
  | append_singleton ts l ih =>
    rw [List.foldlM_append] at h
    obtain ⟨before, hts, h⟩ := bind_eq_ok.mp h
    rw [List.foldlM_cons] at h
    obtain ⟨next, hl, h⟩ := bind_eq_ok.mp h
    cases h
    obtain ⟨_, vs, _, since⟩ := steps_since (since_start file) hts
    have all := foldlM_step_concat hts hl
    cases step_advances since.begun hl with
    | @further phase hv =>
      obtain ⟨us, beginning, finished, last⟩ := ih hts
      refine ⟨us, beginning.trans (List.prefix_append _ _), finished, ?_⟩
      intro ws p hw hp
      rcases List.prefix_concat_iff.mp hw with rfl | hw
      · rw [all] at hp
        cases hp
        exact absurd rfl hv.ne_top
      · exact last ws p hw hp
    | complete =>
      refine ⟨ts ++ [l], List.prefix_rfl, all, ?_⟩
      intro ws p hw _
      exact hw.length_le

/-! ### Where a run ends -/

/-- A run goes through the tokens up to the first one that it cannot take, and no longer beginning
can be taken. -/
theorem run_taken (last : Lexeme) (s : State) (tokens : List Lexeme) :
    ∃ ts s', ts <+: beforeEnd tokens ∧ ts.foldlM step s = .ok s' ∧
      (run last s tokens).program = s'.program ∧
      ∀ ws s'', ws <+: beforeEnd tokens → ws.foldlM step s = .ok s'' → ws.length ≤ ts.length := by
  induction tokens generalizing s with
  | nil =>
    refine ⟨[], s, List.nil_prefix, rfl, rfl, ?_⟩
    intro ws _ hw _
    exact hw.length_le
  | cons l rest ih =>
    by_cases hl : l.tok = .eof
    · have before : beforeEnd (l :: rest) = [] := by simp [beforeEnd, hl]
      rw [before, run, if_pos hl]
      refine ⟨[], s, List.nil_prefix, rfl, rfl, ?_⟩
      intro ws _ hw _
      exact hw.length_le
    · have before : beforeEnd (l :: rest) = l :: beforeEnd rest := by simp [beforeEnd, hl]
      rw [before, run, if_neg hl]
      cases hs : step s l with
      | error e =>
        refine ⟨[], s, List.nil_prefix, rfl, rfl, ?_⟩
        intro ws s'' hw hws
        rcases List.prefix_cons_iff.mp hw with rfl | ⟨vs, rfl, _⟩
        · exact Nat.le_refl _
        · simp [hs, bind, Except.bind] at hws
      | ok next =>
        obtain ⟨ts, s', beginning, taken, program, most⟩ := ih next
        refine ⟨l :: ts, s', List.cons_prefix_cons.mpr ⟨rfl, beginning⟩, ?_, program, ?_⟩
        · rw [List.foldlM_cons, hs]
          exact taken
        · intro ws s'' hw hws
          rcases List.prefix_cons_iff.mp hw with rfl | ⟨vs, rfl, hv⟩
          · exact Nat.zero_le _
          · rw [List.foldlM_cons, hs] at hws
            exact Nat.succ_le_succ (most vs s'' hv hws)

/-- A parse keeps the declarations of the longest beginning that consists of whole ones, whether it
stops there or goes on and fails later. -/
theorem parseTokens_completed (file : String) (tokens : List Lexeme) :
    ∃ us, Completed tokens us ∧ (parseTokens file tokens).program.Coherent ∧
      DeclsText (parseTokens file tokens).program.decls us := by
  obtain ⟨ts, s, beginning, taken, program, most⟩ :=
    run_taken (impliedEnd file tokens) ⟨{ file }, .top⟩ tokens
  obtain ⟨us, inside, finished, last⟩ := steps_lastTop taken
  obtain ⟨coherent, text⟩ := reads_top (steps_read (initial_reads file) finished)
  rw [← parseTokens] at program
  rw [program]
  refine ⟨us, ⟨inside.trans beginning, ⟨_, text, coherent.nodup⟩, ?_⟩, coherent, text⟩
  rintro vs hv ⟨ds, spelled, nodup⟩
  obtain ⟨p, hp, _⟩ := spelled.taken nodup file
  have short := most vs _ hv hp
  exact last vs p (List.prefix_of_prefix_length_le hv beginning short) hp

/-- Where a parse does not fail, all tokens before the end are those of complete declarations. -/
theorem completed_of_parsed {file : String} {tokens us : List Lexeme}
    (h : Completed tokens us) (ok : (parseTokens file tokens).fault = none) :
    us = beforeEnd tokens := by
  have parsed : (parseTokens file tokens).result = .ok (parseTokens file tokens).program := by
    simp [Parsed.result, ok]
  obtain ⟨coherent, text⟩ := parsed_reads parsed
  have all : Completed tokens (beforeEnd tokens) := by
    refine ⟨List.prefix_rfl, ⟨_, text, coherent.nodup⟩, ?_⟩
    intro vs hv _
    exact hv.length_le
  exact h.unique all

end StackLang.Source
