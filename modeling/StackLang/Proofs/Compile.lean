import StackLang.Compile
import StackLang.Proofs.Pipeline
import StackLang.Proofs.Target.Splicing
/-!
Compilation with and without the pass that expands inlines.
-/

namespace StackLang

theorem runPasses_cycle {s : PassSettings} {p : Program} {c : Cycle} (silent : s.Silent)
    (hv : p.violations false = []) (hc : p.checkCycles = .error c) :
    (runPasses s usualPasses { program := p }).2 = some (.cycle c) := by
  rw [runPasses_eq_apply silent hv, Progress.apply, inlinePass_of_cycle hc]

theorem runPasses_expanded {s : PassSettings} {p : Program} (silent : s.Silent)
    (hv : p.violations false = []) (hc : p.checkCycles = .ok ()) :
    runPasses s usualPasses { program := p } =
      ({ program := p.mapProcs p.expandProc, applied := [inlinePassName], expanded := true },
        none) := by
  rw [runPasses_eq_apply silent hv, Progress.apply, inlinePass_of_acyclic hv hc]
  rfl

theorem generate_cycle {p : Program} {s : Target.Settings} {c : Cycle}
    (depth : 0 ≤ s.depth ∧ s.depth ≤ Target.maxDepth) (entry : p.entry?.isSome)
    (hc : p.checkCycles = .error c) : Target.generate p s = .error (.fault (.cycle c)) := by
  rw [Target.generate_of_entry depth entry, hc]

/-- The usual passes make no difference to the assembly. -/
theorem runPasses_assemble {s : PassSettings} {t : Target.Settings} {p : Program}
    (silent : s.Silent) (depth : 0 ≤ t.depth ∧ t.depth ≤ Target.maxDepth)
    (hv : p.violations false = []) :
    (match runPasses s usualPasses { program := p } with
      | (_, some f) => .error f
      | (g, none) => g.program.assemble t) = p.assemble t := by
  obtain ⟨entry, _, _⟩ := Program.violations_eq_nil_iff.mp hv
  cases hc : p.checkCycles with
  | error c =>
    rw [runPasses_eq_apply silent hv, Progress.apply, inlinePass_of_cycle hc, Program.assemble,
      generate_cycle depth entry hc]
    rfl
  | ok u =>
    cases u
    simp only [runPasses_expanded silent hv hc, Program.assemble, Target.generate_expanded hv hc]

/-- Compiling with the pass that expands inlines gives the same assembly, or fails for the same
reason, as leaving the inlines to the generator. -/
theorem compile_with_or_without_pass (s : CompileSettings) (file : String) (bytes : List UInt8)
    (silent : s.passes.Silent)
    (depth : 0 ≤ s.target.depth ∧ s.target.depth ≤ Target.maxDepth) :
    (compile { s with skipInline := false } file bytes).1.map Compiled.assembly =
      (compile { s with skipInline := true } file bytes).1.map Compiled.assembly := by
  unfold compile
  cases ht : Source.tokenize file bytes with
  | error e => rfl
  | ok tokens =>
    simp only [compileLexemes]
    cases hp : (Source.parseTokens file tokens).result with
    | error e => rfl
    | ok p =>
      have hv := Source.parsed_violations ht hp
      obtain ⟨entry, _, _⟩ := Program.violations_eq_nil_iff.mp hv
      simp only [Bool.false_eq_true, if_false, if_true, runPasses]
      cases hc : p.checkCycles with
      | error c =>
        have stopped := runPasses_cycle silent hv hc
        have refused := generate_cycle depth entry hc
        simp only [Program.assemble, refused, Failure.ofRefusal]
        split
        next g f hr =>
          rw [hr] at stopped
          cases stopped
          rfl
        next g hr =>
          rw [hr] at stopped
          cases stopped
      | ok u =>
        cases u
        rw [runPasses_expanded silent hv hc]
        simp only [Program.assemble, Target.generate_expanded hv hc]
        cases Target.generate p s.target <;> rfl

/-- An inline inside an inline, one of them below a condition, with the rules checked. -/
theorem compile_nested_inlines :
    let source := Text.bytesOf
      "inline one do 1 end inline two do one one + end proc main do if one do two put end end"
    (compile { skipInline := false, passes := { verify := true } } "f" source).1.map
        Compiled.assembly =
      (compile { skipInline := true, passes := { verify := true } } "f" source).1.map
        Compiled.assembly :=
  compile_with_or_without_pass { passes := { verify := true } } "f" _ (by decide) (by decide)

end StackLang
