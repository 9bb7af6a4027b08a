import StackLang.Pipeline
import StackLang.Proofs.Inline.Expanded
import StackLang.Proofs.Source.Products
/-!
The rules of a program are checked before and after the pass that expands inlines. For a program
read from a source text the checks never find anything, so the passes do the same with them and
without them.
-/

namespace StackLang

/-- Nothing is listed around the pass that expands inlines. -/
def PassSettings.Silent (s : PassSettings) : Prop :=
  wantsListing s.listBefore inlinePassName = false ∧ wantsListing s.listAfter inlinePassName = false
  deriving Decidable

theorem Progress.list_silent {s : PassSettings} {moment : Moment} {pattern name : String}
    (h : wantsListing pattern name = false) (g : Progress) :
    g.list s moment pattern name = (g, none) := by
  simp [Progress.list, h]

theorem Progress.check?_clean {s : PassSettings} {moment : Moment} {name : String} {g : Progress}
    (h : g.program.violations g.expanded = []) : g.check? s moment name = none := by
  simp [Progress.check?, h]

theorem inlinePass_name : inlinePass.name = inlinePassName := rfl

variable {p : Program}

theorem inlinePass_of_cycle {c : Cycle} (hc : p.checkCycles = .error c) :
    inlinePass.apply p = (p, some (.cycle c)) := by
  simp [inlinePass, Program.expandInlines, hc, Failure.ofHalt]

theorem inlinePass_of_acyclic (hv : p.violations false = []) (hc : p.checkCycles = .ok ()) :
    inlinePass.apply p = (p.mapProcs p.expandProc, none) := by
  obtain ⟨_, h, valid⟩ := Program.violations_eq_nil_iff.mp hv
  simp [inlinePass, h.expandInlines_eq (h.expandable hc valid) hc]

/-- Where nothing is listed and no rule is broken, the usual passes come to the expansion of
inlines, whether rules are checked or not. -/
theorem runPasses_eq_apply {s : PassSettings} (silent : s.Silent)
    (hv : p.violations false = []) :
    runPasses s usualPasses { program := p } = Progress.apply inlinePass { program := p } := by
  have before : Progress.check? s .before inlinePassName { program := p } = none :=
    Progress.check?_clean hv
  simp only [usualPasses, runPasses, Progress.runPass, inlinePass_name,
    Progress.list_silent silent.1, andThen, before, Progress.apply]
  cases hc : p.checkCycles with
  | error c => simp only [inlinePass_of_cycle hc]
  | ok u =>
    cases u
    have after : Progress.check? s .after inlinePassName
        { program := p.mapProcs p.expandProc, applied := [inlinePassName], expanded := true } =
        none :=
      Progress.check?_clean (p.violations_expanded hv hc)
    simp only [inlinePass_of_acyclic hv hc, beq_self_eq_true, Bool.or_true, List.nil_append, after,
      Progress.list_silent silent.2]

theorem Source.parse_violations {file : String} {bytes : List UInt8}
    (h : Source.parse file bytes = .ok p) : p.violations false = [] := by
  obtain ⟨tokens, ht, hp⟩ := bind_eq_ok.mp h
  exact Source.parsed_violations ht hp

/-- The checks find nothing in a program read from a source text, neither before nor after its
inlines are expanded. With checks the passes do what they do without, and all that can stop them is
the cycle that stops expansion. -/
theorem checks_never_fire {file : String} {bytes : List UInt8}
    (parsed : Source.parse file bytes = .ok p) :
    p.verify false = .ok () ∧
      (∀ q, p.expandInlines = (q, none) → q.verify true = .ok ()) ∧
      ∀ s : PassSettings, s.Silent →
        runPasses { s with verify := true } usualPasses { program := p } =
          runPasses { s with verify := false } usualPasses { program := p } ∧
        ∀ f, (runPasses { s with verify := true } usualPasses { program := p }).2 = some f →
          ∃ c, f = .cycle c ∧ p.expandInlines.2 = some (.cycle c) := by
  have hv := Source.parse_violations parsed
  obtain ⟨_, h, valid⟩ := Program.violations_eq_nil_iff.mp hv
  refine ⟨Program.verify_eq_ok_iff.mpr hv, ?_, ?_⟩
  · intro q expanded
    rw [Program.verify_eq_ok_iff]
    cases hc : p.checkCycles with
    | error c => simp [Program.expandInlines, hc] at expanded
    | ok u =>
      cases u
      rw [h.expandInlines_eq (h.expandable hc valid) hc] at expanded
      cases expanded
      exact p.violations_expanded hv hc
  · intro s silent
    have on := runPasses_eq_apply (s := { s with verify := true }) silent hv
    have off := runPasses_eq_apply (s := { s with verify := false }) silent hv
    refine ⟨on.trans off.symm, ?_⟩
    intro f hf
    rw [on, Progress.apply] at hf
    cases hc : p.checkCycles with
    | error c =>
      rw [inlinePass_of_cycle hc] at hf
      cases hf
      exact ⟨c, rfl, by simp [Program.expandInlines, hc]⟩
    | ok u =>
      cases u
      rw [inlinePass_of_acyclic hv hc] at hf
      cases hf

/-- A source text with two inlines that use each other, one of them inside a loop. -/
def knotted : List UInt8 :=
  Text.bytesOf "inline a while b do 1 !8 end end inline b a end proc main do a end"

theorem knotted_checks :
    ∃ p, Source.parse "f" knotted = .ok p ∧ p.verify false = .ok () ∧
      (runPasses { verify := true } usualPasses { program := p }).2 =
        some (.cycle ⟨⟨"f", 1, 43⟩, ["a", "b"]⟩) ∧
      p.expandInlines.2 = some (.cycle ⟨⟨"f", 1, 43⟩, ["a", "b"]⟩) := by
  have search : (Source.parse "f" knotted).map Program.checkCycles =
      .ok (.error ⟨⟨"f", 1, 43⟩, ["a", "b"]⟩) := by decide +kernel
  obtain ⟨p, parsed, cycle⟩ := map_eq_ok.mp search
  obtain ⟨rules, _, passes⟩ := checks_never_fire parsed
  have stops := runPasses_eq_apply (s := { verify := true }) (by decide)
    (Program.verify_eq_ok_iff.mp rules)
  rw [Progress.apply, inlinePass_of_cycle cycle] at stops
  obtain ⟨c, same, halts⟩ := (passes {} (by decide)).2 _ (congrArg Prod.snd stops)
  cases same
  exact ⟨p, parsed, rules, congrArg Prod.snd stops, halts⟩

end StackLang
