import StackLang.Compile
import StackLang.Proofs.Pipeline
import StackLang.Proofs.Source.Spacing
import StackLang.Proofs.Target.Annotated
import StackLang.Proofs.Target.Resolution
/-!
Comments in the assembly of a source text. A name of a source text is on one line, and so is what
stands in a comment, since texts of strings are quoted there. Comments therefore change nothing but
the lines that they are.
-/

namespace StackLang

/-! ### Programs read from a source text -/

theorem Program.insert_file (p : Program) (d : Decl) : (p.insert d).file = p.file := by
  cases d <;> rfl

namespace Source

theorem step_file {s s' : State} {l : Lexeme} {ts : List Lexeme} (hs : s.Reads ts)
    (h : step s l = .ok s') : s'.program.file = s.program.file := by
  obtain ⟨_, us, vs, _, _, reads⟩ := hs
  cases step_advances reads h with
  | further => rfl
  | complete => exact s.program.insert_file _

theorem steps_file {s s' : State} {ts us : List Lexeme} (hs : s.Reads ts)
    (h : us.foldlM step s = .ok s') : s'.program.file = s.program.file := by
  induction us generalizing s ts with
  | nil =>
    cases h
    rfl
  | cons l us ih =>
    rw [List.foldlM_cons] at h
    obtain ⟨next, hl, h⟩ := bind_eq_ok.mp h
    exact (ih (step_reads hs hl) h).trans (step_file hs hl)

theorem parsed_file {file : String} {tokens : List Lexeme} {p : Program}
    (h : (parseTokens file tokens).result = .ok p) : p.file = file :=
  steps_file (initial_reads file) (parsed_iff.mp h).1

theorem DeclText.name_mem {d : Decl} {ts : List Lexeme} (h : DeclText d ts) :
    ∃ l ∈ ts, l.tok = .name ∧ l.lit = d.name := by
  cases h with
  | @proc _ word name mid closing _ _ ts _ named => exact ⟨name, by simp, named, rfl⟩
  | @inline _ word name closing _ _ mid ts _ named => exact ⟨name, by simp, named, rfl⟩
  | @memory _ word name size closing _ named => exact ⟨name, by simp, named, rfl⟩

theorem DeclsText.name_mem {ds : List Decl} {ts : List Lexeme} (h : DeclsText ds ts) {d : Decl}
    (hd : d ∈ ds) : ∃ l ∈ ts, l.tok = .name ∧ l.lit = d.name := by
  induction h with
  | nil => cases hd
  | snoc _ text ih =>
    rcases List.mem_append.mp hd with hd | hd
    · obtain ⟨l, hl, named⟩ := ih hd
      exact ⟨l, List.mem_append_left _ hl, named⟩
    · rw [List.mem_singleton.mp hd]
      obtain ⟨l, hl, named⟩ := text.name_mem
      exact ⟨l, List.mem_append_right _ hl, named⟩

theorem parsed_legible {file : String} {bytes : List UInt8} {tokens : List Lexeme} {p : Program}
    (ht : tokenize file bytes = .ok tokens) (hp : (parseTokens file tokens).result = .ok p) :
    p.Legible := by
  intro name known
  obtain ⟨d, hd⟩ := Option.isSome_iff_exists.mp known
  obtain ⟨coherent, text⟩ := parsed_reads hp
  obtain ⟨listed, rfl⟩ := coherent.mem_of_lookup hd
  obtain ⟨l, hl, named, spelled⟩ := text.name_mem listed
  obtain ⟨_, _, inside⟩ := (tokenize_faithful ht l hl).name_text named
  rw [← spelled]
  exact fun hm => inside '\n' hm rfl

end Source

/-! ### Passes -/

theorem andThen_eq_none {r : Progress × Option Failure} {g' : Progress}
    {f : Progress → Progress × Option Failure} :
    andThen r f = (g', none) ↔ ∃ g, r = (g, none) ∧ f g = (g', none) := by
  obtain ⟨g, _ | e⟩ := r <;> simp [andThen]

namespace Progress

variable {s : PassSettings} {g g' : Progress} {name : String}

theorem list_program {moment : Moment} {pattern : String}
    (h : g.list s moment pattern name = (g', none)) : g'.program = g.program := by
  unfold Progress.list at h
  split at h
  · split at h <;> cases h
    rfl
  · cases h
    rfl

theorem apply_program {pass : Pass} (h : g.apply pass = (g', none)) :
    pass.apply g.program = (g'.program, none) := by
  unfold Progress.apply at h
  cases applied : pass.apply g.program with
  | mk program failure =>
    cases failure <;> simp only [applied] at h <;> cases h
    rfl

/-- A pass that comes to its end has been applied to the program, and nothing else has. -/
theorem runPass_program {pass : Pass} (h : g.runPass s pass = (g', none)) :
    pass.apply g.program = (g'.program, none) := by
  obtain ⟨g₁, listed, h⟩ := andThen_eq_none.mp h
  obtain ⟨g₂, checked, h⟩ := andThen_eq_none.mp h
  obtain ⟨g₃, applied, h⟩ := andThen_eq_none.mp h
  obtain ⟨g₄, checked', h⟩ := andThen_eq_none.mp h
  obtain ⟨rfl, _⟩ := Prod.mk.inj checked
  obtain ⟨rfl, _⟩ := Prod.mk.inj checked'
  rw [← list_program listed, list_program h]
  exact apply_program applied

end Progress

theorem Program.Legible.mapProcs {p : Program} (h : p.Legible) (f : Routine → Routine) :
    (p.mapProcs f).Legible := by
  intro name known
  have same := Target.lookup_mapProcs (p := p) f name
  apply h name
  rw [← Option.not_isNone, ← same, Option.not_isNone]
  exact known

theorem runPasses_program {s : PassSettings} {p : Program} {g : Progress}
    (hv : p.violations false = []) (h : runPasses s usualPasses { program := p } = (g, none)) :
    g.program = p.mapProcs p.expandProc := by
  obtain ⟨g', ran, done⟩ := andThen_eq_none.mp h
  cases done
  have applied := Progress.runPass_program ran
  cases hc : p.checkCycles with
  | error c =>
    rw [inlinePass_of_cycle hc] at applied
    cases applied
  | ok u =>
    cases u
    rw [inlinePass_of_acyclic hv hc] at applied
    exact (Prod.mk.inj applied).1.symm

/-! ### Compilation -/

def CompileSettings.commented (s : CompileSettings) (comments : Bool) : CompileSettings :=
  { s with target := { s.target with comments } }

def Compiled.withoutRemarks (c : Compiled) : Compiled :=
  { c with assembly := Target.withoutRemarks c.assembly }

theorem passes_legible (s : CompileSettings) {file : String} {bytes : List UInt8}
    {tokens : List Lexeme} {p : Program} {g : Progress}
    (ht : Source.tokenize file bytes = .ok tokens)
    (hp : (Source.parseTokens file tokens).result = .ok p)
    (h : runPasses s.passes (if s.skipInline then [] else usualPasses) { program := p } =
      (g, none)) : g.program.Legible ∧ g.program.file = file := by
  have legible := Source.parsed_legible ht hp
  have named := Source.parsed_file hp
  split at h
  · cases h
    exact ⟨legible, named⟩
  · rw [runPasses_program (Source.parsed_violations ht hp) h]
    exact ⟨legible.mapProcs _, named⟩

/-- Comments change nothing but the lines that they are. Compiling with and without them fails for
the same reason or succeeds alike, and the assembly without them is the commented one less the lines
whose first character other than a space is a semicolon. -/
theorem compile_comments_inert (s : CompileSettings) {file : String} (bytes : List UInt8)
    (line : '\n' ∉ file.toList) :
    compile (s.commented false) file bytes =
      (compile (s.commented true) file bytes).map (Except.map Compiled.withoutRemarks) id := by
  unfold compile
  cases ht : Source.tokenize file bytes with
  | error e => rfl
  | ok tokens =>
    simp only [compileLexemes]
    cases hp : (Source.parseTokens file tokens).result with
    | error e => rfl
    | ok p =>
      have same (b : Bool) : runPasses (s.commented b).passes
          (if (s.commented b).skipInline then [] else usualPasses) { program := p } =
            runPasses s.passes (if s.skipInline then [] else usualPasses) { program := p } := rfl
      rcases ran : runPasses s.passes (if s.skipInline then [] else usualPasses) { program := p }
        with ⟨g, _ | f⟩
      · obtain ⟨legible, named⟩ := passes_legible s ht hp ran
        have silent : g.program.assemble (s.commented false).target =
            (g.program.assemble (s.commented true).target).map Target.withoutRemarks :=
          Target.assemble_silent (s.commented true).target legible (named ▸ line)
        simp only [same, ran, silent]
        cases g.program.assemble (s.commented true).target <;> rfl
      · simp only [same, ran]
        rfl

/-- A source text with a line feed and a quote in a string, and a semicolon in a name. -/
def bristling : List UInt8 :=
  Text.bytesOf "memory m; 8 end proc main do \"\\\"\n; ret\" pop pop while 0 do m; pop end end"

def bristlingRemarks : List Target.Line :=
  [.remark ";f", .comment "PushStr(\"\\\\\\\"\\n; ret\")", .comment "Pop", .comment "Pop",
   .comment "while", .comment "PushInt(0)", .comment "Ident(m;)", .comment "Pop", .comment "Return",
   .remark "\"\\\"\\n; ret\""]

theorem bristling_comments : '\n' ∉ ";f".toList ∧
    ∃ c, (compile (CompileSettings.commented {} true) ";f" bristling).1 = .ok c ∧
      (Target.generate c.program { comments := true }).toOption.map
        (List.filter Target.Line.isRemark) = some bristlingRemarks ∧
      (compile (CompileSettings.commented {} false) ";f" bristling).1 = .ok c.withoutRemarks := by
  have line : '\n' ∉ ";f".toList := by decide
  have run : ((compile (CompileSettings.commented {} true) ";f" bristling).1.toOption.map fun c =>
      (Target.generate c.program { comments := true }).toOption.map
        (List.filter Target.Line.isRemark)) = some (some bristlingRemarks) := by decide +kernel
  obtain ⟨c, done, remarks⟩ := Option.map_eq_some_iff.mp run
  have success : (compile (CompileSettings.commented {} true) ";f" bristling).1 = .ok c := by
    cases h : (compile (CompileSettings.commented {} true) ";f" bristling).1 <;> rw [h] at done <;>
      cases done
    rfl
  refine ⟨line, c, success, remarks, ?_⟩
  rw [compile_comments_inert {} bristling line, Prod.map_fst, success]
  rfl

end StackLang
