import StackLang.Proofs.Project.Places
import StackLang.Toolchain.Build
/-!
What a build does to the files. Of tools it is only asked that they write to no other file than
the one their arguments name; the build then leaves at most the executable behind and, if that was
asked for, its assembly, however it ends.
-/

namespace StackLang

/-! ### Tools -/

/-- The path that the arguments of a tool name for its output. -/
def outputOperand? : List String → Option String
  | [] => none
  | [_] => none
  | flag :: path :: rest =>
    if flag = "-o" then some path else outputOperand? (path :: rest)

/-- Tools that change at most the file that their arguments name for the output. -/
structure Tool.Confined (t : Tool) : Prop where
  cwd : ∀ w args, (t w args).workspace.cwd = w.cwd
  writes : ∀ w args place, (t w args).workspace.get? place ≠ w.get? place →
    (∃ path, outputOperand? args = some path ∧ w.locate path = .ok place) ∧
      w.get? place ≠ some .directory ∧ (t w args).workspace.get? place ≠ some .directory

def Toolbox.Confined (box : Toolbox) : Prop :=
  ∀ name tool, box name = some tool → tool.Confined

namespace Toolbox

/-- How tools end that are run one after another. -/
def outcomes (box : Toolbox) : Workspace → List Launch → List (Except ToolFailure String)
  | _, [] => []
  | w, l :: rest => (box.run w l).1 :: box.outcomes (box.run w l).2 rest

variable {box : Toolbox} {w : Workspace} {l : Launch}

theorem run_of_missing (h : box l.tool = none) : (box.run w l).2 = w := by
  have failed : ∃ reason, box.start w l = .error reason := by
    unfold start
    rw [h]
    dsimp only
    split
    · split <;> exact ⟨_, rfl⟩
    · exact ⟨_, rfl⟩
  obtain ⟨reason, failed⟩ := failed
  simp [run, failed]

theorem run_of_found {tool : Tool} (h : box l.tool = some tool) :
    (box.run w l).2 = (tool w l.args).workspace := by
  unfold run start
  rw [h]
  dsimp only
  split <;> rfl

/-- A run changes at most the file that the arguments name for the output. -/
theorem Confined.drift (confined : box.Confined) {scratch : String} {touched : Place → Prop}
    {path : String} (operand : outputOperand? l.args = some path)
    (leads : ∀ place, w.locate path = .ok place → place.head? ≠ some scratch → touched place) :
    Workspace.Drift scratch touched w (box.run w l).2 := by
  cases h : box l.tool with
  | none =>
    rw [run_of_missing h]
    exact .of_files rfl fun _ changed => absurd rfl changed
  | some tool =>
    have confined := confined _ _ h
    rw [run_of_found h]
    refine .of_files (confined.cwd w l.args) fun place changed outside => ?_
    obtain ⟨⟨path', operand', leads'⟩, files⟩ := confined.writes w l.args place changed
    cases operand.symm.trans operand'
    exact ⟨leads place leads' outside, files⟩

end Toolbox

/-! ### The files made on the way -/

namespace BuildSettings

variable {s : BuildSettings} {w : Workspace}

theorem scratch_fresh (s : BuildSettings) (w : Workspace) :
    (∃ n : Nat, s.scratch w = scratchStem ++ toString n) ∧
      s.scratch w ∉ Path.parts s.executable ∧ s.scratch w ∉ Path.parts s.keptAssembly ∧
      w.cwd.head? ≠ some (s.scratch w) ∧
      ∀ place, place.head? = some (s.scratch w) → w.get? place = none := by
  obtain ⟨name, fresh, cwd, free⟩ :=
    w.freshName_spec scratchStem (Path.parts s.executable ++ Path.parts s.keptAssembly)
  rw [List.mem_append, not_or] at fresh
  exact ⟨name, fresh.1, fresh.2, cwd, free⟩

/-- The files made on the way stand in the directory for them. -/
theorem scratchFile_place {ending : String} (spl : Path.ext s.source = Config.sourceEnding)
    (slash : '/' ∉ ending.toList) {c : Char} (hc : c ∈ ending.toList) (dot : c ≠ '.')
    {w' : Workspace} {place : Place}
    (h : w'.locate (s.scratchFile (s.scratch w) ending) = .ok place) :
    place.head? = some (s.scratch w) := by
  obtain ⟨⟨n, scratch⟩, _⟩ := s.scratch_fresh w
  have proper : Path.Proper (s.scratch w) := by
    refine Path.proper_of_mem (c := 's') ?_ (by decide)
    rw [scratch, String.toList_append]
    exact List.mem_append_left _ (by decide)
  have plain : '/' ∉ (s.scratch w).toList := by
    rw [scratch, String.toList_append, List.mem_append, not_or]
    refine ⟨by decide, fun digit => ?_⟩
    exact absurd (Target.isSymbolChar_repr digit) (by decide)
  unfold scratchFile at h
  have bare : '/' ∉ (Path.dropEnding (Path.base s.source) Config.sourceEnding).toList := by
    refine fun mem => Path.slash_not_mem_base ?_ (Path.toList_dropEnding_subset _ _ mem)
    rw [spl]
    decide
  generalize Path.dropEnding (Path.base s.source) Config.sourceEnding = name at bare h
  have plain' : '/' ∉ (name ++ ending).toList := by
    rw [String.toList_append, List.mem_append, not_or]
    exact ⟨bare, slash⟩
  have proper' : Path.Proper (name ++ ending) :=
    Path.proper_of_mem (String.toList_append ▸ List.mem_append_right _ hc) dot
  rw [Workspace.locate_below_root plain plain' proper proper' h]
  rfl

/-- The assembly that is kept and the executable stand at different places. -/
theorem keptAssembly_ne {place place' : Place} (h : w.locate s.executable = .ok place)
    (h' : w.locate s.keptAssembly = .ok place') : place' ≠ place :=
  Workspace.locate_append_ne (by decide) (c := 'a') (by decide) (by decide) h h'

/-- Before the tools are run, at most the assembly that is kept has changed, and it is there. -/
theorem prepare_drift {assembly : String} {ready : Workspace}
    (spl : Path.ext s.source = Config.sourceEnding) (h : s.prepare w assembly = .ok ready) :
    Workspace.Drift (s.scratch w)
        (fun place => s.keepAsm ∧ w.locate s.keptAssembly = .ok place) w ready ∧
      (s.keepAsm → ∃ place, w.locate s.keptAssembly = .ok place ∧
        ready.get? place = some (.file (Text.bytesOf assembly))) := by
  obtain ⟨_, _, aside, cwd, _⟩ := s.scratch_fresh w
  have made (touched : Place → Prop) : Workspace.Drift (s.scratch w) touched w
      (w.put [s.scratch w] .directory) := by
    refine .of_files rfl fun place changed outside => ?_
    refine absurd (Workspace.get?_put_of_ne ?_) changed
    rintro rfl
    exact outside rfl
  obtain ⟨place, leads, file, rfl⟩ := Workspace.write_eq_ok_iff.mp h
  unfold assemblyPath at leads
  split at leads
  next keep =>
    have leads := ((made fun _ => False).locate_iff cwd aside).mp leads
    refine ⟨(made _).trans (.put file fun _ => ⟨keep, leads⟩), fun _ => ⟨place, leads, ?_⟩⟩
    exact Workspace.get?_put_self (Workspace.ne_nil_of_get? file)
  next drop =>
    have inside := scratchFile_place spl (by decide) (c := 'a') (by decide) (by decide) leads
    refine ⟨(made _).trans (.put file fun outside => absurd inside outside), fun keep => ?_⟩
    exact absurd keep drop

end BuildSettings

/-! ### Builds -/

/-- What a build gets to before it runs a tool: the compiled source, and the workspace that the
assembler finds. -/
structure BuildSettings.Ready (s : BuildSettings) (w : Workspace) (c : Compiled)
    (ready : Workspace) : Prop where
  ending : Path.ext s.source = Config.sourceEnding
  compiled : ∃ bytes, w.read s.source = .ok bytes ∧
    (StackLang.compile s.compile s.source bytes).1 = .ok c
  prepared : s.prepare w c.assembly = .ok ready

namespace Toolbox

variable {box : Toolbox} {w : Workspace} {s : BuildSettings}

/-- The ways in which a build can go. -/
inductive Builds (box : Toolbox) (w : Workspace) (s : BuildSettings) : BuildReport → Prop
  | stopped {r : BuildReport} : (∀ c ready, ¬ s.Ready w c ready) → r.launches = [] →
      (∀ f, r.result ≠ .error (.tool f)) → r.workspace = w → Builds box w s r
  | unassembled {r : BuildReport} {c : Compiled} {ready after : Workspace} {f : ToolFailure} :
      s.Ready w c ready → box.run ready (s.assembling (s.scratch w)) = (.error f, after) →
      r.launches = [s.assembling (s.scratch w)] → r.result = .error (.tool f) →
      r.workspace = after.remove [s.scratch w] → Builds box w s r
  | assembled {r : BuildReport} {c : Compiled} {ready assembled after : Workspace}
      {printed : String} {outcome : Except ToolFailure String} :
      s.Ready w c ready → box.run ready (s.assembling (s.scratch w)) = (.ok printed, assembled) →
      box.run assembled (s.linking (s.scratch w)) = (outcome, after) →
      r.launches = [s.assembling (s.scratch w), s.linking (s.scratch w)] →
      (∀ f, r.result = .error (.tool f) ↔ outcome = .error f) →
      r.workspace = after.remove [s.scratch w] → Builds box w s r

theorem build_builds (box : Toolbox) (w : Workspace) (s : BuildSettings) :
    box.Builds w s (box.build w s) := by
  unfold build
  split
  next ending => exact .stopped (fun _ _ h => ending h.ending) rfl nofun rfl
  next ending =>
    split
    next e read =>
      refine .stopped (fun _ _ h => ?_) rfl nofun rfl
      obtain ⟨bytes, hb, _⟩ := h.compiled
      cases read.symm.trans hb
    next bytes read =>
      split
      next f listings compiled =>
        refine .stopped (fun _ _ h => ?_) rfl nofun rfl
        obtain ⟨bytes', hb, hc⟩ := h.compiled
        cases read.symm.trans hb
        rw [compiled] at hc
        cases hc
      next c listings compiled =>
        unfold assemble
        dsimp only
        split
        next e unwritten =>
          refine .stopped (fun c' _ h => ?_) rfl nofun rfl
          obtain ⟨bytes', hb, hc⟩ := h.compiled
          cases read.symm.trans hb
          rw [compiled] at hc
          cases hc
          cases unwritten.symm.trans h.prepared
        next ready prepared =>
          have ready : s.Ready w c ready :=
            ⟨not_not.mp ending, ⟨bytes, read, by rw [compiled]⟩, prepared⟩
          split
          next f after ran => exact .unassembled ready ran rfl rfl rfl
          next printed assembled ran =>
            split
            next f after linked =>
              exact .assembled ready ran linked rfl (fun _ => by simp) rfl
            next printed' after linked =>
              exact .assembled ready ran linked rfl (fun _ => by simp) rfl

/-- The assembler changes nothing outside the directory for the files made on the way. -/
theorem Confined.assembling_drift (confined : box.Confined)
    (spl : Path.ext s.source = Config.sourceEnding) (ready : Workspace)
    (touched : Place → Prop) : Workspace.Drift (s.scratch w) touched ready
      (box.run ready (s.assembling (s.scratch w))).2 := by
  have operand : outputOperand? (s.assembling (s.scratch w)).args =
      some (s.objectPath (s.scratch w)) := rfl
  refine confined.drift operand fun place leads outside => ?_
  exact absurd (BuildSettings.scratchFile_place spl (by decide) (c := 'o') (by decide) (by decide)
    leads) outside

/-- The linker changes at most the executable. -/
theorem Confined.linking_drift (confined : box.Confined) {touched : Place → Prop}
    {assembled : Workspace} (d : Workspace.Drift (s.scratch w) touched w assembled) :
    Workspace.Drift (s.scratch w) (fun place => w.locate s.executable = .ok place) assembled
      (box.run assembled (s.linking (s.scratch w))).2 := by
  obtain ⟨_, aside, _, cwd, _⟩ := s.scratch_fresh w
  have operand : outputOperand? (s.linking (s.scratch w)).args = some s.executable := rfl
  refine confined.drift operand fun place leads _ => ?_
  exact (d.locate_iff cwd aside).mp leads

end Toolbox

namespace BuildSettings

variable {s : BuildSettings} {w w' : Workspace}

theorem Ready.unique {c c' : Compiled} {ready ready' : Workspace} (h : s.Ready w c ready)
    (h' : s.Ready w c' ready') : c = c' ∧ ready = ready' := by
  obtain ⟨bytes, hb, hc⟩ := h.compiled
  obtain ⟨bytes', hb', hc'⟩ := h'.compiled
  cases hb.symm.trans hb'
  cases hc.symm.trans hc'
  cases h.prepared.symm.trans h'.prepared
  exact ⟨rfl, rfl⟩

/-- Without the directory for them, of the files made on the way nothing is left. -/
theorem touched_of_changed {touched : Place → Prop}
    (d : Workspace.Drift (s.scratch w) touched w w') {place : Place}
    (changed : (w'.remove [s.scratch w]).get? place ≠ w.get? place) : touched place := by
  obtain ⟨_, _, _, _, free⟩ := s.scratch_fresh w
  by_contra untouched
  refine changed ?_
  by_cases inside : place.head? = some (s.scratch w)
  · have below : [s.scratch w] <+: place := by
      obtain ⟨rest, rfl⟩ := List.head?_eq_some_iff.mp inside
      exact ⟨rest, rfl⟩
    rw [free place inside, Workspace.get?_remove (by simp), if_pos below]
  · exact d.remove.kept place inside untouched

/-- The assembly that is kept can be read at the end, as long as only the executable changes. -/
theorem Ready.read_keptAssembly {c : Compiled} {ready : Workspace} (h : s.Ready w c ready)
    (keep : s.keepAsm) (d : Workspace.Drift (s.scratch w)
      (fun place => w.locate s.executable = .ok place) ready w') :
    (w'.remove [s.scratch w]).read s.keptAssembly = .ok (Text.bytesOf c.assembly) := by
  obtain ⟨_, _, aside, cwd, _⟩ := s.scratch_fresh w
  obtain ⟨prepared, kept⟩ := prepare_drift h.ending h.prepared
  obtain ⟨place, leads, file⟩ := kept keep
  have outside := Workspace.locate_outside cwd aside leads
  have untouched : ¬ w.locate s.executable = .ok place :=
    fun leads' => keptAssembly_ne leads' leads rfl
  refine Workspace.read_eq_ok_iff.mpr ⟨place, ?_, ?_⟩
  · refine (d.remove.locate_iff ?_ aside).mpr ((prepared.locate_iff cwd aside).mpr leads)
    rwa [prepared.cwd]
  · rw [d.remove.kept place outside untouched, file]

end BuildSettings

/-- Whether a source gives no assembly: by its name, as a file, or as a text. -/
def BuildSettings.Rejected (s : BuildSettings) (w : Workspace) : Prop :=
  Path.ext s.source ≠ Config.sourceEnding ∨ (∃ e, w.read s.source = .error e) ∨
    ∃ bytes f, w.read s.source = .ok bytes ∧
      (StackLang.compile s.compile s.source bytes).1 = .error f

theorem BuildSettings.Ready.not_rejected {s : BuildSettings} {w ready : Workspace} {c : Compiled}
    (h : s.Ready w c ready) : ¬ s.Rejected w := by
  obtain ⟨bytes, read, compiled⟩ := h.compiled
  rintro (ending | ⟨e, unread⟩ | ⟨bytes', f, read', failed⟩)
  · exact ending h.ending
  · cases read.symm.trans unread
  · cases read.symm.trans read'
    cases compiled.symm.trans failed

namespace Toolbox.Builds

variable {box : Toolbox} {w : Workspace} {s : BuildSettings} {r : BuildReport}

/-- A build stops before it runs a tool, or the tools leave all as they found it but the executable
and the files made on the way. -/
theorem stops_or_runs (h : box.Builds w s r) (confined : box.Confined) :
    ((∀ c ready, ¬ s.Ready w c ready) ∧ r.launches = [] ∧ r.workspace = w) ∨
      ∃ c ready after, s.Ready w c ready ∧ r.workspace = after.remove [s.scratch w] ∧
        Workspace.Drift (s.scratch w) (fun place => w.locate s.executable = .ok place)
          ready after := by
  cases h with
  | stopped unready launches _ workspace => exact .inl ⟨unready, launches, workspace⟩
  | @unassembled c ready after f h ran launches result workspace =>
    refine .inr ⟨c, ready, after, h, workspace, ?_⟩
    have assembling := confined.assembling_drift (w := w) h.ending ready
      fun place => w.locate s.executable = .ok place
    rwa [ran] at assembling
  | @assembled c ready assembled after printed outcome h ran linked launches result workspace =>
    refine .inr ⟨c, ready, after, h, workspace, ?_⟩
    have assembling (touched : Place → Prop) :
        Workspace.Drift (s.scratch w) touched ready assembled := by
      have drift := confined.assembling_drift (w := w) h.ending ready touched
      rwa [ran] at drift
    have prepared := (BuildSettings.prepare_drift h.ending h.prepared).1
    have linking := confined.linking_drift (prepared.trans (assembling _))
    rw [linked] at linking
    exact (assembling _).trans linking

theorem changes (h : box.Builds w s r) (confined : box.Confined) {place : Place}
    (changed : r.workspace.get? place ≠ w.get? place) :
    w.locate s.executable = .ok place ∨ s.keepAsm ∧ w.locate s.keptAssembly = .ok place := by
  obtain ⟨_, _, workspace⟩ | ⟨c, ready, after, hr, workspace, ran⟩ := h.stops_or_runs confined
  · rw [workspace] at changed
    exact absurd rfl changed
  · rw [workspace] at changed
    have prepared := (BuildSettings.prepare_drift hr.ending hr.prepared).1
    have total : Workspace.Drift (s.scratch w) (fun place => w.locate s.executable = .ok place ∨
        s.keepAsm ∧ w.locate s.keptAssembly = .ok place) w after :=
      (prepared.mono fun _ => .inr).trans (ran.mono fun _ => .inl)
    exact BuildSettings.touched_of_changed total changed

/-- A build whose assembler fails does not get to the linker. -/
theorem unlinked (h : box.Builds w s r) (confined : box.Confined) {c : Compiled}
    {ready : Workspace} {f : ToolFailure} (hr : s.Ready w c ready)
    (failed : (box.run ready (s.assembling (s.scratch w))).1 = .error f) :
    r.launches = [s.assembling (s.scratch w)] ∧
      ∀ place, w.locate s.executable = .ok place → r.workspace.get? place = w.get? place := by
  cases h with
  | stopped unready => exact absurd hr (unready c ready)
  | @assembled _ ready' _ _ _ _ hr' ran =>
    cases (hr.unique hr').2
    rw [ran] at failed
    cases failed
  | @unassembled _ ready' after _ hr' ran launches _ workspace =>
    cases (hr.unique hr').2
    refine ⟨launches, fun place leads => ?_⟩
    by_contra changed
    rw [workspace] at changed
    have prepared := (BuildSettings.prepare_drift hr.ending hr.prepared).1
    have assembling := confined.assembling_drift (w := w) hr.ending ready
      fun place => s.keepAsm ∧ w.locate s.keptAssembly = .ok place
    rw [ran] at assembling
    have touched := BuildSettings.touched_of_changed (prepared.trans assembling) changed
    exact BuildSettings.keptAssembly_ne leads touched.2 rfl

theorem blames (h : box.Builds w s r) (f : ToolFailure) : r.result = .error (.tool f) ↔
    ∃ c ready, s.Ready w c ready ∧ .error f ∈ box.outcomes ready r.launches := by
  cases h with
  | stopped unready _ result =>
    exact iff_of_false (result f) fun ⟨c, ready, hr, _⟩ => unready c ready hr
  | @unassembled c ready after f' hr ran launches result workspace =>
    have outcomes : box.outcomes ready r.launches = [.error f'] := by
      rw [launches, outcomes, ran, outcomes]
    rw [result]
    constructor
    · intro same
      cases same
      exact ⟨c, ready, hr, by simp [outcomes]⟩
    · rintro ⟨c', ready', hr', mem⟩
      cases (hr.unique hr').2
      rw [outcomes, List.mem_singleton] at mem
      cases mem
      rfl
  | @assembled c ready assembled after printed outcome hr ran linked launches result workspace =>
    have outcomes : box.outcomes ready r.launches = [.ok printed, outcome] := by
      rw [launches, outcomes, ran, outcomes, linked, outcomes]
    rw [result]
    constructor
    · intro same
      exact ⟨c, ready, hr, by simp [outcomes, same]⟩
    · rintro ⟨c', ready', hr', mem⟩
      cases (hr.unique hr').2
      simpa [outcomes, eq_comm] using mem

theorem assembly (h : box.Builds w s r) (confined : box.Confined) (keep : s.keepAsm)
    (ran : r.launches ≠ []) : ∃ bytes c, w.read s.source = .ok bytes ∧
      (StackLang.compile s.compile s.source bytes).1 = .ok c ∧
      r.workspace.read s.keptAssembly = .ok (Text.bytesOf c.assembly) := by
  obtain ⟨_, launches, _⟩ | ⟨c, ready, after, hr, workspace, drift⟩ := h.stops_or_runs confined
  · exact absurd launches ran
  · obtain ⟨bytes, read, compiled⟩ := hr.compiled
    refine ⟨bytes, c, read, compiled, ?_⟩
    rw [workspace]
    exact hr.read_keptAssembly keep drift

end Toolbox.Builds

/-- What a report of a build promises of the files and of the tools that were run. -/
structure BuildReport.Footprint (r : BuildReport) (box : Toolbox) (w : Workspace)
    (s : BuildSettings) : Prop where
  /-- Nothing changes but the executable and, if asked for, the assembly next to it. -/
  changes : ∀ place, r.workspace.get? place ≠ w.get? place →
    w.locate s.executable = .ok place ∨ s.keepAsm ∧ w.locate s.keptAssembly = .ok place
  /-- A source that gives no assembly leads to no run of a tool and to no change. -/
  rejected : s.Rejected w → r.launches = [] ∧ r.workspace = w
  /-- If the assembler fails, the linker is not run and the executable stays as it was. -/
  unlinked : ∀ c ready f, s.Ready w c ready →
    (box.run ready (s.assembling (s.scratch w))).1 = .error f →
    r.launches = [s.assembling (s.scratch w)] ∧
      ∀ place, w.locate s.executable = .ok place → r.workspace.get? place = w.get? place
  /-- The failure is that of a tool exactly if one of the tools that were run failed. -/
  blames : ∀ f, r.result = .error (.tool f) ↔
    ∃ c ready, s.Ready w c ready ∧ .error f ∈ box.outcomes ready r.launches
  /-- Once a tool was run, the assembly that is kept is the one of the source. -/
  assembly : s.keepAsm → r.launches ≠ [] → ∃ bytes c, w.read s.source = .ok bytes ∧
    (StackLang.compile s.compile s.source bytes).1 = .ok c ∧
    r.workspace.read s.keptAssembly = .ok (Text.bytesOf c.assembly)

/-- A tool that copies the file of its last argument. -/
def copier : Tool := fun w args =>
  match outputOperand? args, w.read (args.getLastD "") with
  | some path, .ok bytes =>
    match w.write path bytes with
    | .ok written => { workspace := written }
    | .error _ => { workspace := w, status := 1 }
  | _, _ => { workspace := w, status := 1 }

theorem copier_workspace (w : Workspace) (args : List String) :
    (copier w args).workspace = w ∨ ∃ path bytes, outputOperand? args = some path ∧
      w.write path bytes = .ok (copier w args).workspace := by
  unfold copier
  split
  next path bytes operand _ =>
    split
    next written h => exact .inr ⟨path, bytes, operand, h⟩
    next => exact .inl rfl
  next => exact .inl rfl

theorem copier_confined : copier.Confined := by
  constructor
  · intro w args
    obtain same | ⟨path, bytes, _, written⟩ := copier_workspace w args
    · rw [same]
    · obtain ⟨place, _, _, put⟩ := Workspace.write_eq_ok_iff.mp written
      rw [put]
      rfl
  · intro w args place changed
    obtain same | ⟨path, bytes, operand, written⟩ := copier_workspace w args
    · exact absurd (by rw [same]) changed
    · obtain ⟨place', leads, file, put⟩ := Workspace.write_eq_ok_iff.mp written
      rw [put] at changed ⊢
      have same : place = place' := by
        by_contra apart
        exact changed (Workspace.get?_put_of_ne apart)
      subst same
      refine ⟨⟨path, operand, leads⟩, file, ?_⟩
      rw [Workspace.get?_put_self (Workspace.ne_nil_of_get? file)]
      simp

/-- A workspace with a source file, next to which there is an executable already. -/
def lonely : Workspace :=
  (({} : Workspace).addFile ["a.spl"] (Text.bytesOf "proc main do end")).addFile ["a"] [0]

/-- An assembler that copies, and no linker. -/
def half : Toolbox := fun name => if name = "nasm" then some copier else none

end StackLang
