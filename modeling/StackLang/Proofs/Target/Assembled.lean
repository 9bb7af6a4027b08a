import StackLang.Proofs.Target.Simulation
import StackLang.Proofs.Text.Encoding
/-!
The lines of a whole program: where its labels, its procedures and its data stand.
-/

namespace StackLang.Target

open Line
open Semantics (Setting)

variable {p : Program} {s : Settings} {lines : List Line} {w : Platform}

theorem generate_eq_ok (h : generate p s = .ok lines) :
    ∃ code pool, 0 ≤ s.actualDepth ∧ s.actualDepth ≤ maxDepth ∧
      procsLines p s.actualDepth s.comments p.procDecls {} = .ok (code, pool) ∧
      lines = header p.file s.comments ++ routines ++ code ++ memorySection p.memoryDecls ++
        dataSection s.actualDepth s.comments pool.strings := by
  unfold generate at h
  dsimp only at h
  split at h
  next => cases h
  next depth =>
    split at h
    next => cases h
    next =>
      split at h
      next => cases h
      next =>
        split at h
        next => cases h
        next code pool hl =>
          cases h
          exact ⟨code, pool, by omega, by omega, hl, rfl⟩

/-- A program that breaks no rule and has assembly, and that assembly without comments. -/
structure Assembled (p : Program) (s : Settings) (lines code : List Line) (pool : Pool) : Prop where
  coherent : p.Coherent
  valid : ∀ d ∈ p.decls, d.Valid p false
  nonneg : 0 ≤ s.actualDepth
  bounded : s.actualDepth ≤ maxDepth
  procs : procsLines p s.actualDepth false p.procDecls {} = .ok (code, pool)
  lines_eq : lines = header p.file false ++ routines ++ code ++ memorySection p.memoryDecls ++
    dataSection s.actualDepth false pool.strings

theorem assembled (hv : p.violations false = []) (hg : generate p s = .ok lines)
    (hc : s.comments = false) : ∃ code pool, Assembled p s lines code pool := by
  obtain ⟨_, coherent, valid⟩ := Program.violations_eq_nil_iff.mp hv
  obtain ⟨code, pool, nonneg, bounded, procs, lines_eq⟩ := generate_eq_ok hg
  rw [hc] at procs lines_eq
  exact ⟨code, pool, coherent, valid, nonneg, bounded, procs, lines_eq⟩

theorem generate_acyclic (h : generate p s = .ok lines) : p.checkCycles = .ok () := by
  unfold generate at h
  dsimp only at h
  split at h
  next => cases h
  next =>
    split at h
    next => cases h
    next =>
      split at h
      next => cases h
      next acyclic => exact acyclic

/-- The assembly of a program is also that of the program with its inlines expanded. -/
theorem assembled_expanded (hv : p.violations false = []) (hg : generate p s = .ok lines)
    (hc : s.comments = false) : ∃ q code pool, p.expandInlines = (q, none) ∧
      q.violations true = [] ∧ Assembled q s lines code pool := by
  have acyclic := generate_acyclic hg
  obtain ⟨_, coherent, valid⟩ := Program.violations_eq_nil_iff.mp hv
  have rules := p.violations_expanded hv acyclic
  have same := generate_expanded hv acyclic s
  obtain ⟨code, pool, a⟩ := assembled (Program.violations_relaxed rules) (same.trans hg) hc
  exact ⟨_, code, pool, coherent.expandInlines_eq (coherent.expandable acyclic valid) acyclic,
    rules, a⟩

theorem labels_stringData (i : Nat) (strings : List String) :
    labels (stringData false i strings) = [] := by
  induction strings generalizing i with
  | nil => rfl
  | cons v rest ih => exact ih (i + 1)

theorem labels_memorySection (memories : List Memory) : labels (memorySection memories) = [] := by
  induction memories with
  | nil => rfl
  | cons m rest ih => exact ih

/-- The strings of a program are found at their first numbers. -/
theorem findSome?_stringData {strings : List String} {v : String} (hv : v ∈ strings) (i : Nat) :
    (stringData false i strings).findSome? (w.textAt? v) =
      some (w.place (.string (i + strings.idxOf v))) := by
  induction strings generalizing i with
  | nil => cases hv
  | cons u rest ih =>
    have unfolded : stringData false i (u :: rest) =
        .data (.string i) (Text.bytesOf u) true :: stringData false (i + 1) rest := rfl
    rw [unfolded, List.findSome?_cons]
    by_cases same : u = v
    · subst same
      simp [Platform.textAt?]
    · have other : Text.bytesOf u ≠ Text.bytesOf v := fun h => same (Text.bytesOf_injective h)
      rw [List.idxOf_cons_ne rest same]
      simp only [Platform.textAt?, if_neg other]
      rw [ih ((List.mem_cons.mp hv).resolve_left fun h => same h.symm)]
      congr 3
      omega

theorem textAt?_of_datum? {l : Line} (h : l.datum? = none) (v : String) :
    w.textAt? v l = none := by
  cases l <;> first | rfl | cases h

theorem findSome?_of_dataOf {code : List Line} (h : dataOf code = []) (v : String) :
    code.findSome? (w.textAt? v) = none := by
  rw [dataOf, List.filterMap_eq_nil_iff] at h
  rw [List.findSome?_eq_none_iff]
  exact fun l hl => textAt?_of_datum? (h l hl) v

theorem findSome?_memorySection (memories : List Memory) (v : String) :
    (memorySection memories).findSome? (w.textAt? v) = none := by
  induction memories with
  | nil => rfl
  | cons m rest ih => exact ih

theorem mem_stringData {strings : List String} {v : String} (hv : v ∈ strings) (i : Nat) :
    .data (.string (i + strings.idxOf v)) (Text.bytesOf v) true ∈ stringData false i strings := by
  induction strings generalizing i with
  | nil => cases hv
  | cons u rest ih =>
    by_cases same : u = v
    · subst same
      rw [List.idxOf_cons_self]
      exact List.mem_cons_self
    · rw [List.idxOf_cons_ne rest same]
      have later := ih ((List.mem_cons.mp hv).resolve_left fun h => same h.symm) (i + 1)
      rw [Nat.add_assoc, Nat.add_comm 1] at later
      exact List.mem_cons_of_mem _ later

/-- What stands at a symbol, if a line puts it there. -/
theorem mem_dataOf {l : Line} (h : l ∈ lines) {d : Symbol × List (BitVec 8)}
    (hd : l.datum? = some d) : d ∈ dataOf lines :=
  List.mem_filterMap.mpr ⟨l, h, hd⟩

namespace Assembled

variable {code : List Line} {pool : Pool} (a : Assembled p s lines code pool)

include a

theorem emits : Emits (p.procDecls.map Routine.name) {} code pool :=
  procsLines_emits a.coherent.nodup_procs a.procs

theorem depth_eq : (s.actualDepth.toNat : Int) = s.actualDepth :=
  Int.toNat_of_nonneg a.nonneg

theorem depth_lt : s.actualDepth.toNat < 2 ^ 31 := by
  have bounded : s.actualDepth ≤ 2 ^ 31 - 1 := a.bounded
  omega

/-- The labels of the program: those of the runtime and those of the procedures. -/
theorem labels_eq : labels lines =
    [.printInt, .digits, .write, .stackUnderflow, .stackOverflow, .start] ++ labels code := by
  have data : labels (dataSection s.actualDepth false pool.strings) = [] :=
    labels_stringData 0 pool.strings
  simp only [a.lines_eq, labels_append, labels_memorySection, data, List.append_nil]
  rfl

theorem nodup_labels : (labels lines).Nodup := by
  rw [a.labels_eq]
  refine List.Nodup.append (by decide) a.emits.nodup fun x hx hx' => ?_
  rcases a.emits.range x hx' with ⟨n, _, rfl⟩ | ⟨i, _, _, rfl⟩ <;> simp at hx

/-- Lines of the data section. -/
theorem mem_data {l : Line} (h : l ∈ dataSection s.actualDepth false pool.strings) : l ∈ lines := by
  rw [a.lines_eq]
  exact List.mem_append_right _ h

theorem mem_origin : (.stackOrigin, List.replicate 8 0) ∈ dataOf lines :=
  mem_dataOf (a.mem_data (l := .word .stackOrigin) (by simp [dataSection])) rfl

theorem mem_index : (.returnIndex, List.replicate 8 0) ∈ dataOf lines :=
  mem_dataOf (a.mem_data (l := .word .returnIndex) (by simp [dataSection])) rfl

theorem mem_slots : (.returnStack, List.replicate (8 * (s.actualDepth.toNat + 1)) 0) ∈
    dataOf lines := by
  refine mem_dataOf (a.mem_data (l := .words .returnStack (s.actualDepth + 1))
    (by simp [dataSection])) ?_
  have count : (s.actualDepth + 1).toNat = s.actualDepth.toNat + 1 :=
    Int.toNat_add a.nonneg (by decide)
  rw [Line.datum?, count]

/-- The place of a string is that of its number. -/
theorem textPlace_eq {v : String} (hv : v ∈ pool.strings) :
    w.textPlace lines v = w.place (.string (pool.strings.idxOf v)) := by
  have none : (header p.file false ++ routines ++ code ++ memorySection p.memoryDecls).findSome?
      (w.textAt? v) = none := by
    rw [List.findSome?_append, List.findSome?_append, List.findSome?_append,
      findSome?_memorySection, findSome?_of_dataOf a.emits.plain]
    rfl
  have found := findSome?_stringData (w := w) hv 0
  rw [Nat.zero_add] at found
  rw [Platform.textPlace, a.lines_eq, List.findSome?_append, none]
  exact congrArg (Option.getD · 0) found

theorem text_low (loads : w.Loads lines) {v : String} (hv : v ∈ pool.strings) :
    (w.place (.string (pool.strings.idxOf v))).toNat + (Text.bytesOf v).length < 2 ^ 31 := by
  have listed := mem_stringData hv 0
  rw [Nat.zero_add] at listed
  have hm := mem_dataOf (a.mem_data (List.mem_append_right _ listed)) rfl
  have below := loads.below _ hm
  simp only [List.length_append, List.length_map, if_true, List.length_cons, List.length_nil]
    at below
  omega

theorem region_low (loads : w.Loads lines) {name : String}
    (hm : p.memories.contains name = true) : (w.place (.memory name)).toNat < 2 ^ 31 := by
  obtain ⟨memory, found⟩ := Option.isSome_iff_exists.mp hm
  obtain ⟨listed, rfl⟩ := a.coherent.memory_iff.mp found
  have positive : 0 < memory.size := a.valid _ listed
  have size : 0 < memory.size.toInt := by simpa [Int64.lt_iff_toInt_lt] using positive
  have declared : memory ∈ p.memoryDecls := List.mem_filterMap.mpr ⟨_, listed, rfl⟩
  have hl : .reserve (.memory memory.name) memory.size.toInt ∈ lines := by
    rw [a.lines_eq]
    refine List.mem_append_left _ (List.mem_append_right _ ?_)
    refine List.mem_cons_of_mem _ (List.mem_append_left _ ?_)
    exact List.mem_map.mpr ⟨memory, declared, rfl⟩
  have below := loads.below _ (mem_dataOf hl rfl)
  rw [List.length_replicate] at below
  dsimp only at below
  omega

/-- Where the code of a procedure stands. -/
theorem proc_code {name : String} {r : Routine} (hr : p.procs.get? name = some r) :
    ∃ i body mid mid', lines[i]? = some (.label (.proc name)) ∧ CodeAt lines (i + 1) body ∧
      BodyCode p s.actualDepth r mid body mid' ∧ mid'.strings <+: pool.strings := by
  obtain ⟨listed, rfl⟩ := a.coherent.proc_iff.mp hr
  obtain ⟨before, body, after, mid, mid', code_eq, hb, grows⟩ :=
    procsLines_placed (Program.mem_procDecls.mpr listed) a.coherent.nodup_procs a.procs
  have whole : lines = (header p.file false ++ routines ++ before) ++
      (label (.proc r.name) :: body) ++ (after ++ memorySection p.memoryDecls ++
        dataSection s.actualDepth false pool.strings) := by
    rw [a.lines_eq, code_eq]
    simp only [List.append_assoc]
  have placed := codeAt_middle (header p.file false ++ routines ++ before)
    (label (.proc r.name) :: body) (after ++ memorySection p.memoryDecls ++
      dataSection s.actualDepth false pool.strings)
  rw [← whole] at placed
  exact ⟨_, body, mid, mid', placed.1, placed.2, hb, grows⟩

end Assembled

/-- A line behind an instruction is found by its address. -/
theorem Platform.Loads.lineAt?_eq (loads : w.Loads lines) {k : Nat} {x : Inst} {l : Line}
    (hx : lines[k]? = some (.inst x)) (hl : lines[k + 1]? = some l) :
    Processor.lineAt? w lines (w.code (k + 1)) = some (k + 1) := by
  have bound : k + 1 < lines.length := (List.getElem?_eq_some_iff.mp hl).1
  rw [Processor.lineAt?, List.find?_range_eq_some]
  refine ⟨by simp, List.mem_range.mpr bound, fun j hj => ?_⟩
  simpa using loads.code (Nat.le_of_lt_succ hj) (Nat.lt_succ_self k) bound hx

section

variable {code : List Line} {pool : Pool} (a : Assembled p s lines code pool)
  (loads : w.Loads lines) {room : Nat} {answer : Nat → List Word → Ram → Option Response}
  {base : Word} (space : 2 ^ 31 + 8 * room + 48 ≤ base.toNat)

include a loads space

theorem Assembled.ground : Ground w (setting p s w lines room answer) base where
  stack := space
  origin := loads.below _ a.mem_origin
  slots := by
    have below := loads.below _ a.mem_slots
    rwa [List.length_replicate] at below
  split := by
    have apart := loads.apart.forall a.mem_origin a.mem_slots (by simp)
    rw [Platform.Divides, List.length_replicate, List.length_replicate] at apart
    exact apart
  owned := loads.owned_low
  owned_origin := fun ha => loads.owned_apart ha a.mem_origin rfl
  owned_slots := by
    intro x hx
    have apart := loads.owned_apart hx a.mem_slots rfl
    rwa [List.length_replicate] at apart

/-- A platform that keeps to its part is one on which the code of the program does what the program
does. -/
theorem Assembled.stage (prints : w.Prints) (exits : w.Exits)
    (answers : w.Answers (setting p s w lines room answer)) :
    Stage w lines (setting p s w lines room answer) base pool.strings where
  ground := a.ground loads space
  prints := prints
  exits := exits
  answers := answers
  nodup := a.nodup_labels
  low := a.depth_lt
  returns := loads.lineAt?_eq
  text := by
    intro v hv
    have place : w.textPlace lines v = w.place (.string (pool.strings.idxOf v)) :=
      a.textPlace_eq hv
    have low := a.text_low loads hv
    refine ⟨place, ?_, by omega⟩
    change (w.textPlace lines v).toNat < 2 ^ 31
    rw [place]
    omega
  region := fun name hm => ⟨rfl, a.region_low loads hm⟩
  proc := by
    intro name r hr
    obtain ⟨listed, same⟩ := a.coherent.proc_iff.mp hr
    obtain ⟨i, body, mid, mid', entry, inside, hb, grows⟩ := a.proc_code hr
    refine ⟨same, (a.valid _ listed).2.1, i, body, entry, inside, ?_⟩
    subst same
    rw [← a.depth_eq] at hb
    exact covers_block hb grows

end

end StackLang.Target
