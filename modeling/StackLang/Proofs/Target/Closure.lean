import Mathlib
import StackLang.Proofs.Target.Assembled
import StackLang.Proofs.Target.Pieces
/-!
The symbols of a whole program: those that are not local are defined once, labels are numbered
without gaps, and whatever is mentioned is defined, a local symbol below the same other symbol.
-/

namespace StackLang.Target

open Line

/-- The symbols of a program that are not local, in the order of their definition. -/
def globals (p : Program) (strings : Nat) : List Symbol :=
  [.printInt, .stackUnderflow, .stackOverflow, .start] ++
    p.procDecls.map (fun r => .proc r.name) ++ p.memoryDecls.map (fun m => .memory m.name) ++
    [.stackOrigin, .returnIndex, .returnStack, .notice .underflow, .noticeLength .underflow,
      .notice .overflow, .noticeLength .overflow] ++
    (List.range strings).map .string

/-- The number of labels that the procedures of a program ask for. -/
def labelTotal (p : Program) : List Routine → Nat
  | [] => 0
  | r :: rs => labelCount p (r.body.nodes fun _ => true) + labelTotal p rs

section

variable {p : Program} {n : Nat}

theorem proc_mem_globals (h : p.Coherent) {name : String} (known : p.procs.contains name = true) :
    .proc name ∈ globals p n := by
  obtain ⟨r, found⟩ := Option.isSome_iff_exists.mp known
  obtain ⟨listed, rfl⟩ := h.proc_iff.mp found
  have declared : .proc r.name ∈ p.procDecls.map (fun r => Symbol.proc r.name) :=
    List.mem_map.mpr ⟨r, Program.mem_procDecls.mpr listed, rfl⟩
  simp only [globals, List.mem_append]
  exact .inl (.inl (.inl (.inr declared)))

theorem memory_mem_globals (h : p.Coherent) {name : String}
    (known : p.memories.contains name = true) : .memory name ∈ globals p n := by
  obtain ⟨m, found⟩ := Option.isSome_iff_exists.mp known
  obtain ⟨listed, rfl⟩ := h.memory_iff.mp found
  have declared : .memory m.name ∈ p.memoryDecls.map (fun m => Symbol.memory m.name) :=
    List.mem_map.mpr ⟨m, List.mem_filterMap.mpr ⟨_, listed, rfl⟩, rfl⟩
  simp only [globals, List.mem_append]
  exact .inl (.inl (.inr declared))

theorem globals_mono {n' : Nat} (le : n ≤ n') : globals p n ⊆ globals p n' := by
  refine List.append_subset.mpr ⟨List.subset_append_left _ _, fun s hs => ?_⟩
  obtain ⟨i, hi, rfl⟩ := List.mem_map.mp hs
  have low := List.mem_range.mp hi
  exact List.mem_append_right _ (List.mem_map.mpr ⟨i, List.mem_range.mpr (by omega), rfl⟩)

/-- The symbols that plain lines mention are labels or symbols of the program. -/
theorem Symbol.mem_globals_of_isPlain (h : p.Coherent) {s : Symbol} (plain : s.isPlain p n = true)
    (far : s.isLocal = false) : s ∈ globals p n := by
  cases s with
  | printInt | stackOrigin => simp [globals]
  | memory name => exact memory_mem_globals h plain
  | string i =>
    have low : i < n := of_decide_eq_true plain
    exact List.mem_append_right _ (List.mem_map.mpr ⟨i, List.mem_range.mpr low, rfl⟩)
  | label k => simp [Symbol.isLocal_eq] at far
  | _ => cases plain

end

namespace Pieces

variable {ctx : Context} {n : Nat} {code : List Line}

theorem mem_globals (h : Pieces ctx n code) (coherent : ctx.program.Coherent) {s : Symbol}
    (hs : s ∈ mentions code) (far : s.isLocal = false) : s ∈ globals ctx.program n := by
  induction h with
  | nil => cases hs
  | @plain l rest hl _ ih =>
    rw [mentions, List.flatMap_cons, List.mem_append] at hs
    rcases hs with hs | hs
    · cases l with
      | inst i =>
        obtain ⟨_, known⟩ := Bool.and_eq_true_iff.mp hl
        exact Symbol.mem_globals_of_isPlain coherent (List.all_eq_true.mp known s hs) far
      | label x => cases hs
      | _ => cases hl
    · exact ih hs
  | @call name back rest known _ ih =>
    rw [mentions_append, List.mem_append] at hs
    rcases hs with hs | hs
    · have cases : s = .stackOverflow ∨ s = .label back ∨ s = .returnStack ∨ s = .proc name := by
        simpa [callLines, mentions, Line.mentions, Inst.mentions, Operand.mentions,
          Address.mentions] using hs
      rcases cases with rfl | rfl | rfl | rfl
      · simp [globals]
      · simp [Symbol.isLocal_eq] at far
      · simp [globals]
      · exact proc_mem_globals coherent known
    · exact ih hs
  | leave _ ih =>
    rw [mentions_append, List.mem_append] at hs
    rcases hs with hs | hs
    · rcases mentions_returnLines hs with rfl | rfl <;> simp [globals]
    · exact ih hs

/-- Code in pieces defines numbered labels and nothing else. -/
theorem definitions_eq (h : Pieces ctx n code) : definitions code = labels code ∧
    ∀ s ∈ labels code, s.isLocal = true := by
  induction h with
  | nil => exact ⟨rfl, by simp⟩
  | @plain l rest hl _ ih =>
    cases l with
    | label x =>
      cases x with
      | label k =>
        rw [definitions_label, labels_label, List.forall_mem_cons, ih.1]
        refine ⟨rfl, ?_⟩
        exact ⟨by simp [Symbol.isLocal_eq], ih.2⟩
      | _ => cases hl
    | inst i => exact ih
    | _ => cases hl
  | @call name back rest _ _ ih =>
    refine ⟨?_, ?_⟩
    · rw [definitions_append, labels_append, ih.1]
      rfl
    · rw [labels_append, List.forall_mem_append]
      exact ⟨by simp [callLines, Symbol.isLocal_eq], ih.2⟩
  | leave _ ih =>
    have none : definitions (returnLines ctx.proc) = [] ∧ labels (returnLines ctx.proc) = [] := by
      unfold returnLines
      split <;> exact ⟨rfl, rfl⟩
    rw [definitions_append, labels_append, none.1, none.2]
    exact ih

end Pieces

/-! ### Procedures -/

/-- The code of some procedures of a program without inlines. -/
structure Arranged (p : Program) (rs : List Routine) (pool : Pool) (code : List Line)
    (pool' : Pool) : Prop where
  strings : pool.strings <+: pool'.strings
  given : pool'.labels = pool.labels + labelTotal p rs
  plain : definitions code = labels code
  used : ((labels code).filter Symbol.isLocal).length = labelTotal p rs
  defined : (labels code).filter (fun s => !s.isLocal) = rs.map fun r => .proc r.name
  settled : Settled code
  known : ∀ s ∈ mentions code, s.isLocal = false → s ∈ globals p pool'.strings.length

variable {p : Program} {depth : Int}

theorem procLines_arranged (h : p.Coherent) {r : Routine} (valid : (Decl.proc r).Valid p true)
    {pool pool' : Pool} {code : List Line}
    (hl : procLines p depth false r pool = .ok (code, pool')) :
    Arranged p [r] pool code pool' := by
  obtain ⟨_, last, body⟩ := valid
  have flat : Context.Flat ⟨p, depth, false, r.name⟩ :=
    ⟨rfl, fun _ region => h.not_proc_of_memory region⟩
  rw [procLines_returning last] at hl
  obtain ⟨lines, mid, hb, hl⟩ := lowering_bind_eq_ok.mp hl
  obtain ⟨rfl, rfl⟩ := lowering_pure_eq_ok.mp hl
  have laid := lays_blockLines flat r.body body hb
  obtain ⟨plain, inner⟩ := laid.fragment.pieces.definitions_eq
  have total : labelTotal p [r] = labelCount p (r.body.nodes fun _ => true) := Nat.add_zero _
  have far : (Symbol.proc r.name).isLocal = false := by simp [Symbol.isLocal_eq]
  have none : (labels lines).filter (fun s => !s.isLocal) = [] := by
    rw [List.filter_eq_nil_iff]
    intro s hs
    simp [inner s hs]
  have all : (labels lines).filter Symbol.isLocal = labels lines := List.filter_eq_self.mpr inner
  have settled : Settled (label (.proc r.name) :: (lines ++ [blank])) := by
    have own : definitions (lines ++ [blank]) = labels lines := by
      rw [definitions_append, plain]
      exact List.append_nil _
    have said : mentions (lines ++ [blank]) = mentions lines := by
      rw [mentions_append]
      exact List.append_nil _
    refine settled_below far (own ▸ inner) ?_
    rw [own, said]
    exact fun s hs near => (laid.fragment.closed s hs near).resolve_right (by simp)
  rw [List.append_nil, List.cons_append]
  refine ⟨laid.strings, total ▸ laid.given, ?_, ?_, ?_, settled, ?_⟩
  · rw [definitions_label, labels_label, definitions_append, labels_append, plain]
    rfl
  · rw [total, ← laid.used]
    simp [far, all]
  · simp [far, none]
  · intro s hs near
    have hs : s ∈ mentions lines := by
      rw [mentions_label, mentions_append, List.mem_append] at hs
      exact hs.resolve_right (by simp [mentions, Line.mentions])
    exact laid.fragment.pieces.mem_globals h hs near

theorem procsLines_arranged (h : p.Coherent) {rs : List Routine}
    (valid : ∀ r ∈ rs, (Decl.proc r).Valid p true) {pool pool' : Pool} {code : List Line}
    (hl : procsLines p depth false rs pool = .ok (code, pool')) :
    Arranged p rs pool code pool' := by
  induction rs generalizing pool code with
  | nil =>
    obtain ⟨rfl, rfl⟩ := lowering_pure_eq_ok.mp hl
    exact ⟨List.prefix_rfl, rfl, rfl, rfl, rfl, settled_of_mentions (by simp [mentions]),
      by simp [mentions]⟩
  | cons r rest ih =>
    obtain ⟨first, mid, hf, hl⟩ := lowering_bind_eq_ok.mp hl
    obtain ⟨others, mid', ho, hl⟩ := lowering_bind_eq_ok.mp hl
    obtain ⟨rfl, rfl⟩ := lowering_pure_eq_ok.mp hl
    obtain ⟨here, later⟩ := List.forall_mem_cons.mp valid
    have a := procLines_arranged h here hf
    have b := ih later ho
    have total : labelTotal p (r :: rest) = labelTotal p [r] + labelTotal p rest := by
      simp [labelTotal]
    have given := a.given
    have given' := b.given
    refine ⟨a.strings.trans b.strings, by omega, ?_, ?_, ?_, a.settled.append b.settled, ?_⟩
    · rw [definitions_append, labels_append, a.plain, b.plain]
    · rw [labels_append, List.filter_append, List.length_append, a.used, b.used, total]
    · rw [labels_append, List.filter_append, a.defined, b.defined]
      rfl
    · intro s hs far
      rw [mentions_append, List.mem_append] at hs
      rcases hs with hs | hs
      · exact globals_mono b.strings.length_le (a.known s hs far)
      · exact b.known s hs far

/-! ### The parts that every program has -/

theorem definitions_memorySection (memories : List Memory) :
    definitions (memorySection memories) = memories.map fun m => .memory m.name := by
  induction memories with
  | nil => rfl
  | cons m rest ih => exact congrArg (Symbol.memory m.name :: ·) ih

theorem mentions_memorySection (memories : List Memory) : mentions (memorySection memories) = [] := by
  induction memories with
  | nil => rfl
  | cons m rest ih => exact ih

theorem definitions_stringData (i : Nat) (strings : List String) :
    definitions (stringData false i strings) = (List.range' i strings.length).map .string := by
  induction strings generalizing i with
  | nil => rfl
  | cons v rest ih => exact congrArg (Symbol.string i :: ·) (ih (i + 1))

theorem mentions_stringData (i : Nat) (strings : List String) :
    mentions (stringData false i strings) = [] := by
  induction strings generalizing i with
  | nil => rfl
  | cons v rest ih => exact ih (i + 1)

theorem definitions_dataSection (strings : List String) :
    definitions (dataSection depth false strings) =
      ([.stackOrigin, .returnIndex, .returnStack, .notice .underflow, .noticeLength .underflow,
        .notice .overflow, .noticeLength .overflow] : List Symbol) ++
      (List.range strings.length).map Symbol.string := by
  rw [dataSection, definitions_append, definitions_stringData, List.range_eq_range']
  rfl

theorem mentions_dataSection (strings : List String) :
    mentions (dataSection depth false strings) = [.notice .underflow, .notice .overflow] := by
  rw [dataSection, mentions_append, mentions_stringData]
  rfl

theorem mentions_header (file : String) : mentions (header file false) = [.start] := rfl

theorem mentions_routines : ∀ x ∈ mentions routines, x.isLocal = false →
    x = .proc Source.entryPoint ∨ x ∈ [.notice .underflow, .noticeLength .underflow,
      .notice .overflow, .noticeLength .overflow, .stackOrigin, .returnIndex] := by
  decide

theorem settled_routines : Settled routines := by
  have printing : Settled (label .printInt :: printInt.tail) :=
    settled_below rfl (by decide) (by decide)
  have underflow : Settled (label .stackUnderflow :: (fatal .stackUnderflow .underflow).tail) :=
    settled_below rfl (by decide) (by decide)
  have overflow : Settled (label .stackOverflow :: (fatal .stackOverflow .overflow).tail) :=
    settled_below rfl (by decide) (by decide)
  have start : Settled (label .start :: startRoutine.tail) :=
    settled_below rfl (by decide) (by decide)
  exact ((printing.append underflow).append overflow).append start

theorem perm_labels {k : Nat} {xs : List Symbol} (nodup : xs.Nodup)
    (range : ∀ s ∈ xs, ∃ i < k, s = .label i) (length : xs.length = k) :
    xs.Perm ((List.range k).map .label) := by
  have inside : xs ⊆ (List.range k).map .label := by
    intro s hs
    obtain ⟨i, low, rfl⟩ := range s hs
    exact List.mem_map.mpr ⟨i, List.mem_range.mpr low, rfl⟩
  exact (List.subperm_of_subset nodup inside).perm_of_length_le (by simp [length])

/-! ### The whole program -/

def definedNames (lines : List Line) : List String :=
  (definitions lines).map Symbol.text

theorem filter_definedNames (f : String → Bool) (lines : List Line) :
    (definedNames lines).filter f =
      ((definitions lines).filter fun s => f s.text).map Symbol.text :=
  List.filter_map

section

variable {q : Program} {s : Settings} {lines code : List Line} {pool : Pool}
  (a : Assembled q s lines code pool) (rules : q.violations true = [])

include a

theorem Assembled.arranged (rules : q.violations true = []) :
    Arranged q q.procDecls {} code pool := by
  obtain ⟨_, _, valid⟩ := Program.violations_eq_nil_iff.mp rules
  exact procsLines_arranged a.coherent
    (fun r hr => valid _ (Program.mem_procDecls.mp hr)) a.procs

include rules

theorem Assembled.definitions_eq : definitions lines =
    ([.printInt, .digits, .write, .stackUnderflow, .stackOverflow, .start] : List Symbol) ++
      labels code ++ q.memoryDecls.map (fun m => Symbol.memory m.name) ++
      ([.stackOrigin, .returnIndex, .returnStack, .notice .underflow, .noticeLength .underflow,
        .notice .overflow, .noticeLength .overflow] : List Symbol) ++
      (List.range pool.strings.length).map Symbol.string := by
  have fixed : definitions (header q.file false ++ routines) =
      [.printInt, .digits, .write, .stackUnderflow, .stackOverflow, .start] := rfl
  rw [a.lines_eq, definitions_append, definitions_append, definitions_append, fixed,
    (a.arranged rules).plain, definitions_memorySection, definitions_dataSection,
    ← List.append_assoc]

theorem Assembled.filter_globals :
    (definitions lines).filter (fun s => !s.isLocal) = globals q pool.strings.length := by
  have memories : (q.memoryDecls.map fun m => Symbol.memory m.name).filter
      (fun s => !s.isLocal) = q.memoryDecls.map fun m => .memory m.name := by
    rw [List.filter_eq_self]
    simp [Symbol.isLocal_eq]
  have strings : ((List.range pool.strings.length).map Symbol.string).filter
      (fun s => !s.isLocal) = (List.range pool.strings.length).map .string := by
    rw [List.filter_eq_self]
    simp [Symbol.isLocal_eq]
  rw [a.definitions_eq rules]
  simp only [List.filter_append, (a.arranged rules).defined, memories, strings]
  rfl

theorem Assembled.filter_locals : (definitions lines).filter Symbol.isLocal =
    [.digits, .write] ++ (labels code).filter Symbol.isLocal := by
  have memories : (q.memoryDecls.map fun m => Symbol.memory m.name).filter Symbol.isLocal = [] := by
    rw [List.filter_eq_nil_iff]
    simp [Symbol.isLocal_eq]
  have strings : ((List.range pool.strings.length).map Symbol.string).filter Symbol.isLocal =
      [] := by
    rw [List.filter_eq_nil_iff]
    simp [Symbol.isLocal_eq]
  have data : [Symbol.stackOrigin, .returnIndex, .returnStack, .notice .underflow,
      .noticeLength .underflow, .notice .overflow, .noticeLength .overflow].filter
        Symbol.isLocal = [] := rfl
  rw [a.definitions_eq rules]
  simp only [List.filter_append, memories, strings, data, List.append_nil]
  rfl

theorem Assembled.locals_perm : ((labels code).filter Symbol.isLocal).Perm
    ((List.range (labelTotal q q.procDecls)).map .label) := by
  have arranged := a.arranged rules
  have given := arranged.given
  refine perm_labels (a.emits.nodup.filter _) (fun x hx => ?_) arranged.used
  obtain ⟨hx, near⟩ := List.mem_filter.mp hx
  rcases a.emits.range x hx with ⟨name, _, rfl⟩ | ⟨i, _, high, rfl⟩
  · simp [Symbol.isLocal_eq] at near
  · dsimp only at given
    exact ⟨i, by omega, rfl⟩

theorem Assembled.nodup_globals : (globals q pool.strings.length).Nodup := by
  have procs : (q.procDecls.map fun r => Symbol.proc r.name).Nodup := by
    rw [← (a.arranged rules).defined]
    exact a.emits.nodup.filter _
  have memories : (q.memoryDecls.map fun m => Symbol.memory m.name).Nodup := by
    have symbols := a.coherent.nodup_memories.map (f := Symbol.memory)
      fun _ _ same => Symbol.memory.inj same
    rwa [List.map_map] at symbols
  have strings : ((List.range pool.strings.length).map Symbol.string).Nodup :=
    List.nodup_range.map fun _ _ same => Symbol.string.inj same
  simp only [globals, List.append_assoc]
  refine .append (by decide) (.append procs (.append memories (.append (by decide) strings ?_) ?_)
    ?_) ?_
  all_goals
    rw [List.disjoint_left]
    simp

theorem Assembled.nodup_definitions : (definitions lines).Nodup := by
  have parts := List.filter_append_perm Symbol.isLocal (definitions lines)
  rw [a.filter_globals rules, a.filter_locals rules] at parts
  refine parts.nodup_iff.mp (.append (.append (by decide) ?_ ?_) (a.nodup_globals rules) ?_)
  · exact a.emits.nodup.filter _
  · intro x hx hx'
    obtain ⟨i, _, rfl⟩ := List.mem_map.mp ((a.locals_perm rules).mem_iff.mp hx')
    simp at hx
  · intro x hx hx'
    rw [← a.filter_locals rules] at hx
    rw [← a.filter_globals rules] at hx'
    have near := (List.mem_filter.mp hx).2
    have far := (List.mem_filter.mp hx').2
    simp [near] at far

theorem Assembled.settled : Settled lines := by
  have head : Settled (header q.file false) := by
    refine settled_of_mentions ?_
    rw [mentions_header]
    decide
  have memories : Settled (memorySection q.memoryDecls) := by
    refine settled_of_mentions ?_
    rw [mentions_memorySection]
    simp
  have data : Settled (dataSection s.actualDepth false pool.strings) := by
    refine settled_of_mentions ?_
    rw [mentions_dataSection]
    decide
  rw [a.lines_eq]
  exact (((head.append settled_routines).append (a.arranged rules).settled).append
    memories).append data

theorem Assembled.mentions_known {x : Symbol} (hx : x ∈ mentions lines)
    (far : x.isLocal = false) : x ∈ definitions lines := by
  have entry : .proc Source.entryPoint ∈ globals q pool.strings.length := by
    obtain ⟨entry, _, _⟩ := Program.violations_eq_nil_iff.mp rules
    exact proc_mem_globals a.coherent entry
  have known : x ∈ globals q pool.strings.length := by
    rw [a.lines_eq, mentions_append, mentions_append, mentions_append, mentions_append,
      mentions_header, mentions_memorySection, mentions_dataSection] at hx
    simp only [List.mem_append, List.not_mem_nil, or_false] at hx
    rcases hx with ((hx | hx) | hx) | hx
    · simp_all [globals]
    · rcases mentions_routines x hx far with rfl | hx
      · exact entry
      · simp only [List.mem_cons, List.not_mem_nil, or_false] at hx
        rcases hx with rfl | rfl | rfl | rfl | rfl | rfl <;> simp [globals]
    · exact (a.arranged rules).known x hx far
    · simp only [List.mem_cons, List.not_mem_nil, or_false] at hx
      rcases hx with rfl | rfl <;> simp [globals]
  rw [← a.filter_globals rules] at known
  exact (List.mem_filter.mp known).1

end

/-- A program with every construct that has labels, a call from a loop, and names that are not made
of letters. -/
def mingled : Program :=
  let op (o : Op) : Instr := .op default o
  let block (xs : List Instr) : Block := .mk default xs
  let routine (name : String) (xs : List Instr) : Routine :=
    { name, pos := default, namePos := default, body := block xs }
  let twice := routine "twice" [op .dup, op (.ident "a-b"), op (.ident "a-b")]
  let shown := routine "a-b" [op .put, op .ret]
  let main := routine Source.entryPoint
    [.loop default (block [op (.pushInt 0)]) (block [op (.ident "twice")]),
     .branch default (block [op (.ident "n_1")]) (block [op (.pushStr "hi" "hi")])
       [.mk default (block [op (.pushInt 1)]) (block [])] .absent,
     op .ret]
  (((({ file := "" } : Program).insert (.inline twice)).insert (.proc shown)).insert
    (.memory { name := "n_1", pos := default, namePos := default, size := 8 })).insert (.proc main)

def mingledLines : List Line :=
  match generate mingled {} with
  | .ok lines => lines
  | .error _ => []

end StackLang.Target
