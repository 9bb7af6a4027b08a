import StackLang.Failure
import StackLang.Proofs.Target.Assembled
import StackLang.Proofs.Target.Remarks
/-!
Lowering with and without comments. The two go side by side: they stop for the same reason, number
labels and strings alike, and make the same lines but for the remarks. The remarks show names,
numbers and quoted texts, of which only names could break a line.
-/

namespace StackLang

/-- No name of a program holds a line feed. -/
def Program.Legible (p : Program) : Prop :=
  ∀ name, (p.lookup name).isSome → '\n' ∉ name.toList

namespace Target

open Line

/-! ### The same lines but for the remarks -/

def Context.silent (ctx : Context) : Context :=
  { ctx with comments := false }

/-- The second way to lower inlines makes what the first makes but for the remarks. -/
def Silences (splice splice' : Splice) : Prop :=
  ∀ d pos, splice' d pos = bare <$> splice d pos

variable {ctx : Context} {splice splice' : Splice}

@[simp] theorem note_silent (text : String) : ctx.silent.note text = [] := rfl

@[simp] theorem bare_note (text : String) : bare (ctx.note text) = [] := by
  unfold Context.note
  split <;> rfl

theorem opLines_silent (pos : Pos) (o : Op) :
    opLines ctx.silent pos o = bare <$> opLines ctx pos o := by
  have same : opLines ctx.silent pos o = opLines ctx pos o := by cases o <;> rfl
  funext pool
  rw [same]
  change _ = (opLines ctx pos o pool >>= fun r => pure (bare r.1, r.2))
  cases done : opLines ctx pos o pool with
  | error f => rfl
  | ok r =>
    obtain ⟨code, pool'⟩ := r
    obtain ⟨_, _, insts⟩ := opLines_insts done
    change _ = Except.ok (bare code, pool')
    rw [bare_of_insts insts]

theorem nameLines_silent (same : Silences splice splice') (pos : Pos) (name : String) :
    nameLines ctx.silent splice' pos name = bare <$> nameLines ctx splice pos name := by
  unfold nameLines
  have program : ctx.silent.program = ctx.program := rfl
  rw [program]
  cases ctx.program.inlines.get? name with
  | some d => exact same d pos
  | none =>
    dsimp only
    split_ifs
    · rw [map_pure, bare_append, bare_note]
      rfl
    · rw [map_bind]
      refine bind_congr fun back => ?_
      rw [map_pure, bare_append, bare_note]
      rfl
    · rfl

@[simp] theorem bare_jumpIfZero (s : Symbol) : bare (jumpIfZero s) = jumpIfZero s := rfl

@[simp] theorem bare_label (s : Symbol) (rest : List Line) :
    bare (label s :: rest) = label s :: bare rest := rfl

@[simp] theorem bare_inst (i : Inst) (rest : List Line) :
    bare (inst i :: rest) = inst i :: bare rest := rfl

@[simp] theorem bare_blank (rest : List Line) : bare (blank :: rest) = blank :: bare rest := rfl

@[simp] theorem bare_nil : bare [] = [] := rfl

mutual

theorem instrLines_silent (same : Silences splice splice') (x : Instr) :
    instrLines ctx.silent splice' x = bare <$> instrLines ctx splice x := by
  match x with
  | .op pos o =>
    by_cases hn : ∃ name, o = .ident name
    · obtain ⟨name, rfl⟩ := hn
      exact nameLines_silent same pos name
    · have other : ∀ name, o ≠ .ident name := fun name h => hn ⟨name, h⟩
      simp [instrLines_op other, opLines_silent]
  -- the last block only has a remark if it is there, so its two cases come apart first
  | .branch pos c b es .absent =>
    simp [instrLines, blockLines_silent same c, blockLines_silent same b, armLines_silent same es]
  | .branch pos c b es (.mk q xs) =>
    simp [instrLines, blockLines_silent same c, blockLines_silent same b, armLines_silent same es,
      listLines_silent same xs]
  | .loop pos c b =>
    simp [instrLines, blockLines_silent same c, blockLines_silent same b]

theorem blockLines_silent (same : Silences splice splice') (b : Block) :
    blockLines ctx.silent splice' b = bare <$> blockLines ctx splice b := by
  match b with
  | .absent => rfl
  | .mk pos xs => exact listLines_silent same xs

theorem listLines_silent (same : Silences splice splice') (xs : List Instr) :
    listLines ctx.silent splice' xs = bare <$> listLines ctx splice xs := by
  match xs with
  | [] => rfl
  | x :: xs => simp [listLines, instrLines_silent same x, listLines_silent same xs]

theorem armLines_silent (same : Silences splice splice') (es : List Arm) (last : Symbol) :
    armLines ctx.silent splice' last es = bare <$> armLines ctx splice last es := by
  match es with
  | [] => rfl
  | .mk pos c b :: rest =>
    simp [armLines, blockLines_silent same c, blockLines_silent same b, armLines_silent same rest]

end

theorem inlineLines_silent (fuel : Nat) (active : List String) :
    Silences (inlineLines ctx fuel active) (inlineLines ctx.silent fuel active) := by
  induction fuel generalizing active with
  | zero => exact fun d pos => rfl
  | succ fuel ih =>
    intro d pos
    simp only [inlineLines]
    split_ifs
    · rfl
    · exact blockLines_silent (ih (active ++ [d.name])) d.body

variable {p : Program}

theorem procLines_silent (depth : Int) (comments : Bool) (r : Routine) :
    procLines p depth false r = bare <$> procLines p depth comments r := by
  obtain ⟨serial, name, pos, namePos, body⟩ := r
  cases body with
  | absent => rfl
  | mk q xs =>
    let body (ctx : Context) := blockLines ctx (inlineLines ctx (p.inlines.size + 1) []) (.mk q xs)
    have lines (ctx : Context) : body ctx.silent = bare <$> body ctx :=
      blockLines_silent (inlineLines_silent _ []) _
    have here : body ⟨p, depth, false, name⟩ = bare <$> body ⟨p, depth, comments, name⟩ :=
      lines ⟨p, depth, comments, name⟩
    have after : bare (if (Block.mk q xs).lastIsReturn then [] else returnLines name) =
        if (Block.mk q xs).lastIsReturn then [] else returnLines name := by
      split
      · rfl
      · exact bare_of_insts (all_isInst_of_basic (returnLines_isBasic name))
    simp only [body] at here
    simp [procLines, here, after]

theorem procsLines_silent (depth : Int) (comments : Bool) (rs : List Routine) :
    procsLines p depth false rs = bare <$> procsLines p depth comments rs := by
  induction rs with
  | nil => rfl
  | cons r rest ih => simp [procsLines, procLines_silent depth comments r, ih]

theorem bare_header (file : String) (comments : Bool) :
    bare (header file comments) = header file false := by
  cases comments <;> rfl

theorem bare_memorySection (memories : List Memory) :
    bare (memorySection memories) = memorySection memories := by
  refine List.filter_eq_self.mpr fun l hl => ?_
  simp only [memorySection, List.cons_append, List.mem_cons, List.mem_append, List.mem_map,
    List.not_mem_nil, or_false] at hl
  rcases hl with rfl | ⟨m, _, rfl⟩ | rfl <;> rfl

theorem bare_stringData (comments : Bool) (i : Nat) (strings : List String) :
    bare (stringData comments i strings) = stringData false i strings := by
  induction strings generalizing i with
  | nil => rfl
  | cons v rest ih =>
    have front : bare (if comments then [.remark (Text.quote v)] else []) = [] := by
      cases comments <;> rfl
    have entry (lines : List Line) : bare (data (.string i) (Text.bytesOf v) true :: lines) =
        data (.string i) (Text.bytesOf v) true :: bare lines := rfl
    rw [stringData, bare_append, front, entry, ih]
    rfl

theorem bare_dataSection (depth : Int) (comments : Bool) (strings : List String) :
    bare (dataSection depth comments strings) = dataSection depth false strings := by
  rw [dataSection, bare_append, bare_stringData]
  rfl

/-- Without comments a program is refused for the same reason, or has the same assembly but for the
remarks. -/
theorem generate_silent (p : Program) (s : Settings) :
    generate p { s with comments := false } = (generate p s).map bare := by
  have depth : Settings.actualDepth { s with comments := false } = s.actualDepth := rfl
  have lines : (procsLines p s.actualDepth false p.procDecls).run {} =
      ((procsLines p s.actualDepth s.comments p.procDecls).run {}).map
        fun r => (bare r.1, r.2) := by
    rw [procsLines_silent s.actualDepth s.comments]
    rfl
  simp only [generate, depth, lines]
  split_ifs
  · rfl
  · rfl
  · cases p.checkCycles with
    | error c => rfl
    | ok u =>
      cases (procsLines p s.actualDepth s.comments p.procDecls).run {} with
      | error f => rfl
      | ok r =>
        have fixed : bare routines = routines := rfl
        simp [Except.map, bare_header, fixed, bare_memorySection, bare_dataSection]

/-! ### One line each -/

/-- Lowering that breaks no line. -/
def Tidies (m : Lowering (List Line)) : Prop :=
  ∀ ⦃pool code pool'⦄, m pool = .ok (code, pool') → code.all isTidy = true

theorem tidies_pure {code : List Line} (h : code.all isTidy = true) : Tidies (pure code) := by
  intro pool code' pool' done
  obtain ⟨rfl, rfl⟩ := lowering_pure_eq_ok.mp done
  exact h

theorem tidies_stop (f : Fault) : Tidies (stop f) := by
  intro pool code pool' done
  cases done

theorem tidies_after {α : Type} {m : Lowering α} {f : α → Lowering (List Line)}
    (h : ∀ a, Tidies (f a)) : Tidies (m >>= f) := by
  intro pool code pool' done
  obtain ⟨a, mid, _, done⟩ := lowering_bind_eq_ok.mp done
  exact h a done

theorem Tidies.bind {m : Lowering (List Line)} {f : List Line → Lowering (List Line)}
    (hm : Tidies m) (h : ∀ code, code.all isTidy = true → Tidies (f code)) : Tidies (m >>= f) := by
  intro pool code pool' done
  obtain ⟨first, mid, hf, done⟩ := lowering_bind_eq_ok.mp done
  exact h first (hm hf) done

theorem note_isTidy {text : String} (h : '\n' ∉ text.toList) :
    (ctx.note text).all isTidy = true := by
  unfold Context.note
  split
  · simpa [isTidy] using h
  · rfl

/-- An instruction that has assembly shows on one line, unless it is a name. -/
theorem newline_not_mem_op {pos : Pos} {o : Op} {pool pool' : Pool} {code : List Line}
    (h : opLines ctx pos o pool = .ok (code, pool')) : '\n' ∉ o.text.toList := by
  cases o with
  | binary t =>
    cases t with
    | operator o => cases o <;> decide
    | _ => cases h
  | ident name => cases h
  | _ => simp [Op.text, Op.kind, Op.payload?]

theorem tidies_op {o : Op} (hn : ∀ name, o ≠ .ident name) (pos : Pos) :
    Tidies (instrLines ctx splice (.op pos o)) := by
  intro pool code pool' h
  rw [instrLines_op hn] at h
  obtain ⟨lines, mid, hl, h⟩ := lowering_bind_eq_ok.mp h
  obtain ⟨rfl, rfl⟩ := lowering_pure_eq_ok.mp h
  rw [List.all_append, note_isTidy (newline_not_mem_op hl), Bool.true_and]
  by_cases hs : ∃ value raw, o = .pushStr value raw
  · obtain ⟨value, raw, rfl⟩ := hs
    obtain ⟨i, _, rfl⟩ := opLines_pushStr hl
    rfl
  · have other : ∀ value raw, o ≠ .pushStr value raw := fun value raw same => hs ⟨value, raw, same⟩
    exact all_isTidy_of_basic (opLines_basic other hl).2

theorem tidies_name (legible : ctx.program.Legible) (hs : ∀ d pos, Tidies (splice d pos))
    (pos : Pos) (name : String) : Tidies (nameLines ctx splice pos name) := by
  have shown (known : '\n' ∉ name.toList) :
      (ctx.note (Op.ident name).text).all isTidy = true := by
    apply note_isTidy
    simpa [Op.text, Op.kind, Op.payload?] using known
  unfold nameLines
  split
  next d _ => exact hs d pos
  next none =>
    dsimp only
    -- a name is shown only where it is declared
    split_ifs with region routine
    · have known := legible name (by simp_all [Program.lookup, Table.contains])
      apply tidies_pure
      rw [List.all_append, shown known]
      rfl
    · have known := legible name (by simp_all [Program.lookup, Table.contains])
      refine tidies_after fun back => tidies_pure ?_
      rw [List.all_append, shown known]
      rfl
    · exact tidies_stop _

theorem label_isTidy (s : Symbol) : [label s].all isTidy = true := rfl

theorem jump_isTidy (s t : Symbol) : [inst (.jump s), label t].all isTidy = true := rfl

theorem jumpIfZero_isTidy (s : Symbol) : (jumpIfZero s).all isTidy = true := rfl

theorem tidies_arm {pos : Pos} {c b : Block} {es : List Arm} {last : Symbol}
    (cond : Tidies (blockLines ctx splice c)) (body : Tidies (blockLines ctx splice b))
    (others : Tidies (armLines ctx splice last es)) :
    Tidies (armLines ctx splice last (.mk pos c b :: es)) := by
  have shown : (ctx.note "elif").all isTidy = true := note_isTidy (by decide)
  refine tidies_after fun next => cond.bind fun front hf => body.bind fun rear hr =>
    others.bind fun more hm => tidies_pure ?_
  simp only [List.all_append, shown, hf, jumpIfZero_isTidy, hr, jump_isTidy, hm, Bool.and_self]

theorem tidies_branch {pos : Pos} {c b : Block} {es : List Arm} {o : Block}
    (cond : Tidies (blockLines ctx splice c)) (body : Tidies (blockLines ctx splice b))
    (arms : ∀ last, Tidies (armLines ctx splice last es))
    (otherwise : Tidies (blockLines ctx splice o)) :
    Tidies (instrLines ctx splice (.branch pos c b es o)) := by
  have shown : (ctx.note "if").all isTidy = true := note_isTidy (by decide)
  have shown' : (ctx.note "else").all isTidy = true := note_isTidy (by decide)
  rw [instrLines]
  refine tidies_after fun last => tidies_after fun next => cond.bind fun front hf =>
    body.bind fun rear hr => (arms last).bind fun more hm => ?_
  have whole {final : List Line} (ho : final.all isTidy = true) :
      (ctx.note "if" ++ front ++ jumpIfZero next ++ rear ++ [inst (.jump last), label next] ++
        more ++ final ++ [label last]).all isTidy = true := by
    simp only [List.all_append, shown, hf, jumpIfZero_isTidy, hr, jump_isTidy, hm, ho,
      label_isTidy, Bool.and_self]
  cases o with
  | absent => exact tidies_pure (whole rfl)
  | mk q xs =>
    refine Tidies.bind otherwise fun final ho => tidies_pure (whole ?_)
    rw [List.all_append, shown', ho, Bool.and_self]

theorem tidies_loop {pos : Pos} {c b : Block} (cond : Tidies (blockLines ctx splice c))
    (body : Tidies (blockLines ctx splice b)) :
    Tidies (instrLines ctx splice (.loop pos c b)) := by
  have shown : (ctx.note "while").all isTidy = true := note_isTidy (by decide)
  refine tidies_after fun first => tidies_after fun last => cond.bind fun front hf =>
    body.bind fun rear hr => tidies_pure ?_
  simp only [List.all_append, shown, label_isTidy, hf, jumpIfZero_isTidy, hr, jump_isTidy,
    Bool.and_self]

mutual

theorem tidies_instrLines (legible : ctx.program.Legible) (hs : ∀ d pos, Tidies (splice d pos))
    (x : Instr) : Tidies (instrLines ctx splice x) := by
  match x with
  | .op pos o =>
    by_cases hn : ∃ name, o = .ident name
    · obtain ⟨name, rfl⟩ := hn
      exact tidies_name legible hs pos name
    · exact tidies_op (fun name same => hn ⟨name, same⟩) pos
  | .branch pos c b es o =>
    exact tidies_branch (tidies_blockLines legible hs c) (tidies_blockLines legible hs b)
      (tidies_armLines legible hs es) (tidies_blockLines legible hs o)
  | .loop pos c b =>
    exact tidies_loop (tidies_blockLines legible hs c) (tidies_blockLines legible hs b)

theorem tidies_blockLines (legible : ctx.program.Legible) (hs : ∀ d pos, Tidies (splice d pos))
    (b : Block) : Tidies (blockLines ctx splice b) := by
  match b with
  | .absent => exact tidies_pure rfl
  | .mk pos xs => exact tidies_listLines legible hs xs

theorem tidies_listLines (legible : ctx.program.Legible) (hs : ∀ d pos, Tidies (splice d pos))
    (xs : List Instr) : Tidies (listLines ctx splice xs) := by
  match xs with
  | [] => exact tidies_pure rfl
  | x :: xs =>
    refine (tidies_instrLines legible hs x).bind fun first hf =>
      (tidies_listLines legible hs xs).bind fun rest hr => tidies_pure ?_
    rw [List.all_append, hf, hr]
    rfl

theorem tidies_armLines (legible : ctx.program.Legible) (hs : ∀ d pos, Tidies (splice d pos))
    (es : List Arm) (last : Symbol) : Tidies (armLines ctx splice last es) := by
  match es with
  | [] => exact tidies_pure rfl
  | .mk pos c b :: rest =>
    exact tidies_arm (tidies_blockLines legible hs c) (tidies_blockLines legible hs b)
      (tidies_armLines legible hs rest last)

end

theorem tidies_inlineLines (legible : ctx.program.Legible) (fuel : Nat) (active : List String)
    (d : Routine) (pos : Pos) : Tidies (inlineLines ctx fuel active d pos) := by
  induction fuel generalizing active d pos with
  | zero => exact tidies_stop _
  | succ fuel ih =>
    rw [inlineLines]
    split
    · exact tidies_stop _
    · exact tidies_blockLines legible (fun d pos => ih _ d pos) d.body

theorem tidies_procLines (legible : p.Legible) (depth : Int) (comments : Bool) (r : Routine) :
    Tidies (procLines p depth comments r) := by
  obtain ⟨serial, name, pos, namePos, body⟩ := r
  cases body with
  | absent => exact tidies_stop _
  | mk q xs =>
    refine Tidies.bind (tidies_blockLines legible (tidies_inlineLines legible _ _) _)
      fun lines hl => tidies_pure ?_
    have after : (if (Block.mk q xs).lastIsReturn then [] else returnLines name).all isTidy =
        true := by
      split
      · rfl
      · exact all_isTidy_of_basic (returnLines_isBasic name)
    have last : [blank].all isTidy = true := rfl
    rw [← List.singleton_append]
    simp only [List.all_append, label_isTidy, hl, after, last, Bool.and_self]

theorem tidies_procsLines (legible : p.Legible) (depth : Int) (comments : Bool)
    (rs : List Routine) : Tidies (procsLines p depth comments rs) := by
  induction rs with
  | nil => exact tidies_pure rfl
  | cons r rest ih =>
    refine (tidies_procLines legible depth comments r).bind fun first hf =>
      ih.bind fun others ho => tidies_pure ?_
    rw [List.all_append, hf, ho, Bool.and_self]

theorem stringData_isTidy (comments : Bool) (i : Nat) (strings : List String) :
    (stringData comments i strings).all isTidy = true := by
  induction strings generalizing i with
  | nil => rfl
  | cons v rest ih => cases comments <;> simp [stringData, isTidy, ih]

theorem generate_isTidy {s : Settings} {lines : List Line} (legible : p.Legible)
    (file : '\n' ∉ p.file.toList) (h : generate p s = .ok lines) :
    lines.all isTidy = true := by
  obtain ⟨code, pool, _, _, procs, rfl⟩ := generate_eq_ok h
  have body := tidies_procsLines legible s.actualDepth s.comments p.procDecls procs
  have head : (header p.file s.comments).all isTidy = true := by
    cases s.comments <;> simp [header, isTidy, file]
  have fixed : routines.all isTidy = true := by decide +kernel
  have regions : (memorySection p.memoryDecls).all isTidy = true := by
    simp [memorySection, isTidy]
  have data : (dataSection s.actualDepth s.comments pool.strings).all isTidy = true := by
    simp [dataSection, noticeData, isTidy, stringData_isTidy]
  simp only [List.all_append, head, fixed, body, regions, data, Bool.and_self]

/-- Without comments a program is refused for the same reason, or its assembly is the commented one
without the remarks. -/
theorem assemble_silent (s : Settings) (legible : p.Legible) (file : '\n' ∉ p.file.toList) :
    p.assemble { s with comments := false } = (p.assemble s).map withoutRemarks := by
  unfold Program.assemble
  rw [generate_silent]
  cases done : generate p s with
  | error r => rfl
  | ok lines =>
    have tidy := generate_isTidy legible file done
    simp only [Except.map, withoutRemarks_renderLines tidy]

end Target

end StackLang
