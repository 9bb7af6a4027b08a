import Mathlib.Data.List.Nodup
import StackLang.Proofs.Outcome
import StackLang.Proofs.Target.Layout
/-!
What lowering leaves behind: every label is new, strings keep their numbers, and no data stands
among the code.
-/

namespace StackLang.Target

open Line

section

variable {α β : Type} {pool pool' : Pool}

theorem lowering_bind_eq_ok {x : Lowering α} {f : α → Lowering β} {b : β} :
    (x >>= f) pool = .ok (b, pool') ↔
      ∃ a mid, x pool = .ok (a, mid) ∧ f a mid = .ok (b, pool') := by
  change (x pool >>= fun r => f r.1 r.2) = .ok (b, pool') ↔ _
  rw [bind_eq_ok, Prod.exists]

theorem lowering_pure_eq_ok {a b : α} :
    (pure a : Lowering α) pool = .ok (b, pool') ↔ a = b ∧ pool = pool' := by
  change Except.ok (a, pool) = .ok (b, pool') ↔ _
  rw [Except.ok.injEq, Prod.mk.injEq]

end

@[simp] theorem dataOf_nil : dataOf [] = [] := rfl

@[simp] theorem dataOf_append (first second : List Line) :
    dataOf (first ++ second) = dataOf first ++ dataOf second :=
  List.filterMap_append

@[simp] theorem dataOf_label (s : Symbol) (rest : List Line) :
    dataOf (.label s :: rest) = dataOf rest := rfl

@[simp] theorem dataOf_inst (i : Inst) (rest : List Line) :
    dataOf (.inst i :: rest) = dataOf rest := rfl

@[simp] theorem dataOf_blank (rest : List Line) : dataOf (.blank :: rest) = dataOf rest := rfl

/-- Whether a line is an instruction. -/
def Line.isInst : Line → Bool
  | .inst _ => true
  | _ => false

theorem labels_of_insts {code : List Line} (h : code.all isInst = true) : labels code = [] := by
  rw [labels, List.filterMap_eq_nil_iff]
  intro l hl
  have inst := List.all_eq_true.mp h l hl
  cases l <;> first | rfl | cases inst

theorem dataOf_of_insts {code : List Line} (h : code.all isInst = true) : dataOf code = [] := by
  rw [dataOf, List.filterMap_eq_nil_iff]
  intro l hl
  have inst := List.all_eq_true.mp h l hl
  cases l <;> first | rfl | cases inst

/-- Code emitted between two states of the pool. Its labels are different from each other, those
that are numbered have numbers given out in between, and the others are those of the procedures
named. -/
structure Emits (names : List String) (pool : Pool) (code : List Line) (pool' : Pool) : Prop where
  strings : pool.strings <+: pool'.strings
  le : pool.labels ≤ pool'.labels
  nodup : (labels code).Nodup
  range : ∀ s ∈ labels code, (∃ n ∈ names, s = .proc n) ∨
    ∃ i, pool.labels ≤ i ∧ i < pool'.labels ∧ s = .label i
  plain : dataOf code = []

namespace Emits

variable {names names' : List String} {pool mid pool' : Pool} {code code' : List Line}

theorem insts (strings : pool.strings <+: pool'.strings) (le : pool.labels ≤ pool'.labels)
    (h : code.all isInst = true) : Emits [] pool code pool' := by
  refine ⟨strings, le, ?_, ?_, dataOf_of_insts h⟩ <;> rw [labels_of_insts h]
  · exact .nil
  · simp

theorem append (h : Emits names pool code mid) (h' : Emits names' mid code' pool')
    (apart : names.Disjoint names') : Emits (names ++ names') pool (code ++ code') pool' := by
  refine ⟨h.strings.trans h'.strings, Nat.le_trans h.le h'.le, ?_, ?_, ?_⟩
  · rw [labels_append]
    refine h.nodup.append h'.nodup fun s hs hs' => ?_
    have le := h.le
    have le' := h'.le
    rcases h.range s hs with ⟨n, hn, rfl⟩ | ⟨i, _, _, rfl⟩ <;>
      rcases h'.range _ hs' with ⟨n', hn', same⟩ | ⟨i', _, _, same⟩ <;> cases same
    · exact apart hn hn'
    · omega
  · intro s hs
    rw [labels_append] at hs
    have le := h.le
    have le' := h'.le
    rcases List.mem_append.mp hs with hs | hs
    · rcases h.range s hs with ⟨n, hn, rfl⟩ | ⟨i, low, high, rfl⟩
      · exact .inl ⟨n, List.mem_append_left _ hn, rfl⟩
      · exact .inr ⟨i, low, by omega, rfl⟩
    · rcases h'.range s hs with ⟨n, hn, rfl⟩ | ⟨i, low, high, rfl⟩
      · exact .inl ⟨n, List.mem_append_right _ hn, rfl⟩
      · exact .inr ⟨i, by omega, high, rfl⟩
  · rw [dataOf_append, h.plain, h'.plain]
    rfl

theorem andThen (h : Emits [] pool code mid) (h' : Emits [] mid code' pool') :
    Emits [] pool (code ++ code') pool' :=
  h.append h' (List.disjoint_nil_left _)

/-- Only which labels there are matters, and that no data is there. -/
theorem rearrange (h : Emits names pool code pool') (perm : (labels code').Perm (labels code))
    (plain : dataOf code' = []) : Emits names pool code' pool' :=
  ⟨h.strings, h.le, perm.nodup_iff.mpr h.nodup, fun s hs => h.range s (perm.mem_iff.mp hs), plain⟩

theorem fresh (pool : Pool) :
    Emits [] pool [label (.label pool.labels)] { pool with labels := pool.labels + 1 } := by
  refine ⟨List.prefix_rfl, Nat.le_succ _, ?_, ?_, rfl⟩
  · simp
  · intro s hs
    exact .inr ⟨pool.labels, Nat.le_refl _, Nat.lt_succ_self _, by simpa using hs⟩

theorem proc (name : String) (pool : Pool) :
    Emits [name] pool [label (.proc name)] pool := by
  refine ⟨List.prefix_rfl, Nat.le_refl _, ?_, ?_, rfl⟩
  · simp
  · intro s hs
    exact .inl ⟨name, List.mem_singleton_self _, by simpa using hs⟩

end Emits

variable {ctx : Context} {splice : Splice} {pool pool' : Pool} {code : List Line}

theorem freshLabel_eq_ok {s : Symbol} : freshLabel pool = .ok (s, pool') ↔
    s = .label pool.labels ∧ pool' = { pool with labels := pool.labels + 1 } := by
  rw [freshLabel, Except.ok.injEq, Prod.mk.injEq]
  exact ⟨fun h => ⟨h.1.symm, h.2.symm⟩, fun h => ⟨h.1.symm, h.2.symm⟩⟩

/-- A string is found under its number from then on. -/
theorem internString_eq_ok {value : String} {i : Nat}
    (h : internString value pool = .ok (i, pool')) : pool.strings <+: pool'.strings ∧
      pool'.labels = pool.labels ∧ value ∈ pool'.strings ∧ i = pool'.strings.idxOf value := by
  unfold internString at h
  split at h
  next hm =>
    cases h
    exact ⟨List.prefix_rfl, rfl, by simpa using hm, rfl⟩
  next hm =>
    cases h
    have new : value ∉ pool.strings := by simpa using hm
    refine ⟨List.prefix_append _ _, rfl, by simp, ?_⟩
    simp [List.idxOf_append_of_notMem new]

/-- Operands but for characters and the addresses of strings. -/
def Operand.isBasic : Operand → Bool
  | .char _ | .symbol (.string _) => false
  | _ => true

/-- The operands of an instruction that may be of any kind. -/
def Inst.operands : Inst → List Operand
  | .binary _ target source => [target, source]
  | .push source => [source]
  | _ => []

/-- Instructions without a character and without the address of a string. -/
def Inst.isBasic (i : Inst) : Bool :=
  i.operands.all Operand.isBasic

def Line.isBasic : Line → Bool
  | .inst i => i.isBasic
  | _ => false

theorem all_isInst_of_basic {code : List Line} (h : code.all isBasic = true) :
    code.all isInst = true := by
  refine List.all_eq_true.mpr fun l hl => ?_
  have basic := List.all_eq_true.mp h l hl
  cases l <;> first | rfl | cases basic

theorem readLine?_isBasic {width : Int} {line : Line} (h : readLine? width = some line) :
    line.isBasic = true := by
  unfold readLine? at h
  repeat' split at h
  all_goals cases h
  all_goals rfl

theorem writeLine?_isBasic {width : Int} {line : Line} (h : writeLine? width = some line) :
    line.isBasic = true := by
  unfold writeLine? at h
  repeat' split at h
  all_goals cases h
  all_goals rfl

theorem returnLines_isBasic (proc : String) : (returnLines proc).all isBasic = true := by
  unfold returnLines
  split <;> rfl

/-- An instruction without parts leaves the pool as it is, unless it pushes a string. -/
theorem opLines_basic {pos : Pos} {o : Op} (hs : ∀ value raw, o ≠ .pushStr value raw)
    (h : opLines ctx pos o pool = .ok (code, pool')) :
    pool' = pool ∧ code.all isBasic = true := by
  have fixed {lines : List Line} (hl : lines.all isBasic = true)
      (h : (pure lines : Lowering (List Line)) pool = .ok (code, pool')) :
      pool' = pool ∧ code.all isBasic = true := by
    obtain ⟨rfl, rfl⟩ := lowering_pure_eq_ok.mp h
    exact ⟨rfl, hl⟩
  cases o with
  | pushInt v =>
    refine fixed ?_ h
    unfold pushNumber
    split <;> rfl
  | pushStr value raw => exact absurd rfl (hs value raw)
  | binary t =>
    cases t with
    | operator o => exact fixed (by cases o <;> rfl) h
    | _ => cases h
  | ret => exact fixed (returnLines_isBasic _) h
  | load width =>
    cases hl : readLine? width <;> simp only [opLines, hl] at h
    next => cases h
    next line =>
      refine fixed ?_ h
      simp only [List.all_cons, readLine?_isBasic hl]
      rfl
  | store width =>
    cases hl : writeLine? width <;> simp only [opLines, hl] at h
    next => cases h
    next line =>
      refine fixed ?_ h
      simp only [List.all_cons, writeLine?_isBasic hl]
      rfl
  | syscall n =>
    rw [opLines] at h
    split at h
    next =>
      refine fixed ?_ h
      rw [List.all_append, List.all_map, Bool.and_eq_true]
      exact ⟨List.all_eq_true.mpr fun _ _ => rfl, rfl⟩
    next => cases h
  | ident name => cases h
  | _ => exact fixed rfl h

theorem opLines_pushStr {pos : Pos} {value raw : String}
    (h : opLines ctx pos (.pushStr value raw) pool = .ok (code, pool')) :
    ∃ i, internString value pool = .ok (i, pool') ∧
      code = [inst (.push (.imm (Text.bytesOf value).length)),
        inst (.push (.symbol (.string i)))] := by
  obtain ⟨i, mid, hi, h⟩ := lowering_bind_eq_ok.mp h
  obtain ⟨rfl, rfl⟩ := lowering_pure_eq_ok.mp h
  exact ⟨i, hi, rfl⟩

/-- The code of an instruction without parts is made of instructions. -/
theorem opLines_insts {pos : Pos} {o : Op} (h : opLines ctx pos o pool = .ok (code, pool')) :
    pool.strings <+: pool'.strings ∧ pool'.labels = pool.labels ∧ code.all isInst = true := by
  by_cases hs : ∃ value raw, o = .pushStr value raw
  · obtain ⟨value, raw, rfl⟩ := hs
    obtain ⟨i, hi, rfl⟩ := opLines_pushStr h
    obtain ⟨strings, labels, _⟩ := internString_eq_ok hi
    exact ⟨strings, labels, rfl⟩
  · obtain ⟨rfl, basic⟩ := opLines_basic (fun value raw same => hs ⟨value, raw, same⟩) h
    exact ⟨List.prefix_rfl, rfl, all_isInst_of_basic basic⟩

/-- The further arms of a conditional that ends at a label, and its last block. -/
def tailLines (ctx : Context) (splice : Splice) (last : Symbol) (es : List Arm) (o : Block) :
    Lowering (List Line) := do
  let arms ← armLines ctx splice last es
  let otherwise ← blockLines ctx splice o
  return arms ++ otherwise

theorem note_eq_nil (hc : ctx.comments = false) (text : String) : ctx.note text = [] := by
  simp [Context.note, hc]

theorem instrLines_op {o : Op} (hn : ∀ name, o ≠ .ident name) (p : Pos) :
    instrLines ctx splice (.op p o) = do
      let lines ← opLines ctx p o
      return ctx.note o.text ++ lines := by
  rw [instrLines]
  exact hn

/-- The first condition of a conditional is lowered like the further ones. -/
theorem instrLines_branch (hc : ctx.comments = false) (p : Pos) (c b : Block) (es : List Arm)
    (o : Block) : instrLines ctx splice (.branch p c b es o) = do
      let last ← freshLabel
      let lines ← tailLines ctx splice last (.mk p c b :: es) o
      return lines ++ [label last] := by
  cases o <;> simp [instrLines, tailLines, armLines, blockLines, note_eq_nil hc]

/-- Lowering that emits code in the way said above, whatever came before. -/
def Clean (x : Lowering (List Line)) : Prop :=
  ∀ ⦃pool code pool'⦄, x pool = .ok (code, pool') → Emits [] pool code pool'

theorem clean_nil : Clean (pure []) := by
  intro pool code pool' h
  obtain ⟨rfl, rfl⟩ := lowering_pure_eq_ok.mp h
  exact .insts List.prefix_rfl (Nat.le_refl _) rfl

theorem clean_append {x y : Lowering (List Line)} (hx : Clean x) (hy : Clean y) :
    Clean do
      let first ← x
      let rest ← y
      return first ++ rest := by
  intro pool code pool' h
  obtain ⟨first, mid, h₁, h⟩ := lowering_bind_eq_ok.mp h
  obtain ⟨rest, mid', h₂, h⟩ := lowering_bind_eq_ok.mp h
  obtain ⟨rfl, rfl⟩ := lowering_pure_eq_ok.mp h
  exact (hx h₁).andThen (hy h₂)

theorem clean_nameLines (hc : ctx.comments = false) (hs : ∀ d pos, Clean (splice d pos))
    (pos : Pos) (name : String) : Clean (nameLines ctx splice pos name) := by
  intro pool code pool' h
  cases hd : ctx.program.inlines.get? name <;>
    simp only [nameLines, hd, note_eq_nil hc, List.nil_append] at h
  next =>
    split at h
    next =>
      obtain ⟨rfl, rfl⟩ := lowering_pure_eq_ok.mp h
      exact .insts List.prefix_rfl (Nat.le_refl _) rfl
    next =>
      split at h
      next =>
        obtain ⟨back, mid, hb, h⟩ := lowering_bind_eq_ok.mp h
        obtain ⟨rfl, rfl⟩ := freshLabel_eq_ok.mp hb
        obtain ⟨rfl, rfl⟩ := lowering_pure_eq_ok.mp h
        exact (Emits.fresh pool).rearrange (.refl _) rfl
      next => cases h
  next => exact hs _ _ h

theorem clean_op (hc : ctx.comments = false) (hs : ∀ d pos, Clean (splice d pos)) (p : Pos)
    (o : Op) : Clean (instrLines ctx splice (.op p o)) := by
  intro pool code pool' h
  by_cases hn : ∃ name, o = .ident name
  · obtain ⟨name, rfl⟩ := hn
    exact clean_nameLines hc hs p name h
  · rw [instrLines_op fun name same => hn ⟨name, same⟩, note_eq_nil hc] at h
    obtain ⟨lines, mid, hl, h⟩ := lowering_bind_eq_ok.mp h
    obtain ⟨rfl, rfl⟩ := lowering_pure_eq_ok.mp h
    obtain ⟨strings, labels, insts⟩ := opLines_insts hl
    exact .insts strings (Nat.le_of_eq labels.symm) insts

theorem clean_arm (hc : ctx.comments = false) {p : Pos} {c b : Block} {es : List Arm}
    {last : Symbol} (cond : Clean (blockLines ctx splice c))
    (body : Clean (blockLines ctx splice b)) (others : Clean (armLines ctx splice last es)) :
    Clean (armLines ctx splice last (.mk p c b :: es)) := by
  intro pool code pool' h
  obtain ⟨next, pool₁, hn, h⟩ := lowering_bind_eq_ok.mp h
  obtain ⟨first, pool₂, hf, h⟩ := lowering_bind_eq_ok.mp h
  obtain ⟨second, pool₃, hs, h⟩ := lowering_bind_eq_ok.mp h
  obtain ⟨third, pool₄, ht, h⟩ := lowering_bind_eq_ok.mp h
  obtain ⟨rfl, rfl⟩ := lowering_pure_eq_ok.mp h
  obtain ⟨rfl, rfl⟩ := freshLabel_eq_ok.mp hn
  have emits := (Emits.fresh pool).andThen (((cond hf).andThen (body hs)).andThen (others ht))
  refine emits.rearrange ?_ ?_
  · simp only [note_eq_nil hc, jumpIfZero, pop, both, List.nil_append, labels_append,
      labels_label, labels_inst, List.cons_append, List.append_assoc]
    rw [← List.append_assoc, ← List.append_assoc]
    exact List.perm_middle
  · simp [note_eq_nil hc, jumpIfZero, pop, both, (cond hf).plain, (body hs).plain,
      (others ht).plain]

theorem clean_branch (hc : ctx.comments = false) {p : Pos} {c b : Block} {es : List Arm}
    {o : Block} (arms : ∀ last, Clean (armLines ctx splice last (.mk p c b :: es)))
    (otherwise : Clean (blockLines ctx splice o)) :
    Clean (instrLines ctx splice (.branch p c b es o)) := by
  intro pool code pool' h
  rw [instrLines_branch hc] at h
  obtain ⟨last, pool₁, hl, h⟩ := lowering_bind_eq_ok.mp h
  obtain ⟨lines, pool₂, ht, h⟩ := lowering_bind_eq_ok.mp h
  obtain ⟨rfl, rfl⟩ := lowering_pure_eq_ok.mp h
  obtain ⟨rfl, rfl⟩ := freshLabel_eq_ok.mp hl
  have emits := clean_append (arms _) otherwise ht
  refine ((Emits.fresh pool).andThen emits).rearrange ?_ ?_
  · rw [labels_append, labels_append]
    exact List.perm_append_comm
  · simp [emits.plain]

theorem clean_loop (hc : ctx.comments = false) {p : Pos} {c b : Block}
    (cond : Clean (blockLines ctx splice c)) (body : Clean (blockLines ctx splice b)) :
    Clean (instrLines ctx splice (.loop p c b)) := by
  intro pool code pool' h
  obtain ⟨first, pool₁, hf, h⟩ := lowering_bind_eq_ok.mp h
  obtain ⟨last, pool₂, hl, h⟩ := lowering_bind_eq_ok.mp h
  obtain ⟨front, pool₃, hcond, h⟩ := lowering_bind_eq_ok.mp h
  obtain ⟨rear, pool₄, hbody, h⟩ := lowering_bind_eq_ok.mp h
  obtain ⟨rfl, rfl⟩ := lowering_pure_eq_ok.mp h
  obtain ⟨rfl, rfl⟩ := freshLabel_eq_ok.mp hf
  obtain ⟨rfl, rfl⟩ := freshLabel_eq_ok.mp hl
  have emits := (Emits.fresh pool).andThen
    ((Emits.fresh _).andThen ((cond hcond).andThen (body hbody)))
  refine emits.rearrange ?_ ?_
  · simp only [note_eq_nil hc, jumpIfZero, pop, both, List.nil_append, labels_append,
      labels_label, labels_inst, labels_nil, List.cons_append, List.append_assoc]
    refine .cons _ ?_
    rw [← List.append_assoc]
    exact List.perm_append_comm
  · simp [note_eq_nil hc, jumpIfZero, pop, both, (cond hcond).plain, (body hbody).plain]

mutual

theorem clean_instrLines (hc : ctx.comments = false) (hs : ∀ d pos, Clean (splice d pos))
    (x : Instr) : Clean (instrLines ctx splice x) := by
  match x with
  | .op p o => exact clean_op hc hs p o
  | .branch p c b es o =>
    refine clean_branch hc (fun last => ?_) (clean_blockLines hc hs o)
    exact clean_arm hc (clean_blockLines hc hs c) (clean_blockLines hc hs b)
      (clean_armLines hc hs es last)
  | .loop p c b => exact clean_loop hc (clean_blockLines hc hs c) (clean_blockLines hc hs b)

theorem clean_blockLines (hc : ctx.comments = false) (hs : ∀ d pos, Clean (splice d pos))
    (b : Block) : Clean (blockLines ctx splice b) := by
  match b with
  | .absent => exact clean_nil
  | .mk p xs => exact clean_listLines hc hs xs

theorem clean_listLines (hc : ctx.comments = false) (hs : ∀ d pos, Clean (splice d pos))
    (xs : List Instr) : Clean (listLines ctx splice xs) := by
  match xs with
  | [] => exact clean_nil
  | x :: xs => exact clean_append (clean_instrLines hc hs x) (clean_listLines hc hs xs)

theorem clean_armLines (hc : ctx.comments = false) (hs : ∀ d pos, Clean (splice d pos))
    (es : List Arm) (last : Symbol) : Clean (armLines ctx splice last es) := by
  match es with
  | [] => exact clean_nil
  | .mk p c b :: rest =>
    exact clean_arm hc (clean_blockLines hc hs c) (clean_blockLines hc hs b)
      (clean_armLines hc hs rest last)

end

theorem clean_inlineLines (hc : ctx.comments = false) (fuel : Nat) (active : List String)
    (d : Routine) (pos : Pos) : Clean (inlineLines ctx fuel active d pos) := by
  induction fuel generalizing active d pos with
  | zero =>
    intro pool code pool' h
    cases h
  | succ fuel ih =>
    intro pool code pool' h
    rw [inlineLines] at h
    split at h
    next => cases h
    next => exact clean_blockLines hc (fun d pos => ih _ d pos) d.body h

/-! ### Procedures -/

variable {p : Program} {depth : Int}

/-- The code of a body, as it stands behind the label of its procedure. -/
def BodyCode (p : Program) (depth : Int) (r : Routine) (pool : Pool) (body : List Line)
    (pool' : Pool) : Prop :=
  let ctx : Context := ⟨p, depth, false, r.name⟩
  blockLines ctx (inlineLines ctx (p.inlines.size + 1) []) r.body pool = .ok (body, pool')

theorem procLines_eq_ok {r : Routine} (h : procLines p depth false r pool = .ok (code, pool')) :
    ∃ body after, code = label (.proc r.name) :: body ++ after ∧ labels after = [] ∧
      dataOf after = [] ∧ BodyCode p depth r pool body pool' := by
  obtain ⟨serial, name, pos, namePos, body⟩ := r
  cases body with
  | absent => cases h
  | mk q xs =>
    obtain ⟨lines, mid, hl, h⟩ := lowering_bind_eq_ok.mp h
    obtain ⟨rfl, rfl⟩ := lowering_pure_eq_ok.mp h
    refine ⟨lines, (if (Block.mk q xs).lastIsReturn then [] else returnLines name) ++ [blank],
      by simp, ?_, ?_, hl⟩
    · split
      next => rfl
      next => unfold returnLines; split <;> rfl
    · split
      next => rfl
      next => unfold returnLines; split <;> rfl

theorem procLines_emits {r : Routine} (h : procLines p depth false r pool = .ok (code, pool')) :
    Emits [r.name] pool code pool' := by
  obtain ⟨body, after, rfl, noLabels, noData, hb⟩ := procLines_eq_ok h
  have emits : Emits [] pool body pool' :=
    clean_blockLines rfl (clean_inlineLines rfl _ _) r.body hb
  have all := (Emits.proc r.name pool).append emits (List.disjoint_nil_right _)
  refine all.rearrange ?_ ?_
  · simp [noLabels]
  · simp [noData, emits.plain]

theorem procsLines_emits {rs : List Routine} (nodup : (rs.map Routine.name).Nodup)
    (h : procsLines p depth false rs pool = .ok (code, pool')) :
    Emits (rs.map Routine.name) pool code pool' := by
  induction rs generalizing pool code with
  | nil =>
    obtain ⟨rfl, rfl⟩ := lowering_pure_eq_ok.mp h
    exact .insts List.prefix_rfl (Nat.le_refl _) rfl
  | cons r rest ih =>
    obtain ⟨first, mid, hf, h⟩ := lowering_bind_eq_ok.mp h
    obtain ⟨others, mid', ho, h⟩ := lowering_bind_eq_ok.mp h
    obtain ⟨rfl, rfl⟩ := lowering_pure_eq_ok.mp h
    rw [List.map_cons, List.nodup_cons] at nodup
    refine (procLines_emits hf).append (ih nodup.2 ho) ?_
    rw [List.disjoint_left]
    intro n hn
    rw [List.mem_singleton.mp hn]
    exact nodup.1

/-- Where the code of a procedure stands among that of all. -/
theorem procsLines_placed {rs : List Routine} {r : Routine} (hr : r ∈ rs)
    (nodup : (rs.map Routine.name).Nodup)
    (h : procsLines p depth false rs pool = .ok (code, pool')) :
    ∃ before body after mid mid', code = before ++ label (.proc r.name) :: body ++ after ∧
      BodyCode p depth r mid body mid' ∧ mid'.strings <+: pool'.strings := by
  induction rs generalizing pool code with
  | nil => cases hr
  | cons r' rest ih =>
    obtain ⟨first, mid, hf, h⟩ := lowering_bind_eq_ok.mp h
    obtain ⟨others, mid', ho, h⟩ := lowering_bind_eq_ok.mp h
    obtain ⟨rfl, rfl⟩ := lowering_pure_eq_ok.mp h
    rw [List.map_cons, List.nodup_cons] at nodup
    rcases List.mem_cons.mp hr with rfl | hr
    · obtain ⟨body, after, rfl, _, _, hb⟩ := procLines_eq_ok hf
      exact ⟨[], body, after ++ others, pool, mid, by simp, hb,
        (procsLines_emits nodup.2 ho).strings⟩
    · obtain ⟨before, body, after, q, q', rfl, hb, strings⟩ := ih hr nodup.2 ho
      exact ⟨first ++ before, body, after, q, q', by simp, hb, strings⟩

end StackLang.Target
