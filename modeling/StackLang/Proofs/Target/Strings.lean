import StackLang.Proofs.Target.Assembled
import StackLang.Proofs.Target.Mangling
import StackLang.Proofs.Target.Resolution
/-!
The table of strings. On the way through a program every string that is met is pushed as its length
and its number, and the table holds the strings met, each once, in the order in which they are met
first.
-/

namespace StackLang

/-! ### Strings in the order in which they are met -/

/-- The string that a part of a program pushes. -/
def Node.string? : Node → Option String
  | .instr (.op _ (.pushStr value _)) => some value
  | _ => none

/-- The strings among parts of a program, in order. -/
def stringsOf (nodes : List Node) : List String :=
  nodes.filterMap Node.string?

/-- The strings that instructions push at whatever depth, from left to right. -/
def Instr.strings (xs : List Instr) : List String :=
  stringsOf (Instr.nodesList (fun _ => true) xs)

def Block.strings (b : Block) : List String :=
  stringsOf (b.nodes fun _ => true)

def Arm.strings (es : List Arm) : List String :=
  stringsOf (Arm.nodesList (fun _ => true) es)

/-- The strings met on the way through a program: procedures in the order of their declaration, each
body from left to right, and the name of an inline gives way to what is met in its body. -/
def Program.Pushes (p : Program) (values : List String) : Prop :=
  ∃ bodies, List.Forall₂ (Block.Unfolds p) (p.procDecls.map Routine.body) bodies ∧
    values = bodies.flatMap Block.strings

theorem Program.Pushes.unique {p : Program} {values values' : List String} (h : p.Pushes values)
    (h' : p.Pushes values') : values = values' := by
  obtain ⟨bodies, unfolds, rfl⟩ := h
  obtain ⟨bodies', unfolds', rfl⟩ := h'
  have choiceless : Relator.RightUnique (Block.Unfolds p) := fun _ _ _ h h' => h.unique h'
  rw [choiceless.forall₂ unfolds unfolds']

/-- The strings met in instructions whose inlines give way to their bodies. -/
def Instr.Pushes (p : Program) (xs : List Instr) (values : List String) : Prop :=
  ∃ ys, Instr.Unfolds p xs ys ∧ values = Instr.strings ys

def Block.Pushes (p : Program) (b : Block) (values : List String) : Prop :=
  ∃ b', Block.Unfolds p b b' ∧ values = b'.strings

def Arm.Pushes (p : Program) (es : List Arm) (values : List String) : Prop :=
  ∃ es', Arm.Unfolds p es es' ∧ values = Arm.strings es'

/-- What an instruction contributes to the strings met, whatever follows it. -/
def Instr.Adds (p : Program) (x : Instr) (values : List String) : Prop :=
  ∃ zs, values = Instr.strings zs ∧
    ∀ {xs ys}, Instr.Unfolds p xs ys → Instr.Unfolds p (x :: xs) (zs ++ ys)

theorem stringsOf_cons {n : Node} (h : n.string? = none) (ns : List Node) :
    stringsOf (n :: ns) = stringsOf ns :=
  List.filterMap_cons_none h

@[simp] theorem stringsOf_append (ns ms : List Node) :
    stringsOf (ns ++ ms) = stringsOf ns ++ stringsOf ms :=
  List.filterMap_append

theorem Instr.strings_cons (x : Instr) (xs : List Instr) :
    Instr.strings (x :: xs) = Instr.strings [x] ++ Instr.strings xs := by
  simp [Instr.strings, Instr.nodesList]

theorem Instr.strings_append (xs ys : List Instr) :
    Instr.strings (xs ++ ys) = Instr.strings xs ++ Instr.strings ys := by
  induction xs with
  | nil => rfl
  | cons x xs ih =>
    rw [List.cons_append, Instr.strings_cons, ih, Instr.strings_cons x xs, List.append_assoc]

theorem Instr.strings_branch (pos : Pos) (c b : Block) (es : List Arm) (o : Block) :
    Instr.strings [.branch pos c b es o] =
      c.strings ++ (b.strings ++ (Arm.strings es ++ o.strings)) := by
  rw [Instr.strings, Instr.nodesList, Instr.nodes, if_pos rfl, List.cons_append, stringsOf_cons rfl]
  simp [Instr.nodesList, Block.strings, Arm.strings]

theorem Instr.strings_loop (pos : Pos) (c b : Block) :
    Instr.strings [.loop pos c b] = c.strings ++ b.strings := by
  rw [Instr.strings, Instr.nodesList, Instr.nodes, if_pos rfl, List.cons_append, stringsOf_cons rfl]
  simp [Instr.nodesList, Block.strings]

theorem Block.strings_mk (pos : Pos) (xs : List Instr) :
    (Block.mk pos xs).strings = Instr.strings xs := by
  rw [Block.strings, Block.nodes, if_pos rfl, stringsOf_cons rfl]
  rfl

theorem Arm.strings_cons (pos : Pos) (c b : Block) (es : List Arm) :
    Arm.strings (.mk pos c b :: es) = c.strings ++ (b.strings ++ Arm.strings es) := by
  rw [Arm.strings, Arm.nodesList, if_pos rfl, stringsOf_cons rfl]
  simp [Block.strings, Arm.strings]

namespace Target

open Line
open Text (bytesOf hexValue? hexByte)

/-! ### Interning -/

/-- A table with a string entered, at its end, if it was not there. -/
def intern (table : List String) (value : String) : List String :=
  if value ∈ table then table else table ++ [value]

theorem prefix_intern (table : List String) (value : String) : table <+: intern table value := by
  unfold intern
  split
  · exact List.prefix_rfl
  · exact List.prefix_append _ _

theorem prefix_foldl_intern (table values : List String) :
    table <+: values.foldl intern table := by
  induction values generalizing table with
  | nil => exact List.prefix_rfl
  | cons v values ih => exact (prefix_intern table v).trans (ih _)

theorem nodup_intern {table : List String} (h : table.Nodup) (value : String) :
    (intern table value).Nodup := by
  unfold intern
  split
  next => exact h
  next new => exact h.append (List.nodup_singleton _) (by simpa using new)

theorem nodup_foldl_intern {table : List String} (h : table.Nodup) (values : List String) :
    (values.foldl intern table).Nodup := by
  induction values generalizing table with
  | nil => exact h
  | cons v values ih => exact ih (nodup_intern h v)

/-- Entering strings one after another leaves each of them once, in the order of first use. -/
theorem foldl_intern (met values : List String) :
    values.foldl intern met.eraseDups = (met ++ values).eraseDups := by
  induction values generalizing met with
  | nil => simp
  | cons v values ih =>
    have step : intern met.eraseDups v = (met ++ [v]).eraseDups := by
      rw [intern, List.eraseDups_append]
      by_cases hv : v ∈ met <;> simp [List.removeAll, List.eraseDups_cons, hv]
    rw [List.foldl_cons, step, ih, List.append_assoc, List.singleton_append]

theorem internString_strings {pool pool' : Pool} {value : String} {i : Nat}
    (h : internString value pool = .ok (i, pool')) :
    pool'.strings = intern pool.strings value := by
  unfold internString at h
  unfold intern
  split at h
  next hm =>
    cases h
    rw [if_pos (by simpa using hm)]
  next hm =>
    cases h
    rw [if_neg (by simpa using hm)]

/-! ### Pushes of strings in assembly -/

/-- The number of the string whose address a line pushes. -/
def Line.pushed? : Line → Option Nat
  | .inst (.push (.symbol (.string i))) => some i
  | _ => none

/-- Whether a line holds a string of the table. -/
def Line.isEntry : Line → Bool
  | .data (.string _) .. => true
  | _ => false

/-- The numbers of the strings that are pushed, each with the line in front of the push. The first
argument is the line in front of all. -/
def stringPushes : Option Line → List Line → List (Option Line × Nat)
  | _, [] => []
  | before, l :: rest => (l.pushed?.map (before, ·)).toList ++ stringPushes (some l) rest

/-- How a string is pushed by its number in a table: behind its length in bytes. -/
def stringPush (table : List String) (value : String) : Option Line × Nat :=
  (some (inst (.push (.imm (bytesOf value).length))), table.idxOf value)

/-- Neither does the line push a string nor is it one of the table. -/
def Line.isQuiet (l : Line) : Bool :=
  l.pushed?.isNone && !l.isEntry

/-- Whether lines can stand behind any line, since they do not begin with the push of a string. -/
def Opening (lines : List Line) : Prop :=
  ∀ l ∈ lines.head?, l.pushed? = none

theorem stringPushes_opening {lines : List Line} (h : Opening lines)
    (before before' : Option Line) :
    stringPushes before lines = stringPushes before' lines := by
  cases lines with
  | nil => rfl
  | cons l rest => simp [stringPushes, h l rfl]

theorem stringPushes_append {lines lines' : List Line} (h : Opening lines')
    (before before' : Option Line) : stringPushes before (lines ++ lines') =
      stringPushes before lines ++ stringPushes before' lines' := by
  induction lines generalizing before with
  | nil => exact stringPushes_opening h _ _
  | cons l rest ih => simp only [List.cons_append, stringPushes, ih, List.append_assoc]

theorem stringPushes_of_none {lines : List Line} (h : ∀ l ∈ lines, l.pushed? = none)
    (before : Option Line) : stringPushes before lines = [] := by
  induction lines generalizing before with
  | nil => rfl
  | cons l rest ih =>
    obtain ⟨hl, hrest⟩ := List.forall_mem_cons.mp h
    simp [stringPushes, hl, ih hrest]

/-- What code does that meets the given strings in this order, between two states of the table: they
are entered, and each is pushed by its number. -/
structure Enters (table values : List String) (code : List Line) (table' : List String) : Prop where
  strings : table' = values.foldl intern table
  opening : Opening code
  pushes : ∀ later, table' <+: later → ∀ before,
    stringPushes before code = values.map (stringPush later)
  plain : code.any isEntry = false

namespace Enters

variable {table mid table' : List String} {values values' : List String} {code code' : List Line}

theorem quiet (h : code.all isQuiet = true) : Enters table [] code table := by
  have none : ∀ l ∈ code, l.pushed? = none ∧ l.isEntry = false := by
    intro l hl
    simpa [isQuiet] using List.all_eq_true.mp h l hl
  refine ⟨rfl, fun l hl => (none l (List.mem_of_mem_head? hl)).1, fun _ _ before => ?_, ?_⟩
  · exact stringPushes_of_none (fun l hl => (none l hl).1) before
  · simpa using fun l hl => (none l hl).2

theorem append (h : Enters table values code mid) (h' : Enters mid values' code' table') :
    Enters table (values ++ values') (code ++ code') table' := by
  refine ⟨by rw [h'.strings, h.strings, List.foldl_append], ?_, ?_, ?_⟩
  · cases code with
    | nil => exact h'.opening
    | cons l rest => exact h.opening
  · intro later known before
    have first : mid <+: later := by
      refine List.IsPrefix.trans ?_ known
      rw [h'.strings]
      exact prefix_foldl_intern _ _
    rw [stringPushes_append h'.opening before none, h.pushes later first, h'.pushes later known,
      List.map_append]
  · rw [List.any_append, h.plain, h'.plain]
    rfl

/-- Lines that concern no string may stand in front. -/
theorem behind (h : Enters table values code table') {front : List Line}
    (quiet : front.all isQuiet = true) : Enters table values (front ++ code) table' :=
  (Enters.quiet quiet).append h

/-- Lines that concern no string may stand behind. -/
theorem before (h : Enters table values code table') {rear : List Line}
    (quiet : rear.all isQuiet = true) : Enters table values (code ++ rear) table' := by
  have whole := h.append (Enters.quiet quiet)
  rwa [List.append_nil] at whole

/-- An arm: a condition, a jump past the body, the body, and a jump past the other arms. -/
theorem arm {table₁ table₂ conds bodies more : List String} {cond body others : List Line}
    {last next : Symbol} (hcond : Enters table conds cond table₁)
    (hbody : Enters table₁ bodies body table₂) (hothers : Enters table₂ more others table') :
    Enters table (conds ++ (bodies ++ more)) (cond ++ jumpIfZero next ++ body ++
      [inst (.jump last), label next] ++ others) table' := by
  have leave : [inst (.jump last), label next].all isQuiet = true := rfl
  have skip : (jumpIfZero next).all isQuiet = true := rfl
  have whole := hcond.append ((hbody.append (hothers.behind leave)).behind skip)
  simpa only [List.append_assoc] using whole

/-- A loop: a condition, a jump past the body, the body, and a jump back. -/
theorem loop {conds bodies : List String} {cond body : List Line} {first last : Symbol}
    (hcond : Enters table conds cond mid) (hbody : Enters mid bodies body table') :
    Enters table (conds ++ bodies) ([label first] ++ cond ++ jumpIfZero last ++ body ++
      [inst (.jump first), label last]) table' := by
  have enter : [label first].all isQuiet = true := rfl
  have skip : (jumpIfZero last).all isQuiet = true := rfl
  have leave : [inst (.jump first), label last].all isQuiet = true := rfl
  have whole := (hcond.append ((hbody.before leave).behind skip)).behind enter
  simpa only [List.append_assoc] using whole

end Enters

/-! ### Lowering enters the strings that it meets -/

variable {ctx : Context} {splice : Splice}

theorem all_isQuiet_of_basic {code : List Line} (h : code.all isBasic = true) :
    code.all isQuiet = true := by
  refine List.all_eq_true.mpr fun l hl => ?_
  have basic := List.all_eq_true.mp h l hl
  unfold isQuiet pushed? isEntry
  split <;> split <;> first | rfl | cases basic

theorem pushStr_enters {pool pool' : Pool} {value : String} {i : Nat}
    (h : internString value pool = .ok (i, pool')) :
    Enters pool.strings [value] [inst (.push (.imm (bytesOf value).length)),
      inst (.push (.symbol (.string i)))] pool'.strings := by
  obtain ⟨_, _, known, rfl⟩ := internString_eq_ok h
  refine ⟨internString_strings h, by simp [Opening, pushed?], ?_, rfl⟩
  rintro table ⟨later, rfl⟩ before
  have index : (pool'.strings ++ later).idxOf value = pool'.strings.idxOf value :=
    List.idxOf_append_of_mem known
  simp [stringPushes, stringPush, pushed?, index]

/-- An instruction without parts concerns no string but the one that it pushes. -/
theorem opLines_enters {pool pool' : Pool} {code : List Line} {pos : Pos} {o : Op}
    (h : opLines ctx pos o pool = .ok (code, pool')) :
    Enters pool.strings (Instr.strings [.op pos o]) code pool'.strings := by
  by_cases hs : ∃ value raw, o = .pushStr value raw
  · obtain ⟨value, raw, rfl⟩ := hs
    obtain ⟨i, hi, rfl⟩ := opLines_pushStr h
    exact pushStr_enters hi
  · have other : ∀ value raw, o ≠ .pushStr value raw := fun value raw same => hs ⟨value, raw, same⟩
    have silent : Instr.strings [.op pos o] = [] := by
      cases o <;> first | rfl | exact absurd rfl (other _ _)
    obtain ⟨rfl, basic⟩ := opLines_basic other h
    rw [silent]
    exact .quiet (all_isQuiet_of_basic basic)

/-- Lowering that enters the strings of which a relation says that they are met. -/
def Tabulates (m : Lowering (List Line)) (met : List String → Prop) : Prop :=
  ∀ ⦃pool code pool'⦄, m pool = .ok (code, pool') →
    ∃ values, met values ∧ Enters pool.strings values code pool'.strings

theorem tabulates_nil {met : List String → Prop} (h : met []) : Tabulates (pure []) met := by
  intro pool code pool' done
  obtain ⟨rfl, rfl⟩ := lowering_pure_eq_ok.mp done
  exact ⟨[], h, .quiet rfl⟩

theorem tabulates_name (hc : ctx.comments = false)
    (hs : ∀ d pos, Tabulates (splice d pos) (Instr.Pushes ctx.program d.body.instrs)) (pos : Pos)
    (name : String) :
    Tabulates (nameLines ctx splice pos name) (Instr.Adds ctx.program (.op pos (.ident name))) := by
  intro pool code pool' h
  cases hd : ctx.program.inlines.get? name <;>
    simp only [nameLines, hd, note_eq_nil hc, List.nil_append] at h
  next =>
    have stays : Instr.Adds ctx.program (.op pos (.ident name)) [] := by
      refine ⟨[.op pos (.ident name)], rfl, fun rest => .plain ?_ rest⟩
      rintro other ⟨⟩
      exact hd
    split at h
    next =>
      obtain ⟨rfl, rfl⟩ := lowering_pure_eq_ok.mp h
      exact ⟨[], stays, .quiet rfl⟩
    next =>
      split at h
      next =>
        obtain ⟨back, mid, hb, h⟩ := lowering_bind_eq_ok.mp h
        obtain ⟨rfl, rfl⟩ := freshLabel_eq_ok.mp hb
        obtain ⟨rfl, rfl⟩ := lowering_pure_eq_ok.mp h
        exact ⟨[], stays, .quiet rfl⟩
      next => cases h
  next d =>
    obtain ⟨values, ⟨zs, body, same⟩, enters⟩ := hs d pos h
    exact ⟨values, ⟨zs, same, fun rest => .inline hd body rest⟩, enters⟩

theorem tabulates_op (hc : ctx.comments = false)
    (hs : ∀ d pos, Tabulates (splice d pos) (Instr.Pushes ctx.program d.body.instrs)) (pos : Pos)
    (o : Op) :
    Tabulates (instrLines ctx splice (.op pos o)) (Instr.Adds ctx.program (.op pos o)) := by
  intro pool code pool' h
  by_cases hn : ∃ name, o = .ident name
  · obtain ⟨name, rfl⟩ := hn
    exact tabulates_name hc hs pos name h
  · have other : ∀ name, o ≠ .ident name := fun name same => hn ⟨name, same⟩
    rw [instrLines_op other, note_eq_nil hc] at h
    obtain ⟨lines, mid, hl, h⟩ := lowering_bind_eq_ok.mp h
    obtain ⟨rfl, rfl⟩ := lowering_pure_eq_ok.mp h
    refine ⟨_, ⟨[.op pos o], rfl, fun rest => .plain ?_ rest⟩, opLines_enters hl⟩
    exact fun name same => absurd same (other name)

theorem tabulates_arm (hc : ctx.comments = false) {p : Program} {q : Pos} {c b : Block}
    {es : List Arm} {last : Symbol} (cond : Tabulates (blockLines ctx splice c) (c.Pushes p))
    (body : Tabulates (blockLines ctx splice b) (b.Pushes p))
    (others : Tabulates (armLines ctx splice last es) (Arm.Pushes p es)) :
    Tabulates (armLines ctx splice last (.mk q c b :: es)) (Arm.Pushes p (.mk q c b :: es)) := by
  intro pool code pool' h
  obtain ⟨next, pool₁, hn, h⟩ := lowering_bind_eq_ok.mp h
  obtain ⟨front, pool₂, hf, h⟩ := lowering_bind_eq_ok.mp h
  obtain ⟨rear, pool₃, hr, h⟩ := lowering_bind_eq_ok.mp h
  obtain ⟨more, pool₄, hm, h⟩ := lowering_bind_eq_ok.mp h
  obtain ⟨rfl, rfl⟩ := lowering_pure_eq_ok.mp h
  obtain ⟨rfl, rfl⟩ := freshLabel_eq_ok.mp hn
  obtain ⟨_, ⟨c', uc, rfl⟩, ec⟩ := cond hf
  obtain ⟨_, ⟨b', ub, rfl⟩, eb⟩ := body hr
  obtain ⟨_, ⟨es', ues, rfl⟩, ees⟩ := others hm
  refine ⟨_, ⟨.mk q c' b' :: es', .cons uc ub ues, rfl⟩, ?_⟩
  rw [Arm.strings_cons, note_eq_nil hc]
  exact ec.arm eb ees

theorem tabulates_branch (hc : ctx.comments = false) {p : Program} {q : Pos} {c b : Block}
    {es : List Arm} {o : Block}
    (arms : ∀ last, Tabulates (armLines ctx splice last (.mk q c b :: es))
      (Arm.Pushes p (.mk q c b :: es)))
    (otherwise : Tabulates (blockLines ctx splice o) (o.Pushes p)) :
    Tabulates (instrLines ctx splice (.branch q c b es o)) (Instr.Adds p (.branch q c b es o)) := by
  intro pool code pool' h
  rw [instrLines_branch hc] at h
  obtain ⟨last, pool₁, hl, h⟩ := lowering_bind_eq_ok.mp h
  obtain ⟨lines, pool₂, ht, h⟩ := lowering_bind_eq_ok.mp h
  obtain ⟨rfl, rfl⟩ := lowering_pure_eq_ok.mp h
  obtain ⟨rfl, rfl⟩ := freshLabel_eq_ok.mp hl
  obtain ⟨front, pool₃, hf, ht⟩ := lowering_bind_eq_ok.mp ht
  obtain ⟨rear, pool₄, hr, ht⟩ := lowering_bind_eq_ok.mp ht
  obtain ⟨rfl, rfl⟩ := lowering_pure_eq_ok.mp ht
  obtain ⟨_, ⟨_, unfolds, rfl⟩, ees⟩ := arms _ hf
  obtain ⟨_, ⟨o', uo, rfl⟩, eo⟩ := otherwise hr
  cases unfolds with
  | @cons _ _ c' _ b' _ es' uc ub ues =>
    have strings : Arm.strings (.mk q c' b' :: es') ++ o'.strings =
        Instr.strings [.branch q c' b' es' o'] := by
      rw [Instr.strings_branch, Arm.strings_cons]
      simp only [List.append_assoc]
    have leave : [label (.label pool.labels)].all isQuiet = true := rfl
    exact ⟨_, ⟨_, strings, fun rest => .branch uc ub ues uo rest⟩, (ees.append eo).before leave⟩

theorem tabulates_loop (hc : ctx.comments = false) {p : Program} {q : Pos} {c b : Block}
    (cond : Tabulates (blockLines ctx splice c) (c.Pushes p))
    (body : Tabulates (blockLines ctx splice b) (b.Pushes p)) :
    Tabulates (instrLines ctx splice (.loop q c b)) (Instr.Adds p (.loop q c b)) := by
  intro pool code pool' h
  obtain ⟨first, pool₁, hf, h⟩ := lowering_bind_eq_ok.mp h
  obtain ⟨last, pool₂, hl, h⟩ := lowering_bind_eq_ok.mp h
  obtain ⟨front, pool₃, hcond, h⟩ := lowering_bind_eq_ok.mp h
  obtain ⟨rear, pool₄, hbody, h⟩ := lowering_bind_eq_ok.mp h
  obtain ⟨rfl, rfl⟩ := lowering_pure_eq_ok.mp h
  obtain ⟨rfl, rfl⟩ := freshLabel_eq_ok.mp hf
  obtain ⟨rfl, rfl⟩ := freshLabel_eq_ok.mp hl
  obtain ⟨_, ⟨c', uc, rfl⟩, ec⟩ := cond hcond
  obtain ⟨_, ⟨b', ub, rfl⟩, eb⟩ := body hbody
  refine ⟨_, ⟨[.loop q c' b'], rfl, fun rest => .loop uc ub rest⟩, ?_⟩
  rw [Instr.strings_loop, note_eq_nil hc]
  exact ec.loop eb

mutual

theorem tabulates_instrLines (hc : ctx.comments = false)
    (hs : ∀ d pos, Tabulates (splice d pos) (Instr.Pushes ctx.program d.body.instrs)) (x : Instr) :
    Tabulates (instrLines ctx splice x) (Instr.Adds ctx.program x) := by
  match x with
  | .op pos o => exact tabulates_op hc hs pos o
  | .branch pos c b es o =>
    refine tabulates_branch hc (fun last => ?_) (tabulates_blockLines hc hs o)
    exact tabulates_arm hc (tabulates_blockLines hc hs c) (tabulates_blockLines hc hs b)
      (tabulates_armLines hc hs es last)
  | .loop pos c b =>
    exact tabulates_loop hc (tabulates_blockLines hc hs c) (tabulates_blockLines hc hs b)

theorem tabulates_blockLines (hc : ctx.comments = false)
    (hs : ∀ d pos, Tabulates (splice d pos) (Instr.Pushes ctx.program d.body.instrs)) (b : Block) :
    Tabulates (blockLines ctx splice b) (b.Pushes ctx.program) := by
  match b with
  | .absent => exact tabulates_nil ⟨_, .absent, rfl⟩
  | .mk q xs =>
    intro pool code pool' h
    obtain ⟨_, ⟨ys, unfolds, rfl⟩, enters⟩ := tabulates_listLines hc hs xs h
    exact ⟨_, ⟨.mk q ys, .mk unfolds, (Block.strings_mk q ys).symm⟩, enters⟩

theorem tabulates_listLines (hc : ctx.comments = false)
    (hs : ∀ d pos, Tabulates (splice d pos) (Instr.Pushes ctx.program d.body.instrs))
    (xs : List Instr) : Tabulates (listLines ctx splice xs) (Instr.Pushes ctx.program xs) := by
  match xs with
  | [] => exact tabulates_nil ⟨_, .nil, rfl⟩
  | x :: xs =>
    intro pool code pool' h
    obtain ⟨first, mid, hx, h⟩ := lowering_bind_eq_ok.mp h
    obtain ⟨rest, mid', hxs, h⟩ := lowering_bind_eq_ok.mp h
    obtain ⟨rfl, rfl⟩ := lowering_pure_eq_ok.mp h
    obtain ⟨_, ⟨zs, rfl, becomes⟩, front⟩ := tabulates_instrLines hc hs x hx
    obtain ⟨_, ⟨ys, unfolds, rfl⟩, rear⟩ := tabulates_listLines hc hs xs hxs
    exact ⟨_, ⟨zs ++ ys, becomes unfolds, (Instr.strings_append zs ys).symm⟩, front.append rear⟩

theorem tabulates_armLines (hc : ctx.comments = false)
    (hs : ∀ d pos, Tabulates (splice d pos) (Instr.Pushes ctx.program d.body.instrs))
    (es : List Arm) (last : Symbol) :
    Tabulates (armLines ctx splice last es) (Arm.Pushes ctx.program es) := by
  match es with
  | [] => exact tabulates_nil ⟨_, .nil, rfl⟩
  | .mk q c b :: rest =>
    exact tabulates_arm hc (tabulates_blockLines hc hs c) (tabulates_blockLines hc hs b)
      (tabulates_armLines hc hs rest last)

end

/-- The body of an inline is lowered to what it unfolds to, below whatever path. -/
theorem tabulates_inlineLines (hc : ctx.comments = false) (fuel : Nat) (active : List String)
    (d : Routine) (pos : Pos) :
    Tabulates (inlineLines ctx fuel active d pos) (Instr.Pushes ctx.program d.body.instrs) := by
  induction fuel generalizing active d pos with
  | zero =>
    intro pool code pool' h
    cases h
  | succ fuel ih =>
    intro pool code pool' h
    rw [inlineLines] at h
    split at h
    next => cases h
    next =>
      obtain ⟨_, ⟨b', unfolds, rfl⟩, enters⟩ :=
        tabulates_blockLines hc (fun d pos => ih _ d pos) d.body h
      cases hb : d.body <;> rw [hb] at unfolds <;> cases unfolds
      next => exact ⟨_, ⟨[], .nil, rfl⟩, enters⟩
      next q xs ys unfolds =>
        rw [Block.strings_mk] at enters
        exact ⟨_, ⟨ys, unfolds, rfl⟩, enters⟩

/-! ### Whole programs -/

theorem procLines_enters {p : Program} {depth : Int} {r : Routine} {pool pool' : Pool}
    {code : List Line} (h : procLines p depth false r pool = .ok (code, pool')) :
    ∃ b, Block.Unfolds p r.body b ∧ Enters pool.strings b.strings code pool'.strings := by
  obtain ⟨serial, name, pos, namePos, body⟩ := r
  cases body with
  | absent => cases h
  | mk q xs =>
    obtain ⟨lines, mid, hl, h⟩ := lowering_bind_eq_ok.mp h
    obtain ⟨rfl, rfl⟩ := lowering_pure_eq_ok.mp h
    obtain ⟨_, ⟨b, unfolds, rfl⟩, enters⟩ :=
      tabulates_blockLines rfl (tabulates_inlineLines rfl _ _) (.mk q xs) hl
    refine ⟨b, unfolds, ?_⟩
    have head : [label (.proc name)].all isQuiet = true := rfl
    have tail : ((if (Block.mk q xs).lastIsReturn then [] else returnLines name) ++
        [blank]).all isQuiet = true := by
      split
      · rfl
      · rw [List.all_append, all_isQuiet_of_basic (returnLines_isBasic name)]
        rfl
    simpa using (enters.before tail).behind head

theorem procsLines_enters {p : Program} {depth : Int} {rs : List Routine} {pool pool' : Pool}
    {code : List Line} (h : procsLines p depth false rs pool = .ok (code, pool')) :
    ∃ bodies, List.Forall₂ (Block.Unfolds p) (rs.map Routine.body) bodies ∧
      Enters pool.strings (bodies.flatMap Block.strings) code pool'.strings := by
  induction rs generalizing pool code with
  | nil =>
    obtain ⟨rfl, rfl⟩ := lowering_pure_eq_ok.mp h
    exact ⟨[], .nil, .quiet rfl⟩
  | cons r rest ih =>
    obtain ⟨first, mid, hf, h⟩ := lowering_bind_eq_ok.mp h
    obtain ⟨others, mid', ho, h⟩ := lowering_bind_eq_ok.mp h
    obtain ⟨rfl, rfl⟩ := lowering_pure_eq_ok.mp h
    obtain ⟨b, unfolds, front⟩ := procLines_enters hf
    obtain ⟨bodies, all, rear⟩ := ih ho
    exact ⟨b :: bodies, .cons unfolds all, front.append rear⟩

theorem filter_stringData (i : Nat) (strings : List String) :
    (stringData false i strings).filter isEntry =
      strings.mapIdx fun j v => .data (.string (i + j)) (bytesOf v) true := by
  induction strings generalizing i with
  | nil => rfl
  | cons v rest ih =>
    have unfolded : stringData false i (v :: rest) =
        .data (.string i) (bytesOf v) true :: stringData false (i + 1) rest := rfl
    rw [unfolded, List.filter_cons_of_pos rfl, ih, List.mapIdx_cons]
    simp only [Nat.add_zero, Nat.add_assoc, Nat.add_comm 1]

/-! ### The text of an entry -/

/-- The byte that an operand of a data line denotes: two hexadecimal digits behind their mark, or a
decimal digit. -/
def operandByte? : List Char → Option UInt8
  | ['0', 'x', a, b] => do return .ofNat ((← hexValue? a) * 16 + (← hexValue? b))
  | [d] => if Source.isDigit d then some (.ofNat (d.toNat - '0'.toNat)) else none
  | _ => none

/-- The bytes that the operands of a data line denote. -/
def operandBytes? (operands : String) : Option (List UInt8) :=
  (operands.toList.splitOn ',').mapM operandByte?

theorem toList_dataByte (b : UInt8) : (dataByte b).toList = '0' :: 'x' :: hexByte b := by
  simp [dataByte]

theorem operandByte?_hex {a b : Char} {x y : Nat} (ha : hexValue? a = some x)
    (hb : hexValue? b = some y) :
    operandByte? ['0', 'x', a, b] = some (.ofNat (x * 16 + y)) := by
  change (hexValue? a >>= fun x => hexValue? b >>= fun y => some (UInt8.ofNat (x * 16 + y))) = _
  rw [ha, hb]
  rfl

theorem operandByte?_dataByte (b : UInt8) : operandByte? (dataByte b).toList = some b := by
  have low := b.toNat_lt
  have upper := (hexDigit_facts (b.toNat / 16) (by omega)).1
  have lower := (hexDigit_facts (b.toNat % 16) (by omega)).1
  have value : b.toNat / 16 * 16 + b.toNat % 16 = b.toNat := by omega
  rw [toList_dataByte, hexByte, operandByte?_hex upper lower, value, UInt8.ofNat_toNat]

theorem comma_not_mem_dataByte (b : UInt8) : ',' ∉ (dataByte b).toList := by
  have digits : ',' ∉ hexByte b := not_mem_of_symbolChars (fun _ => isSymbolChar_hexByte) rfl
  simp [toList_dataByte, digits]

/-- Data that ends in a zero byte is read back from its text. -/
theorem operandBytes?_dataBytes (bytes : List UInt8) :
    operandBytes? (dataBytes bytes true) = some (bytes ++ [0]) := by
  have parts : (dataBytes bytes true).toList.splitOn ',' =
      bytes.map (fun b => (dataByte b).toList) ++ [['0']] := by
    rw [dataBytes, String.toList_intercalate]
    refine (List.splitOn_intercalate ',' ?_ (by simp)).trans ?_
    · intro operand member
      simp only [if_true, List.map_append, List.map_map, List.mem_append, List.mem_map] at member
      rcases member with ⟨b, _, rfl⟩ | ⟨_, zero, rfl⟩
      · exact comma_not_mem_dataByte b
      · rw [List.mem_singleton.mp zero]
        decide
    · simp
  have bytewise : (bytes.map fun b => (dataByte b).toList).mapM operandByte? = some bytes := by
    clear parts
    induction bytes with
    | nil => rfl
    | cons b rest ih => simp [operandByte?_dataByte, ih]
  rw [operandBytes?, parts, List.mapM_append, bytewise]
  rfl

theorem memorySection_isQuiet (memories : List Memory) :
    (memorySection memories).all isQuiet = true := by
  simp [memorySection, isQuiet, pushed?, isEntry]

theorem dataSection_pushes_none (depth : Int) (strings : List String) :
    ∀ l ∈ dataSection depth false strings, l.pushed? = none := by
  have entries (i : Nat) : ∀ l ∈ stringData false i strings, l.pushed? = none := by
    induction strings generalizing i with
    | nil => simp [stringData]
    | cons v rest ih =>
      refine List.forall_mem_cons.mpr ⟨rfl, ih (i + 1)⟩
  simp only [dataSection, List.forall_mem_append]
  exact ⟨⟨⟨by simp [pushed?], by simp [noticeData, pushed?]⟩, by simp [noticeData, pushed?]⟩,
    entries 0⟩

theorem filter_dataSection (depth : Int) (strings : List String) :
    (dataSection depth false strings).filter isEntry =
      strings.mapIdx fun i v => .data (.string i) (bytesOf v) true := by
  have runtime : ([sectionStart ".data", word .stackOrigin, word .returnIndex,
      words .returnStack (depth + 1)] ++ noticeData .underflow ++
      noticeData .overflow).filter isEntry = [] := rfl
  rw [dataSection, List.filter_append, runtime, List.nil_append, filter_stringData]
  simp only [Nat.zero_add]

/-- The table of strings is exact. On the way through a program each string met is pushed behind its
length in bytes, by its number in the table; and the table holds the strings met, each once and as
its bytes with a zero behind them, numbered without gaps in the order in which they are met
first. -/
theorem string_table_exact {p : Program} {s : Settings} {lines : List Line}
    (hc : s.comments = false) (hg : generate p s = .ok lines) :
    ∃ values, (∀ others, p.Pushes others ↔ others = values) ∧
      lines.filter isEntry =
        values.eraseDups.mapIdx (fun i v => .data (.string i) (bytesOf v) true) ∧
      (values.eraseDups.map bytesOf).Nodup ∧
      stringPushes none lines = values.map (stringPush values.eraseDups) ∧
      ∀ (i : Nat) (v : String), ∃ operands, (Line.data (.string i) (bytesOf v) true).text =
          "str_" ++ toString i ++ ": db " ++ operands ∧
        operandBytes? operands = some (bytesOf v ++ [0]) := by
  obtain ⟨code, pool, _, _, procs, rfl⟩ := generate_eq_ok hg
  rw [hc] at procs ⊢
  obtain ⟨bodies, unfolds, enters⟩ := procsLines_enters procs
  have table : pool.strings = (bodies.flatMap Block.strings).eraseDups :=
    enters.strings.trans (foldl_intern [] _)
  have front : (header p.file false ++ routines).all isQuiet = true := rfl
  have program := (enters.behind front).before (memorySection_isQuiet p.memoryDecls)
  have data := dataSection_pushes_none s.actualDepth pool.strings
  have met : p.Pushes (bodies.flatMap Block.strings) := ⟨bodies, unfolds, rfl⟩
  refine ⟨_, fun others => ⟨fun h => h.unique met, fun h => h ▸ met⟩, ?_, ?_, ?_, ?_⟩
  · have plain : (header p.file false ++ routines ++ code ++
        memorySection p.memoryDecls).filter isEntry = [] := by
      simpa using program.plain
    rw [List.filter_append, plain, List.nil_append, filter_dataSection, table]
  · rw [← table, enters.strings]
    exact (nodup_foldl_intern .nil _).map fun _ _ => Text.bytesOf_injective
  · have opening : Opening (dataSection s.actualDepth false pool.strings) :=
      fun l hl => data l (List.mem_of_mem_head? hl)
    rw [stringPushes_append opening none none, program.pushes _ List.prefix_rfl,
      stringPushes_of_none data, List.append_nil, table]
  · intro i v
    exact ⟨_, rfl, operandBytes?_dataBytes _⟩

/-- A program with an inline that pushes a wide character, a loop, an empty string, and a string met
twice. -/
def greetings : Program :=
  let push (value : String) : Instr := .op default (.pushStr value value)
  let routine (name : String) (xs : List Instr) : Routine :=
    { name, pos := default, namePos := default, body := .mk default xs }
  let wide := routine "wide" [push "é"]
  let main := routine Source.entryPoint
    [push "a", .loop default (.mk default [.op default (.ident "wide")]) (.mk default [push ""]),
     push "a", .op default .ret]
  (({ file := "" } : Program).insert (.inline wide)).insert (.proc main)

theorem greetings_table : ∃ lines, generate greetings {} = .ok lines ∧
    lines.filter isEntry = [.data (.string 0) [0x61] true, .data (.string 1) [0xc3, 0xa9] true,
      .data (.string 2) [] true] ∧
    ∃ values, greetings.Pushes values ∧
      stringPushes none lines = values.map (stringPush values.eraseDups) ∧
      values.map (stringPush values.eraseDups) = [(some (inst (.push (.imm 1))), 0),
        (some (inst (.push (.imm 2))), 1), (some (inst (.push (.imm 0))), 2),
        (some (inst (.push (.imm 1))), 0)] := by
  have run : (generate greetings {}).map
      (fun lines => (lines.filter isEntry, stringPushes none lines)) =
        .ok ([.data (.string 0) [0x61] true, .data (.string 1) [0xc3, 0xa9] true,
          .data (.string 2) [] true], [(some (inst (.push (.imm 1))), 0),
          (some (inst (.push (.imm 2))), 1), (some (inst (.push (.imm 0))), 2),
          (some (inst (.push (.imm 1))), 0)]) := by decide +kernel
  obtain ⟨lines, done, parts⟩ := map_eq_ok.mp run
  obtain ⟨entries, pushes⟩ := Prod.mk.inj parts
  obtain ⟨values, met, _, _, order, _⟩ := string_table_exact rfl done
  exact ⟨lines, done, entries, values, (met values).mpr rfl, order, order.symm.trans pushes⟩

end Target

end StackLang
