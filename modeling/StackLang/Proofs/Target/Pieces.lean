import StackLang.Proofs.Rules
import StackLang.Proofs.Target.Emission
import StackLang.Proofs.Target.Scoping
/-!
The code of a body without inlines, piece by piece: calls, returns, and lines that have to do with
neither. Each piece has as many labels as the part of the body it comes from asks for, and what it
mentions is defined.
-/

namespace StackLang.Target

open Line

/-- How many labels the assembly of a part of a program has, without those of the parts in it. -/
def Node.labelCount (p : Program) : Node → Nat
  | .instr (.branch ..) => 2
  | .instr (.loop ..) => 2
  | .instr (.op _ (.ident name)) => if p.procs.contains name then 1 else 0
  | .arm _ => 1
  | _ => 0

def labelCount (p : Program) : List Node → Nat
  | [] => 0
  | n :: ns => Node.labelCount p n + labelCount p ns

@[simp] theorem labelCount_nil (p : Program) : labelCount p [] = 0 := rfl

@[simp] theorem labelCount_cons (p : Program) (n : Node) (ns : List Node) :
    labelCount p (n :: ns) = Node.labelCount p n + labelCount p ns :=
  rfl

@[simp] theorem labelCount_append (p : Program) (ns ms : List Node) :
    labelCount p (ns ++ ms) = labelCount p ns + labelCount p ms := by
  induction ns with
  | nil => exact (Nat.zero_add _).symm
  | cons n rest ih => rw [List.cons_append, labelCount_cons, labelCount_cons, ih, Nat.add_assoc]

/-! ### Plain lines -/

/-- Operands that can be written to without a change to the return stack or its index, as long as
addresses in registers do not lead there. -/
def Operand.isPlainTarget : Operand → Bool
  | .reg r | .part r _ => r ≠ .r13
  | .sized _ (.reg _) => true
  | _ => false

def Operand.isPlainSource : Operand → Bool
  | .mem (.symbolSlot ..) | .sized _ (.symbolSlot ..) => false
  | _ => true

/-- Instructions that neither touch the return stack or its index nor leave the procedure, but for
the printing routine, from which they come back. -/
def Inst.isPlain : Inst → Bool
  | .binary _ target source => target.isPlainTarget && source.isPlainSource
  | .unary _ r | .set _ r => r ≠ .r13
  | .nullary .cqo | .nullary .syscall | .push _ => true
  | .jump (.label _) | .jumpIf _ (.label _) | .call .printInt => true
  | _ => false

/-- Symbols that plain lines can mention in a program with some strings. -/
def Symbol.isPlain (p : Program) (strings : Nat) : Symbol → Bool
  | .printInt | .stackOrigin | .label _ => true
  | .memory name => p.memories.contains name
  | .string i => i < strings
  | _ => false

def Line.isPlain (p : Program) (strings : Nat) : Line → Bool
  | .label (.label _) => true
  | .inst i => i.isPlain && i.mentions.all (Symbol.isPlain p strings)
  | _ => false

theorem Line.isPlain_mono {p : Program} {n n' : Nat} (le : n ≤ n') {l : Line}
    (h : l.isPlain p n = true) : l.isPlain p n' = true := by
  cases l with
  | label s => cases s <;> exact h
  | inst i =>
    obtain ⟨plain, known⟩ := Bool.and_eq_true_iff.mp h
    refine Bool.and_eq_true_iff.mpr ⟨plain, List.all_eq_true.mpr fun s hs => ?_⟩
    have old := List.all_eq_true.mp known s hs
    cases s with
    | string i =>
      have low : i < n := of_decide_eq_true old
      exact decide_eq_true (by omega)
    | _ => exact old
  | _ => cases h

/-- The code of a procedure, piece by piece. -/
inductive Pieces (ctx : Context) (strings : Nat) : List Line → Prop
  | nil : Pieces ctx strings []
  | plain {l : Line} {rest : List Line} : l.isPlain ctx.program strings = true →
      Pieces ctx strings rest → Pieces ctx strings (l :: rest)
  | call {name : String} {back : Nat} {rest : List Line} :
      ctx.program.procs.contains name = true → Pieces ctx strings rest →
      Pieces ctx strings (callLines ctx.depth name (.label back) ++ rest)
  | leave {rest : List Line} : Pieces ctx strings rest →
      Pieces ctx strings (returnLines ctx.proc ++ rest)

namespace Pieces

variable {ctx : Context} {n n' : Nat} {code first second : List Line}

theorem append (h : Pieces ctx n first) (h' : Pieces ctx n second) :
    Pieces ctx n (first ++ second) := by
  induction h with
  | nil => exact h'
  | plain hl _ ih => exact .plain hl ih
  | call known _ ih =>
    rw [List.append_assoc]
    exact .call known ih
  | leave _ ih =>
    rw [List.append_assoc]
    exact .leave ih

theorem mono (h : Pieces ctx n code) (le : n ≤ n') : Pieces ctx n' code := by
  induction h with
  | nil => exact .nil
  | plain hl _ ih => exact .plain (Line.isPlain_mono le hl) ih
  | call known _ ih => exact .call known ih
  | leave _ ih => exact .leave ih

theorem of_plain (h : code.all (Line.isPlain ctx.program n) = true) : Pieces ctx n code := by
  induction code with
  | nil => exact .nil
  | cons l rest ih =>
    obtain ⟨here, later⟩ := Bool.and_eq_true_iff.mp h
    exact .plain here (ih later)

end Pieces

/-- Code in pieces whose local labels are its own or those of the constructs around it. -/
structure Fragment (ctx : Context) (strings : Nat) (outer : List Symbol) (code : List Line) :
    Prop where
  pieces : Pieces ctx strings code
  closed : ∀ s ∈ mentions code, s.isLocal = true → s ∈ labels code ∨ s ∈ outer

namespace Fragment

variable {ctx : Context} {n n' : Nat} {outer outer' : List Symbol} {code first second : List Line}

theorem append (h : Fragment ctx n outer first) (h' : Fragment ctx n outer second) :
    Fragment ctx n outer (first ++ second) := by
  refine ⟨h.pieces.append h'.pieces, fun s hs localSymbol => ?_⟩
  rw [labels_append, List.mem_append]
  rw [mentions_append, List.mem_append] at hs
  rcases hs with hs | hs
  · exact (h.closed s hs localSymbol).imp_left .inl
  · exact (h'.closed s hs localSymbol).imp_left .inr

theorem mono (h : Fragment ctx n outer code) (le : n ≤ n') (sub : outer ⊆ outer') :
    Fragment ctx n' outer' code :=
  ⟨h.pieces.mono le, fun s hs localSymbol => (h.closed s hs localSymbol).imp_right fun hs => sub hs⟩

/-- A label that the code has itself need not come from outside. -/
theorem close {s : Symbol} (h : Fragment ctx n (s :: outer) code) (own : s ∈ labels code) :
    Fragment ctx n outer code := by
  refine ⟨h.pieces, fun x hx localSymbol => ?_⟩
  rcases h.closed x hx localSymbol with hx | hx
  · exact .inl hx
  · rcases List.mem_cons.mp hx with rfl | hx
    · exact .inl own
    · exact .inr hx

theorem of_plain (plain : code.all (Line.isPlain ctx.program n) = true)
    (inside : ∀ s ∈ mentions code, s.isLocal = true → s ∈ outer) : Fragment ctx n outer code :=
  ⟨.of_plain plain, fun s hs localSymbol => .inr (inside s hs localSymbol)⟩

theorem label (k : Nat) : Fragment ctx n outer [.label (.label k)] :=
  of_plain rfl (by simp [mentions, Line.mentions])

theorem jump {k : Nat} (known : .label k ∈ outer) :
    Fragment ctx n outer [inst (.jump (.label k))] :=
  of_plain rfl (by simpa [mentions, Line.mentions, Inst.mentions] using fun _ => known)

theorem jumpIfZero {k : Nat} (known : .label k ∈ outer) :
    Fragment ctx n outer (jumpIfZero (.label k)) := by
  refine of_plain rfl ?_
  simpa [Target.jumpIfZero, pop, both, mentions, Line.mentions, Inst.mentions, Operand.mentions]
    using fun _ => known

theorem call {name : String} (known : ctx.program.procs.contains name = true) (k : Nat) :
    Fragment ctx n outer (callLines ctx.depth name (.label k)) := by
  refine ⟨?_, fun s hs localSymbol => .inl ?_⟩
  · have pieces : Pieces ctx n (callLines ctx.depth name (.label k) ++ []) := .call known .nil
    rwa [List.append_nil] at pieces
  · have cases : s = .stackOverflow ∨ s = .label k ∨ s = .returnStack ∨ s = .proc name := by
      simpa [callLines, mentions, Line.mentions, Inst.mentions, Operand.mentions,
        Address.mentions] using hs
    rcases cases with rfl | rfl | rfl | rfl <;> simp [Symbol.isLocal_eq] at localSymbol
    simp [callLines]

end Fragment

/-! ### Lowering -/

/-- What lowering makes between two states of the pool: a fragment with all the labels that are given
out in between. -/
structure Laid (ctx : Context) (outer : List Symbol) (count : Nat) (pool : Pool)
    (code : List Line) (pool' : Pool) : Prop where
  strings : pool.strings <+: pool'.strings
  given : pool'.labels = pool.labels + count
  used : (labels code).length = count
  fragment : Fragment ctx pool'.strings.length outer code

/-- Lowering that does so, whatever came before. -/
def Lays (ctx : Context) (outer : List Symbol) (count : Nat) (x : Lowering (List Line)) : Prop :=
  ∀ ⦃pool code pool'⦄, x pool = .ok (code, pool') → Laid ctx outer count pool code pool'

/-- What the lowering of a body without inlines relies on. -/
structure Context.Flat (ctx : Context) : Prop where
  silent : ctx.comments = false
  apart : ∀ name, ctx.program.memories.contains name = true →
    ctx.program.procs.contains name = false

variable {ctx : Context} {splice : Splice} {outer : List Symbol}

theorem Laid.nil (pool : Pool) : Laid ctx outer 0 pool [] pool :=
  ⟨List.prefix_rfl, rfl, rfl, .of_plain rfl (by simp [mentions])⟩

theorem Laid.append {n m : Nat} {pool mid pool' : Pool} {first second : List Line}
    (h : Laid ctx outer n pool first mid) (h' : Laid ctx outer m mid second pool') :
    Laid ctx outer (n + m) pool (first ++ second) pool' := by
  have given := h.given
  have given' := h'.given
  refine ⟨h.strings.trans h'.strings, by omega, ?_, ?_⟩
  · rw [labels_append, List.length_append, h.used, h'.used]
  · exact (h.fragment.mono h'.strings.length_le (List.Subset.refl _)).append h'.fragment

theorem lays_nil : Lays ctx outer 0 (pure []) := by
  intro pool code pool' h
  obtain ⟨rfl, rfl⟩ := lowering_pure_eq_ok.mp h
  exact .nil pool

theorem lays_append {n m : Nat} {x y : Lowering (List Line)} (hx : Lays ctx outer n x)
    (hy : Lays ctx outer m y) :
    Lays ctx outer (n + m) do
      let first ← x
      let rest ← y
      return first ++ rest := by
  intro pool code pool' h
  obtain ⟨first, mid, h₁, h⟩ := lowering_bind_eq_ok.mp h
  obtain ⟨rest, mid', h₂, h⟩ := lowering_bind_eq_ok.mp h
  obtain ⟨rfl, rfl⟩ := lowering_pure_eq_ok.mp h
  exact (hx h₁).append (hy h₂)

theorem readLine?_isPlain {p : Program} {n : Nat} {width : Int} {line : Line}
    (h : readLine? width = some line) : line.isPlain p n = true ∧ line.mentions = [] := by
  unfold readLine? at h
  repeat' split at h
  all_goals cases h
  all_goals exact ⟨rfl, rfl⟩

theorem writeLine?_isPlain {p : Program} {n : Nat} {width : Int} {line : Line}
    (h : writeLine? width = some line) : line.isPlain p n = true ∧ line.mentions = [] := by
  unfold writeLine? at h
  repeat' split at h
  all_goals cases h
  all_goals exact ⟨rfl, rfl⟩

theorem mentions_returnLines {proc : String} {s : Symbol} (hs : s ∈ mentions (returnLines proc)) :
    s = .stackUnderflow ∨ s = .returnStack := by
  unfold returnLines at hs
  split at hs
  next => simp [mentions, Line.mentions, Inst.mentions, Operand.mentions, mov, both] at hs
  next =>
    simpa [mentions, Line.mentions, Inst.mentions, Operand.mentions, Address.mentions, mov, both]
      using hs

/-- The code of an instruction without parts is a return or plain. -/
theorem opLines_fragment {pos : Pos} {o : Op} {pool pool' : Pool} {code : List Line}
    (h : opLines ctx pos o pool = .ok (code, pool')) :
    Fragment ctx pool'.strings.length outer code := by
  have fixed {lines : List Line}
      (plain : lines.all (Line.isPlain ctx.program pool.strings.length) = true)
      (far : (mentions lines).all (fun s => !s.isLocal) = true)
      (h : (pure lines : Lowering (List Line)) pool = .ok (code, pool')) :
      Fragment ctx pool'.strings.length outer code := by
    obtain ⟨rfl, rfl⟩ := lowering_pure_eq_ok.mp h
    refine .of_plain plain fun s hs localSymbol => ?_
    have other := List.all_eq_true.mp far s hs
    simp [localSymbol] at other
  cases o with
  | pushInt v =>
    refine fixed ?_ ?_ h <;> unfold pushNumber <;> split <;> rfl
  | pushStr value raw =>
    obtain ⟨i, mid, hi, h⟩ := lowering_bind_eq_ok.mp h
    obtain ⟨rfl, rfl⟩ := lowering_pure_eq_ok.mp h
    obtain ⟨_, _, known, rfl⟩ := internString_eq_ok hi
    have low := List.idxOf_lt_length_iff.mpr known
    refine .of_plain ?_ ?_
    · simp [Line.isPlain, Inst.isPlain, Inst.mentions, Operand.mentions, Symbol.isPlain, low]
    · simp [mentions, Line.mentions, Inst.mentions, Operand.mentions, Symbol.isLocal_eq]
  | binary t =>
    cases t with
    | operator o => refine fixed ?_ ?_ h <;> cases o <;> rfl
    | _ => cases h
  | ret =>
    obtain ⟨rfl, rfl⟩ := lowering_pure_eq_ok.mp h
    have pieces : Pieces ctx pool.strings.length (returnLines ctx.proc ++ []) := .leave .nil
    rw [List.append_nil] at pieces
    refine ⟨pieces, fun s hs localSymbol => ?_⟩
    rcases mentions_returnLines hs with rfl | rfl <;> cases localSymbol
  | load width =>
    cases hl : readLine? width <;> simp only [opLines, hl] at h
    next => cases h
    next line =>
      have facts := readLine?_isPlain (p := ctx.program) (n := pool.strings.length) hl
      refine fixed ?_ ?_ h
      · simp only [List.all_cons, facts.1]
        rfl
      · simp only [mentions, List.flatMap_cons, facts.2]
        rfl
  | store width =>
    cases hl : writeLine? width <;> simp only [opLines, hl] at h
    next => cases h
    next line =>
      have facts := writeLine?_isPlain (p := ctx.program) (n := pool.strings.length) hl
      refine fixed ?_ ?_ h
      · simp only [List.all_cons, facts.1]
        rfl
      · simp only [mentions, List.flatMap_cons, facts.2]
        rfl
  | syscall n =>
    rw [opLines] at h
    split at h
    next =>
      have others : ∀ r ∈ argumentRegs.take n.toNat, r ≠ .r13 := by
        intro r hr
        have known : ∀ r ∈ argumentRegs, r ≠ .r13 := by decide
        exact known r (List.mem_of_mem_take hr)
      have silent : mentions ((argumentRegs.take n.toNat).map pop) = [] := by
        rw [mentions, List.flatMap_map]
        exact List.flatMap_eq_nil_iff.mpr fun _ _ => rfl
      refine fixed ?_ ?_ h
      · rw [List.all_append, List.all_map, Bool.and_eq_true]
        refine ⟨List.all_eq_true.mpr fun r hr => ?_, rfl⟩
        have other := others r hr
        simp [pop, Line.isPlain, Inst.isPlain, Inst.mentions, other]
      · rw [mentions_append, silent]
        rfl
    next => cases h
  | ident name => cases h
  | _ => exact fixed rfl rfl h

theorem lays_nameLines (flat : ctx.Flat) {name : String}
    (hd : ctx.program.inlines.get? name = none) (pos : Pos) :
    Lays ctx outer (Node.labelCount ctx.program (.instr (.op pos (.ident name))))
      (nameLines ctx splice pos name) := by
  intro pool code pool' h
  simp only [nameLines, hd, note_eq_nil flat.silent, List.nil_append] at h
  split at h
  next region =>
    obtain ⟨rfl, rfl⟩ := lowering_pure_eq_ok.mp h
    have none : ctx.program.procs.contains name = false := flat.apart name region
    refine ⟨List.prefix_rfl, by simp [Node.labelCount, none], by simp [Node.labelCount, none],
      .of_plain ?_ ?_⟩
    · simp [Line.isPlain, Inst.isPlain, Inst.mentions, Operand.mentions, Symbol.isPlain, region]
    · simp [mentions, Line.mentions, Inst.mentions, Operand.mentions, Symbol.isLocal_eq]
  next =>
    split at h
    next known =>
      obtain ⟨back, mid, hb, h⟩ := lowering_bind_eq_ok.mp h
      obtain ⟨rfl, rfl⟩ := freshLabel_eq_ok.mp hb
      obtain ⟨rfl, rfl⟩ := lowering_pure_eq_ok.mp h
      exact ⟨List.prefix_rfl, by simp [Node.labelCount, known],
        by simp [Node.labelCount, known, callLines], .call known _⟩
    next => cases h

theorem lays_op (flat : ctx.Flat) {o : Op} (valid : o.Valid (ctx.program.Allows true)) (p : Pos) :
    Lays ctx outer (Node.labelCount ctx.program (.instr (.op p o)))
      (instrLines ctx splice (.op p o)) := by
  by_cases hn : ∃ name, o = .ident name
  · obtain ⟨name, rfl⟩ := hn
    have none : ctx.program.inlines.get? name = none := by simpa [Table.contains] using valid rfl
    exact lays_nameLines flat none p
  · intro pool code pool' h
    rw [instrLines_op fun name same => hn ⟨name, same⟩, note_eq_nil flat.silent] at h
    obtain ⟨lines, mid, hl, h⟩ := lowering_bind_eq_ok.mp h
    obtain ⟨rfl, rfl⟩ := lowering_pure_eq_ok.mp h
    obtain ⟨strings, same, insts⟩ := opLines_insts hl
    have count : Node.labelCount ctx.program (.instr (.op p o)) = 0 := by
      unfold Node.labelCount
      split <;> simp_all
    rw [count]
    exact ⟨strings, same, by simp [labels_of_insts insts], opLines_fragment hl⟩

/-- An arm has one label, to which it jumps when its condition does not hold. It jumps to the end of
the conditional when its body is done. -/
theorem lays_arm (flat : ctx.Flat) {p : Pos} {c b : Block} {es : List Arm} {last k n m : Nat}
    (cond : Lays ctx [] k (blockLines ctx splice c)) (body : Lays ctx [] n (blockLines ctx splice b))
    (others : Lays ctx [.label last] m (armLines ctx splice (.label last) es)) :
    Lays ctx [.label last] (1 + (k + n) + m)
      (armLines ctx splice (.label last) (.mk p c b :: es)) := by
  intro pool code pool' h
  obtain ⟨next, pool₁, hn, h⟩ := lowering_bind_eq_ok.mp h
  obtain ⟨first, pool₂, hf, h⟩ := lowering_bind_eq_ok.mp h
  obtain ⟨second, pool₃, hs, h⟩ := lowering_bind_eq_ok.mp h
  obtain ⟨third, pool₄, ht, h⟩ := lowering_bind_eq_ok.mp h
  obtain ⟨rfl, rfl⟩ := lowering_pure_eq_ok.mp h
  obtain ⟨rfl, rfl⟩ := freshLabel_eq_ok.mp hn
  have laidC := cond hf
  have laidB := body hs
  have laidO := others ht
  have givenC := laidC.given
  have givenB := laidB.given
  have givenO := laidO.given
  dsimp only at givenC
  refine ⟨laidC.strings.trans (laidB.strings.trans laidO.strings), by omega, ?_, ?_⟩
  · simp only [note_eq_nil flat.silent, jumpIfZero, pop, both, List.nil_append, labels_append,
      labels_label, labels_inst, labels_nil, List.length_append, List.length_cons, List.length_nil,
      laidC.used, laidB.used, laidO.used]
    omega
  · have leC := (laidB.strings.trans laidO.strings).length_le
    have leB := laidO.strings.length_le
    let next : Symbol := .label pool.labels
    have whole : Fragment ctx pool₄.strings.length [next, .label last]
        (first ++ jumpIfZero next ++ second ++ [inst (.jump (.label last)), label next] ++ third) :=
      ((((laidC.fragment.mono leC (by simp)).append (.jumpIfZero (by simp [next]))).append
        (laidB.fragment.mono leB (by simp))).append
          ((Fragment.jump (by simp)).append (.label _))).append
            (laidO.fragment.mono (Nat.le_refl _) (by simp))
    simpa [note_eq_nil flat.silent] using whole.close (by simp)

theorem lays_branch (flat : ctx.Flat) {p : Pos} {c b : Block} {es : List Arm} {o : Block}
    {k n : Nat}
    (arms : ∀ last, Lays ctx [.label last] k (armLines ctx splice (.label last) (.mk p c b :: es)))
    (otherwise : Lays ctx [] n (blockLines ctx splice o)) :
    Lays ctx [] (1 + (k + n)) (instrLines ctx splice (.branch p c b es o)) := by
  intro pool code pool' h
  rw [instrLines_branch flat.silent] at h
  obtain ⟨last, pool₁, hl, h⟩ := lowering_bind_eq_ok.mp h
  obtain ⟨lines, pool₂, ht, h⟩ := lowering_bind_eq_ok.mp h
  obtain ⟨rfl, rfl⟩ := lowering_pure_eq_ok.mp h
  obtain ⟨rfl, rfl⟩ := freshLabel_eq_ok.mp hl
  have inner : Lays ctx [.label pool.labels] n (blockLines ctx splice o) := by
    intro pool code pool' h
    obtain ⟨strings, given, used, fragment⟩ := otherwise h
    exact ⟨strings, given, used, fragment.mono (Nat.le_refl _) (by simp)⟩
  have laid := lays_append (arms _) inner ht
  have given := laid.given
  dsimp only at given
  refine ⟨laid.strings, by omega, ?_, ?_⟩
  · rw [labels_append, List.length_append, laid.used]
    simp
    omega
  · exact (laid.fragment.append (.label _)).close (by simp)

theorem lays_loop (flat : ctx.Flat) {p : Pos} {c b : Block} {k n : Nat}
    (cond : Lays ctx [] k (blockLines ctx splice c))
    (body : Lays ctx [] n (blockLines ctx splice b)) :
    Lays ctx [] (2 + (k + n)) (instrLines ctx splice (.loop p c b)) := by
  intro pool code pool' h
  obtain ⟨first, pool₁, hf, h⟩ := lowering_bind_eq_ok.mp h
  obtain ⟨last, pool₂, hl, h⟩ := lowering_bind_eq_ok.mp h
  obtain ⟨front, pool₃, hc, h⟩ := lowering_bind_eq_ok.mp h
  obtain ⟨rear, pool₄, hb, h⟩ := lowering_bind_eq_ok.mp h
  obtain ⟨rfl, rfl⟩ := lowering_pure_eq_ok.mp h
  obtain ⟨rfl, rfl⟩ := freshLabel_eq_ok.mp hf
  obtain ⟨rfl, rfl⟩ := freshLabel_eq_ok.mp hl
  have laidC := cond hc
  have laidB := body hb
  have givenC := laidC.given
  have givenB := laidB.given
  dsimp only at givenC
  refine ⟨laidC.strings.trans laidB.strings, by omega, ?_, ?_⟩
  · simp only [note_eq_nil flat.silent, jumpIfZero, pop, both, List.nil_append, labels_append,
      labels_label, labels_inst, labels_nil, List.length_append, List.length_cons, List.length_nil,
      laidC.used, laidB.used]
    omega
  · let first : Symbol := .label pool.labels
    let last : Symbol := .label (pool.labels + 1)
    have whole : Fragment ctx pool₄.strings.length [first, last]
        ([label first] ++ front ++ jumpIfZero last ++ rear ++ [inst (.jump first), label last]) :=
      ((((Fragment.label _).append
        (laidC.fragment.mono laidB.strings.length_le (by simp))).append
          (.jumpIfZero (by simp [last]))).append
            (laidB.fragment.mono (Nat.le_refl _) (by simp))).append
              ((Fragment.jump (by simp [first])).append (.label _))
    simpa [note_eq_nil flat.silent, first, last] using (whole.close (by simp)).close (by simp)

mutual

theorem lays_instrLines (flat : ctx.Flat) (x : Instr) (valid : x.Valid (ctx.program.Allows true)) :
    Lays ctx [] (labelCount ctx.program (x.nodes fun _ => true)) (instrLines ctx splice x) := by
  match x with
  | .op p o =>
    rw [Instr.nodes, labelCount_cons]
    exact lays_op flat valid p
  | .branch p c b es o =>
    obtain ⟨_, validC, validB, validE, validO⟩ := valid
    have arms := fun k => lays_arm (p := p) flat (lays_blockLines flat c validC)
      (lays_blockLines flat b validB) (lays_armLines flat es validE k)
    have count : labelCount ctx.program ((Instr.branch p c b es o).nodes fun _ => true) =
        1 + (1 + (labelCount ctx.program (c.nodes fun _ => true) +
          labelCount ctx.program (b.nodes fun _ => true)) +
          labelCount ctx.program (Arm.nodesList (fun _ => true) es) +
          labelCount ctx.program (o.nodes fun _ => true)) := by
      simp only [Instr.nodes, if_true, labelCount_cons, labelCount_append, Node.labelCount]
      omega
    rw [count]
    exact lays_branch flat arms (lays_blockLines flat o validO)
  | .loop p c b =>
    obtain ⟨_, validC, validB⟩ := valid
    rw [Instr.nodes, if_pos rfl, labelCount_cons, labelCount_append]
    exact lays_loop flat (lays_blockLines flat c validC) (lays_blockLines flat b validB)

theorem lays_blockLines (flat : ctx.Flat) (b : Block) (valid : b.Valid (ctx.program.Allows true)) :
    Lays ctx [] (labelCount ctx.program (b.nodes fun _ => true)) (blockLines ctx splice b) := by
  match b with
  | .absent => exact lays_nil
  | .mk p xs =>
    have count : labelCount ctx.program ((Block.mk p xs).nodes fun _ => true) =
        labelCount ctx.program (Instr.nodesList (fun _ => true) xs) := Nat.zero_add _
    rw [count]
    exact lays_listLines flat xs valid

theorem lays_listLines (flat : ctx.Flat) (xs : List Instr)
    (valid : Instr.ValidList (ctx.program.Allows true) xs) :
    Lays ctx [] (labelCount ctx.program (Instr.nodesList (fun _ => true) xs))
      (listLines ctx splice xs) := by
  match xs with
  | [] => exact lays_nil
  | x :: xs =>
    rw [Instr.nodesList, labelCount_append]
    exact lays_append (lays_instrLines flat x valid.1) (lays_listLines flat xs valid.2)

theorem lays_armLines (flat : ctx.Flat) (es : List Arm)
    (valid : Arm.ValidList (ctx.program.Allows true) es) (last : Nat) :
    Lays ctx [.label last] (labelCount ctx.program (Arm.nodesList (fun _ => true) es))
      (armLines ctx splice (.label last) es) := by
  match es with
  | [] => exact lays_nil
  | .mk p c b :: rest =>
    obtain ⟨⟨validC, validB⟩, validR⟩ := valid
    have laid := lays_arm (p := p) flat (lays_blockLines flat c validC)
      (lays_blockLines flat b validB) (lays_armLines flat rest validR last)
    rw [Arm.nodesList, if_pos rfl]
    simp only [labelCount_cons, labelCount_append, Node.labelCount]
    rwa [← Nat.add_assoc]

end

end StackLang.Target
