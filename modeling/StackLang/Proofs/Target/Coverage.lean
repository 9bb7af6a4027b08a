import StackLang.Proofs.Target.Emission
import StackLang.Proofs.Target.Splicing
/-!
The code of each part of a body, taken apart.
-/

namespace StackLang.Target

open Line
open Semantics (Setting)
open Source (Part)

/-- How the parts of a body are lowered. A tail ends at the label to which its arms jump. -/
def Lowers (ctx : Context) (splice : Splice) : Part → Pool → List Line → Pool → Prop
  | .block xs, pool, code, pool' => listLines ctx splice xs pool = .ok (code, pool')
  | .instr x, pool, code, pool' => instrLines ctx splice x pool = .ok (code, pool')
  | .tail es o, pool, code, pool' => ∃ last lines, code = lines ++ [label last] ∧
      tailLines ctx splice last es o pool = .ok (lines, pool')

/-- What a procedure is lowered with when no comments are wanted. -/
abbrev contextOf (g : Setting) (proc : String) : Context :=
  ⟨g.program, g.depth, false, proc⟩

/-- Code that a part of the body of a procedure can be lowered to, wherever it stands in the body
and however inlines nest around it, when the strings of the program are those given in the end. -/
def Covers (g : Setting) (strings : List String) (proc : String) (part : Part)
    (code : List Line) : Prop :=
  ∃ fuel active pool pool',
    Lowers (contextOf g proc) (inlineLines (contextOf g proc) fuel active) part pool
      code pool' ∧ pool'.strings <+: strings

variable {g : Setting} {strings : List String} {proc : String} {code : List Line}

theorem covers_cons {x : Instr} {xs : List Instr}
    (h : Covers g strings proc (.block (x :: xs)) code) :
    ∃ first rest, code = first ++ rest ∧ Covers g strings proc (.instr x) first ∧
      Covers g strings proc (.block xs) rest := by
  obtain ⟨fuel, active, pool, pool', hl, grows'⟩ := h
  obtain ⟨first, mid, hx, h⟩ := lowering_bind_eq_ok.mp hl
  obtain ⟨rest, mid', hxs, h⟩ := lowering_bind_eq_ok.mp h
  obtain ⟨rfl, rfl⟩ := lowering_pure_eq_ok.mp h
  have grows := (clean_listLines rfl (fun d pos => clean_inlineLines rfl _ _ d pos) xs hxs).strings
  exact ⟨first, rest, rfl, ⟨fuel, active, pool, mid, hx, grows.trans grows'⟩,
    ⟨fuel, active, mid, mid', hxs, grows'⟩⟩

theorem covers_block {b : Block} {fuel : Nat} {active : List String} {pool pool' : Pool}
    (h : blockLines (contextOf g proc) (inlineLines (contextOf g proc) fuel active) b
      pool = .ok (code, pool')) (grows : pool'.strings <+: strings) :
    Covers g strings proc (.block b.instrs) code := by
  rw [← listLines_instrs] at h
  exact ⟨fuel, active, pool, pool', h, grows⟩

theorem covers_branch {p : Pos} {c b : Block} {es : List Arm} {o : Block}
    (h : Covers g strings proc (.instr (.branch p c b es o)) code) :
    Covers g strings proc (.tail (.mk p c b :: es) o) code := by
  obtain ⟨fuel, active, pool, pool', hl, grows⟩ := h
  change instrLines _ _ _ _ = _ at hl
  rw [instrLines_branch rfl] at hl
  obtain ⟨last, mid, _, h⟩ := lowering_bind_eq_ok.mp hl
  obtain ⟨lines, mid', ht, h⟩ := lowering_bind_eq_ok.mp h
  obtain ⟨rfl, rfl⟩ := lowering_pure_eq_ok.mp h
  exact ⟨fuel, active, mid, mid', ⟨last, lines, rfl, ht⟩, grows⟩

theorem covers_otherwise {o : Block} (h : Covers g strings proc (.tail [] o) code) :
    ∃ last lines, code = lines ++ [label last] ∧ Covers g strings proc (.block o.instrs) lines := by
  obtain ⟨fuel, active, pool, pool', ⟨last, lines, rfl, ht⟩, grows⟩ := h
  obtain ⟨arms, mid, ha, ht⟩ := lowering_bind_eq_ok.mp ht
  obtain ⟨otherwise, mid', ho, ht⟩ := lowering_bind_eq_ok.mp ht
  obtain ⟨rfl, rfl⟩ := lowering_pure_eq_ok.mp ht
  obtain ⟨rfl, rfl⟩ := lowering_pure_eq_ok.mp ha
  exact ⟨last, otherwise, rfl, covers_block ho grows⟩

theorem covers_arm {p : Pos} {c b : Block} {es : List Arm} {o : Block}
    (h : Covers g strings proc (.tail (.mk p c b :: es) o) code) :
    ∃ next last cond body rest, code = cond ++ (jumpIfZero next ++ (body ++
        inst (.jump last) :: label next :: (rest ++ [label last]))) ∧
      Covers g strings proc (.block c.instrs) cond ∧ Covers g strings proc (.block b.instrs) body ∧
      Covers g strings proc (.tail es o) (rest ++ [label last]) := by
  obtain ⟨fuel, active, pool, pool', ⟨last, lines, rfl, ht⟩, grows⟩ := h
  obtain ⟨arms, mid, ha, ht⟩ := lowering_bind_eq_ok.mp ht
  obtain ⟨otherwise, mid', ho, ht⟩ := lowering_bind_eq_ok.mp ht
  obtain ⟨rfl, rfl⟩ := lowering_pure_eq_ok.mp ht
  obtain ⟨next, pool₁, _, ha⟩ := lowering_bind_eq_ok.mp ha
  obtain ⟨cond, pool₂, hc, ha⟩ := lowering_bind_eq_ok.mp ha
  obtain ⟨body, pool₃, hb, ha⟩ := lowering_bind_eq_ok.mp ha
  obtain ⟨others, pool₄, hes, ha⟩ := lowering_bind_eq_ok.mp ha
  obtain ⟨rfl, rfl⟩ := lowering_pure_eq_ok.mp ha
  have hs : ∀ d pos, Clean (inlineLines (contextOf g proc) fuel active d pos) :=
    clean_inlineLines rfl fuel active
  have grows₃ := ((clean_armLines rfl hs es last hes).strings.trans
    (clean_blockLines rfl hs o ho).strings).trans grows
  have grows₂ := (clean_blockLines rfl hs b hb).strings.trans grows₃
  refine ⟨next, last, cond, body, others ++ otherwise, by simp [note_eq_nil],
    covers_block hc grows₂, covers_block hb grows₃, fuel, active, pool₃, mid', ⟨last, _, rfl, ?_⟩,
    grows⟩
  exact lowering_bind_eq_ok.mpr ⟨others, pool₄, hes,
    lowering_bind_eq_ok.mpr ⟨otherwise, mid', ho, rfl⟩⟩

theorem covers_loop {p : Pos} {c b : Block}
    (h : Covers g strings proc (.instr (.loop p c b)) code) :
    ∃ first last cond body, code = label first :: (cond ++ (jumpIfZero last ++ (body ++
        [inst (.jump first), label last]))) ∧
      Covers g strings proc (.block c.instrs) cond ∧
      Covers g strings proc (.block b.instrs) body := by
  obtain ⟨fuel, active, pool, pool', hl, grows⟩ := h
  obtain ⟨first, pool₁, _, h⟩ := lowering_bind_eq_ok.mp hl
  obtain ⟨last, pool₂, _, h⟩ := lowering_bind_eq_ok.mp h
  obtain ⟨cond, pool₃, hc, h⟩ := lowering_bind_eq_ok.mp h
  obtain ⟨body, pool₄, hb, h⟩ := lowering_bind_eq_ok.mp h
  obtain ⟨rfl, rfl⟩ := lowering_pure_eq_ok.mp h
  have grows₃ := (clean_blockLines rfl (fun d pos => clean_inlineLines rfl _ _ d pos) b
    hb).strings.trans grows
  exact ⟨first, last, cond, body, by simp [note_eq_nil], covers_block hc grows₃,
    covers_block hb grows⟩

theorem covers_inline {p : Pos} {name : String} {d : Routine}
    (hd : g.program.inlines.get? name = some d)
    (h : Covers g strings proc (.instr (.op p (.ident name))) code) :
    Covers g strings proc (.block d.body.instrs) code := by
  obtain ⟨fuel, active, pool, pool', hl, grows⟩ := h
  change nameLines _ _ _ _ _ = _ at hl
  simp only [nameLines, hd] at hl
  cases fuel with
  | zero => cases hl
  | succ fuel =>
    rw [inlineLines] at hl
    split at hl
    next => cases hl
    next => exact covers_block hl grows

theorem covers_region {p : Pos} {name : String} (hd : g.program.inlines.get? name = none)
    (hm : g.program.memories.contains name = true)
    (h : Covers g strings proc (.instr (.op p (.ident name))) code) :
    code = [inst (.push (.symbol (.memory name)))] := by
  obtain ⟨fuel, active, pool, pool', hl, _⟩ := h
  change nameLines _ _ _ _ _ = _ at hl
  simp only [nameLines, hd, hm, if_true] at hl
  obtain ⟨rfl, rfl⟩ := lowering_pure_eq_ok.mp hl
  rfl

theorem covers_call {p : Pos} {name : String} (hd : g.program.inlines.get? name = none)
    (hm : g.program.memories.contains name = false)
    (h : Covers g strings proc (.instr (.op p (.ident name))) code) :
    ∃ back, code = callLines g.depth name back := by
  obtain ⟨fuel, active, pool, pool', hl, _⟩ := h
  change nameLines _ _ _ _ _ = _ at hl
  simp only [nameLines, hd, hm, Bool.false_eq_true, if_false] at hl
  split at hl
  next =>
    obtain ⟨back, mid, _, h⟩ := lowering_bind_eq_ok.mp hl
    obtain ⟨rfl, rfl⟩ := lowering_pure_eq_ok.mp h
    exact ⟨back, rfl⟩
  next => cases hl

theorem covers_op {p : Pos} {o : Op} (hn : ∀ name, o ≠ .ident name)
    (h : Covers g strings proc (.instr (.op p o)) code) :
    ∃ pool pool', opLines (contextOf g proc) p o pool = .ok (code, pool') ∧
      pool'.strings <+: strings := by
  obtain ⟨fuel, active, pool, pool', hl, grows⟩ := h
  change instrLines _ _ _ _ = _ at hl
  rw [instrLines_op hn] at hl
  obtain ⟨lines, mid, ho, h⟩ := lowering_bind_eq_ok.mp hl
  obtain ⟨rfl, rfl⟩ := lowering_pure_eq_ok.mp h
  exact ⟨pool, mid, ho, grows⟩

end StackLang.Target
