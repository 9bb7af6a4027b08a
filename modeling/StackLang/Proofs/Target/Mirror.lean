import StackLang.Proofs.Target.Layout
/-!
States of a run and states of the processor that belong together. The data stack is the stack of the
processor, and the return addresses of the calls made so far stay where they are.
-/

namespace StackLang.Target

open Semantics (Setting State)

/-- Words stand in memory, each above the one before. -/
def Stacked (ram : Ram) : Word → List Word → Prop
  | _, [] => True
  | a, v :: st => ram.word a = v ∧ Stacked ram (a + 8) st

/-- An entry of the return stack. -/
def Processor.slot (w : Platform) (m : Processor) (k : Nat) : Word :=
  m.ram.word (w.place .returnStack + BitVec.ofNat 64 k * 8)

/-- The processor holds the state of a run below some calls. Its data stack began at `base`, and the
return addresses of these calls are those that were there at `m₀`. -/
structure Follows (w : Platform) (g : Setting) (base : Word) (calls : Nat) (m₀ : Processor)
    (s : State) (m : Processor) : Prop where
  height : s.stack.length ≤ g.room
  pointer : (m.regs .rsp).toNat + 8 * s.stack.length = base.toNat
  stack : Stacked m.ram (m.regs .rsp) s.stack
  owned : ∀ {a}, g.owned a → m.ram a = s.ram a
  origin : m.ram.word (w.place .stackOrigin) = base
  index : m.regs .r13 = BitVec.ofNat 64 calls
  nested : calls ≤ g.depth
  trace : List.Forall₂ (Shows g) s.trace m.trace
  kept : ∀ k ≤ calls, m.slot w k = m₀.slot w k

theorem word_congr {ram ram' : Ram} {a : Word} (ha : a.toNat + 8 ≤ 2 ^ 64)
    (h : ∀ b, a.toNat ≤ b.toNat → b.toNat < a.toNat + 8 → ram' b = ram b) :
    ram'.word a = ram.word a := by
  unfold Ram.word
  rw [Ram.load_congr]
  intro i hi
  have place : (a + BitVec.ofNat 64 i).toNat = a.toNat + i := by
    rw [BitVec.toNat_add, BitVec.toNat_ofNat]
    omega
  exact h _ (by omega) (by omega)

theorem toNat_add_eight {a : Word} (h : a.toNat + 8 < 2 ^ 64) : (a + 8).toNat = a.toNat + 8 := by
  rw [BitVec.toNat_add]
  change (a.toNat + 8) % 2 ^ 64 = a.toNat + 8
  omega

theorem toNat_sub_eight {a : Word} (h : 8 ≤ a.toNat) : (a - 8).toNat = a.toNat - 8 := by
  rw [BitVec.toNat_sub]
  change (2 ^ 64 - 8 + a.toNat) % 2 ^ 64 = a.toNat - 8
  omega

theorem stacked_congr {ram ram' : Ram} {a : Word} {st : List Word}
    (ha : a.toNat + 8 * st.length < 2 ^ 64)
    (h : ∀ b, a.toNat ≤ b.toNat → b.toNat < a.toNat + 8 * st.length → ram' b = ram b)
    (hs : Stacked ram a st) : Stacked ram' a st := by
  induction st generalizing a with
  | nil => trivial
  | cons v st ih =>
    rw [List.length_cons] at ha h
    obtain ⟨top, rest⟩ := hs
    have up := toNat_add_eight (a := a) (by omega)
    refine ⟨?_, ih (by omega) (fun b hl hr => h b (by omega) (by omega)) rest⟩
    rw [← top]
    exact word_congr (by omega) fun b hl hr => h b (by omega) (by omega)

/-- The word below some others. -/
theorem Stacked.get {ram : Ram} {a : Word} {st : List Word} (h : Stacked ram a st) {n : Nat}
    {v : Word} (hv : st[n]? = some v) : ram.word (a + BitVec.ofNat 64 n * 8) = v := by
  induction st generalizing a n with
  | nil => simp at hv
  | cons u st ih =>
    obtain ⟨top, rest⟩ := h
    cases n with
    | zero => simpa [top] using hv
    | succ n =>
      rw [List.getElem?_cons_succ] at hv
      rw [← ih rest hv, BitVec.add_assoc]
      congr 2
      rw [BitVec.ofNat_add, BitVec.add_mul, BitVec.add_comm]
      rfl

/-- The address of an entry of the return stack. -/
theorem toNat_slotPlace {w : Platform} {depth k : Nat}
    (slots : (w.place .returnStack).toNat + 8 * (depth + 1) ≤ 2 ^ 31) (hk : k ≤ depth) :
    (w.place .returnStack + BitVec.ofNat 64 k * 8).toNat =
      (w.place .returnStack).toNat + 8 * k := by
  have offset : (BitVec.ofNat 64 k * 8).toNat = 8 * k := by
    rw [BitVec.toNat_mul, BitVec.toNat_ofNat]
    change (k % 2 ^ 64) * 8 % 2 ^ 64 = 8 * k
    omega
  rw [BitVec.toNat_add, offset]
  omega

namespace Follows

variable {w : Platform} {g : Setting} {base : Word} {calls : Nat} {m₀ m m' : Processor} {s : State}

theorem low (ground : Ground w g base) (h : Follows w g base calls m₀ s m) :
    2 ^ 31 + 48 ≤ (m.regs .rsp).toNat ∧ (m.regs .rsp).toNat ≤ base.toNat := by
  have height := h.height
  have pointer := h.pointer
  have room := ground.stack
  omega

theorem slot_place (ground : Ground w g base) {k : Nat} (hk : k ≤ g.depth) :
    (w.place .returnStack + BitVec.ofNat 64 k * 8).toNat =
      (w.place .returnStack).toNat + 8 * k :=
  toNat_slotPlace ground.slots hk

/-- Memory may change between the data and the top of the stack. -/
theorem between (ground : Ground w g base) (h : Follows w g base calls m₀ s m)
    (rsp : m'.regs .rsp = m.regs .rsp) (r13 : m'.regs .r13 = m.regs .r13)
    (trace : m'.trace = m.trace)
    (ram : ∀ a, a.toNat < 2 ^ 31 ∨ (m.regs .rsp).toNat ≤ a.toNat → m'.ram a = m.ram a) :
    Follows w g base calls m₀ s m' := by
  have pointer := h.pointer
  have top := base.isLt
  refine ⟨h.height, rsp ▸ pointer, ?_, ?_, ?_, r13 ▸ h.index, h.nested, trace ▸ h.trace, ?_⟩
  · rw [rsp]
    exact stacked_congr (by omega) (fun b hl _ => ram b (.inr hl)) h.stack
  · intro a ha
    rw [← h.owned ha]
    exact ram a (.inl (ground.owned ha))
  · rw [← h.origin]
    have origin := ground.origin
    exact word_congr (by omega) fun b _ hb => ram b (.inl (by omega))
  · intro k hk
    have slots := ground.slots
    have nested := h.nested
    have place := slot_place ground (k := k) (by omega)
    rw [← h.kept k hk]
    exact word_congr (by omega) fun b _ hb => ram b (.inl (by omega))

/-- The program may change its own memory. -/
theorem inside (ground : Ground w g base) (h : Follows w g base calls m₀ s m) {ram : Ram}
    (rsp : m'.regs .rsp = m.regs .rsp) (r13 : m'.regs .r13 = m.regs .r13)
    (trace : m'.trace = m.trace) (own : ∀ a, g.owned a → m'.ram a = ram a)
    (other : ∀ a, ¬ g.owned a → m'.ram a = m.ram a) :
    Follows w g base calls m₀ { s with ram } m' := by
  have pointer := h.pointer
  have bounds := h.low ground
  have top := base.isLt
  refine ⟨h.height, rsp ▸ pointer, ?_, fun {a} ha => own a ha, ?_, r13 ▸ h.index, h.nested,
    trace ▸ h.trace, ?_⟩
  · change Stacked m'.ram (m'.regs .rsp) s.stack
    rw [rsp]
    refine stacked_congr (by omega) (fun b hl _ => other b ?_) h.stack
    intro ha
    have := ground.owned ha
    omega
  · rw [← h.origin]
    have origin := ground.origin
    refine word_congr (by omega) fun b hl hr => other b ?_
    intro ha
    have := ground.owned_origin ha
    omega
  · intro k hk
    have slots := ground.slots
    have nested := h.nested
    have place := slot_place ground (k := k) (by omega)
    rw [← h.kept k hk]
    refine word_congr (by omega) fun b hl hr => other b ?_
    intro ha
    have := ground.owned_slots ha
    omega

/-- The other registers, the flags and the place in the code do not matter. -/
theorem same (h : Follows w g base calls m₀ s m) (rsp : m'.regs .rsp = m.regs .rsp)
    (r13 : m'.regs .r13 = m.regs .r13) (ram : m'.ram = m.ram) (trace : m'.trace = m.trace) :
    Follows w g base calls m₀ s m' := by
  refine ⟨h.height, rsp ▸ h.pointer, ?_, ram ▸ h.owned, ram ▸ h.origin, r13 ▸ h.index, h.nested,
    trace ▸ h.trace, ?_⟩
  · rw [rsp, ram]
    exact h.stack
  · intro k hk
    rw [← h.kept k hk, Processor.slot, ram]
    rfl

theorem next (h : Follows w g base calls m₀ s m) : Follows w g base calls m₀ s m.next :=
  h.same rfl rfl rfl rfl

theorem jumped (h : Follows w g base calls m₀ s m) (pc : Nat) :
    Follows w g base calls m₀ s { m with pc } :=
  h.same rfl rfl rfl rfl

theorem popped (h : Follows w g base calls m₀ s m) {v : Word} {st : List Word}
    (hs : s.stack = v :: st) {r : Reg} (hr : r ≠ .rsp) (hr' : r ≠ .r13) :
    Follows w g base calls m₀ { s with stack := st } (m.popped r) ∧ (m.popped r).regs r = v := by
  have stack := h.stack
  have pointer := h.pointer
  have height := h.height
  have high := base.isLt
  rw [hs] at stack
  rw [hs, List.length_cons] at pointer height
  obtain ⟨top, rest⟩ := stack
  have rsp : (m.popped r).regs .rsp = m.regs .rsp + 8 := by
    rw [Processor.popped, Processor.set_regs_of_ne hr.symm, Processor.set_regs_self]
  have r13 : (m.popped r).regs .r13 = m.regs .r13 :=
    Processor.popped_regs_of_ne hr'.symm (by decide)
  refine ⟨⟨?_, ?_, ?_, h.owned, h.origin, r13 ▸ h.index, h.nested, h.trace, h.kept⟩, ?_⟩
  · change st.length ≤ g.room
    omega
  · rw [rsp, toNat_add_eight (by omega)]
    change (m.regs .rsp).toNat + 8 + 8 * st.length = base.toNat
    omega
  · rw [rsp]
    exact rest
  · rw [Processor.popped_regs_self]
    exact top

theorem pushed (ground : Ground w g base) (h : Follows w g base calls m₀ s m) (v : Word)
    (room : s.stack.length < g.room) :
    Follows w g base calls m₀ { s with stack := v :: s.stack } (m.pushed v) := by
  have pointer := h.pointer
  have height := h.height
  have bounds := h.low ground
  have stack := ground.stack
  have high := base.isLt
  have down : (m.regs .rsp - 8).toNat = (m.regs .rsp).toNat - 8 := toNat_sub_eight (by omega)
  have rsp : (m.pushed v).regs .rsp = m.regs .rsp - 8 := by
    rw [Processor.pushed, Processor.withRam_regs, Processor.set_regs_self]
  have r13 : (m.pushed v).regs .r13 = m.regs .r13 := Processor.pushed_regs_of_ne (by decide)
  have away : ∀ a : Word, a.toNat < 2 ^ 31 ∨ (m.regs .rsp).toNat ≤ a.toNat →
      (m.pushed v).ram a = m.ram a := by
    intro a ha
    have := a.isLt
    exact Ram.putWord_apart ⟨by omega, by omega, by omega⟩
  have same : Follows w g base calls m₀ s (m.withRam (m.pushed v).ram) :=
    h.between ground rfl rfl rfl away
  refine ⟨?_, ?_, ⟨?_, ?_⟩, same.owned, same.origin, r13 ▸ h.index, h.nested, h.trace, same.kept⟩
  · change s.stack.length + 1 ≤ g.room
    omega
  · rw [rsp, down]
    change (m.regs .rsp).toNat - 8 + 8 * (s.stack.length + 1) = base.toNat
    omega
  · rw [rsp]
    exact Ram.word_putWord _ _ _
  · rw [rsp, BitVec.sub_add_cancel]
    exact same.stack

/-- A register that holds a value is put on the stack. -/
theorem pushedReg (ground : Ground w g base) (h : Follows w g base calls m₀ s m) (r : Reg)
    {v : Word} (hv : m.regs r = v) (room : s.stack.length < g.room) :
    Follows w g base calls m₀ { s with stack := v :: s.stack } (m.pushed (m.regs r)) :=
  hv ▸ h.pushed ground (m.regs r) room

end Follows

end StackLang.Target
