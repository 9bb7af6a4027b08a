import StackLang.Proofs.Target.Coverage
import StackLang.Proofs.Target.Operations
/-!
The generated code does what the parts of a body do, over conditionals, loops, inlines and calls.
-/

namespace StackLang.Target

open Line
open Semantics (Setting State Outcome)
open Processor (Reaches Executes)

/-- What the code of a program relies on: the platform keeps to its part, every label stands once, a
call comes back to where it was made, strings and regions stand where the run has them, and every
procedure has its code. -/
structure Stage (w : Platform) (prog : List Line) (g : Setting) (base : Word)
    (strings : List String) : Prop where
  ground : Ground w g base
  prints : w.Prints
  exits : w.Exits
  answers : w.Answers g
  nodup : (labels prog).Nodup
  low : g.depth < 2 ^ 31
  returns : ∀ {k : Nat} {x : Inst} {l : Line}, prog[k]? = some (.inst x) →
    prog[k + 1]? = some l → Processor.lineAt? w prog (w.code (k + 1)) = some (k + 1)
  text : ∀ v ∈ strings, g.text v = w.place (.string (strings.idxOf v)) ∧
    (g.text v).toNat < 2 ^ 31 ∧ (Text.bytesOf v).length < 2 ^ 31
  region : ∀ name, g.program.memories.contains name →
    g.region name = w.place (.memory name) ∧ (g.region name).toNat < 2 ^ 31
  proc : ∀ {name r}, g.program.procs.get? name = some r →
    r.name = name ∧ r.body.lastIsReturn = true ∧ ∃ i body, prog[i]? = some (.label (.proc name)) ∧
      CodeAt prog (i + 1) body ∧ Covers g strings name (.block r.body.instrs) body

variable {w : Platform} {prog : List Line} {g : Setting} {base : Word} {strings : List String}
  {calls back pc : Nat} {m₀ m m' : Processor} {s : State} {proc : String} {code : List Line}

/-! ### Addresses -/

theorem effect_push_symbol {x : Symbol} (h : (w.place x).toNat < 2 ^ 31) (m : Processor) :
    m.effect w prog (.push (.symbol x)) = some (m.pushed (w.place x)) := by
  rw [Processor.effect, Processor.pushValue?, if_pos h]
  rfl

theorem effect_push_length {n : Nat} (h : n < 2 ^ 31) (m : Processor) :
    m.effect w prog (.push (.imm n)) = some (m.pushed (BitVec.ofNat 64 n)) := by
  have fits : fits32 n = true := by
    simp only [fits32, Bool.and_eq_true, decide_eq_true_eq]
    omega
  rw [Processor.effect, Processor.pushValue?, if_pos fits, BitVec.ofInt_natCast]
  rfl

theorem simulates_pushStr (stage : Stage w prog g base strings)
    (h : Follows w g base calls m₀ s m) {v raw : String} (hv : v ∈ strings)
    (hc : CodeAt prog m.pc [inst (.push (.imm (Text.bytesOf v).length)),
      inst (.push (.symbol (.string (strings.idxOf v))))]) :
    Simulates w prog g base calls m₀ back (m.pc + 2) m (g.op proc s (.pushStr v raw)) := by
  obtain ⟨place, near, short⟩ := stage.text v hv
  refine .settle hc fun room => ⟨_, .inst (effect_push_length short _)
    (.inst (effect_push_symbol (place ▸ near) _) .nil), ?_⟩
  have once := (h.pushed stage.ground (BitVec.ofNat 64 (Text.bytesOf v).length)
    (Nat.lt_of_succ_lt room)).next
  rw [place]
  exact (once.pushed stage.ground _ room).next

theorem simulates_region (stage : Stage w prog g base strings)
    (h : Follows w g base calls m₀ s m) {name : String}
    (hm : g.program.memories.contains name = true)
    (hc : CodeAt prog m.pc [inst (.push (.symbol (.memory name)))]) :
    Simulates w prog g base calls m₀ back (m.pc + 1) m
      (g.settle s (g.region name :: s.stack)) := by
  obtain ⟨place, near⟩ := stage.region name hm
  refine .settle hc fun room => ⟨_, .inst (effect_push_symbol (place ▸ near) _) .nil, ?_⟩
  rw [place]
  exact (h.pushed stage.ground _ room).next

/-- The code of any instruction without parts that is no name. -/
theorem simulates_op (stage : Stage w prog g base strings) (h : Follows w g base calls m₀ s m)
    (linked : Linked w prog proc calls m₀ back) {p : Pos} {o : Op} (hn : ∀ name, o ≠ .ident name)
    (covers : Covers g strings proc (.instr (.op p o)) code) (hc : CodeAt prog m.pc code) :
    Simulates w prog g base calls m₀ back (m.pc + code.length) m (g.op proc s o) := by
  obtain ⟨pool, pool', hl, grows⟩ := covers_op hn covers
  have ground := stage.ground
  cases o with
  | pushStr v raw =>
    obtain ⟨i, mid, hi, hl⟩ := lowering_bind_eq_ok.mp hl
    obtain ⟨rfl, rfl⟩ := lowering_pure_eq_ok.mp hl
    obtain ⟨_, _, hm, rfl⟩ := internString_eq_ok hi
    have hv : v ∈ strings := grows.subset hm
    have index : mid.strings.idxOf v = strings.idxOf v := by
      obtain ⟨rest, rfl⟩ := grows
      rw [List.idxOf_append_of_mem hm]
    rw [index] at hc
    exact simulates_pushStr stage h hv hc
  | binary t =>
    cases t with
    | operator o =>
      obtain ⟨rfl, rfl⟩ := lowering_pure_eq_ok.mp hl
      exact simulates_operator ground h proc hc
    | _ => cases hl
  | load width =>
    cases hr : readLine? width <;> simp only [opLines, hr] at hl
    next => cases hl
    next line =>
      obtain ⟨rfl, rfl⟩ := lowering_pure_eq_ok.mp hl
      exact simulates_load ground h proc hr hc
  | store width =>
    cases hr : writeLine? width <;> simp only [opLines, hr] at hl
    next => cases hl
    next line =>
      obtain ⟨rfl, rfl⟩ := lowering_pure_eq_ok.mp hl
      exact simulates_store ground h proc hr hc
  | syscall n =>
    rw [opLines] at hl
    split at hl
    next few =>
      obtain ⟨rfl, rfl⟩ := lowering_pure_eq_ok.mp hl
      exact simulates_syscall ground h proc stage.answers few rfl hc
    next => cases hl
  | ident name => exact absurd rfl (hn name)
  | pushInt v =>
    obtain ⟨rfl, rfl⟩ := lowering_pure_eq_ok.mp hl
    exact simulates_pushInt ground h proc hc
  | pop =>
    obtain ⟨rfl, rfl⟩ := lowering_pure_eq_ok.mp hl
    exact simulates_pop h proc hc
  | dup =>
    obtain ⟨rfl, rfl⟩ := lowering_pure_eq_ok.mp hl
    exact simulates_dup ground h proc hc
  | swap =>
    obtain ⟨rfl, rfl⟩ := lowering_pure_eq_ok.mp hl
    exact simulates_swap ground h proc hc
  | «over» =>
    obtain ⟨rfl, rfl⟩ := lowering_pure_eq_ok.mp hl
    exact simulates_over ground h proc hc
  | rot =>
    obtain ⟨rfl, rfl⟩ := lowering_pure_eq_ok.mp hl
    exact simulates_rot ground h proc hc
  | pick =>
    obtain ⟨rfl, rfl⟩ := lowering_pure_eq_ok.mp hl
    exact simulates_pick ground h proc hc
  | put =>
    obtain ⟨rfl, rfl⟩ := lowering_pure_eq_ok.mp hl
    exact simulates_put ground h proc stage.prints hc
  | size =>
    obtain ⟨rfl, rfl⟩ := lowering_pure_eq_ok.mp hl
    exact simulates_size ground h proc hc
  | ret =>
    obtain ⟨rfl, rfl⟩ := lowering_pure_eq_ok.mp hl
    exact simulates_ret h proc stage.exits stage.low linked hc

/-! ### Calls -/

/-- The return address of a new call goes above those of the calls before. -/
theorem Follows.called (ground : Ground w g base) (h : Follows w g base calls m₀ s m)
    (more : calls < g.depth) {a : Word} (rsp : m'.regs .rsp = m.regs .rsp)
    (r13 : m'.regs .r13 = BitVec.ofNat 64 (calls + 1))
    (ram : m'.ram = m.ram.putWord (w.place .returnStack + BitVec.ofNat 64 (calls + 1) * 8) a)
    (trace : m'.trace = m.trace) :
    Follows w g base (calls + 1) m' s m' ∧ m'.slot w (calls + 1) = a ∧
      ∀ k ≤ calls, m'.slot w k = m₀.slot w k := by
  have here := Follows.slot_place ground (k := calls + 1) more
  have slots := ground.slots
  have bounds := h.low ground
  have away : ∀ b : Word, b.toNat + 1 ≤ (w.place .returnStack).toNat + 8 * (calls + 1) ∨
      (w.place .returnStack).toNat + 8 * (calls + 2) ≤ b.toNat → m'.ram b = m.ram b := by
    intro b hb
    have := b.isLt
    rw [ram]
    exact Ram.putWord_apart ⟨by omega, by omega, by omega⟩
  refine ⟨⟨h.height, rsp ▸ h.pointer, ?_, ?_, ?_, r13, more, trace ▸ h.trace, fun _ _ => rfl⟩,
    ?_, ?_⟩
  · rw [rsp]
    have pointer := h.pointer
    have top := base.isLt
    exact stacked_congr (by omega) (fun b hl _ => away b (by omega)) h.stack
  · intro b hb
    rw [← h.owned hb]
    have apart := ground.owned_slots hb
    exact away b (by omega)
  · rw [← h.origin]
    have origin := ground.origin
    have split := ground.split
    exact word_congr (by omega) fun b hl hr => away b (by omega)
  · rw [Processor.slot, ram]
    exact Ram.word_putWord _ _ _
  · intro k hk
    have place := Follows.slot_place ground (k := k) (by omega)
    rw [← h.kept k hk]
    exact word_congr (by omega) fun b hl hr => away b (by omega)

/-- The return addresses can be compared with those of an earlier state. -/
theorem Follows.rebase {m₁ : Processor} (h : Follows w g base calls m₁ s m)
    (kept : ∀ k ≤ calls, m₁.slot w k = m₀.slot w k) : Follows w g base calls m₀ s m :=
  ⟨h.height, h.pointer, h.stack, h.owned, h.origin, h.index, h.nested, h.trace,
    fun k hk => (h.kept k hk).trans (kept k hk)⟩

/-- A call gets to the label of the procedure, with a return address that leads behind the call. -/
theorem reaches_call (stage : Stage w prog g base strings) (h : Follows w g base calls m₀ s m)
    (more : calls < g.depth) {name : String} {label : Symbol} {i : Nat}
    (hi : prog[i]? = some (.label (.proc name)))
    (hc : CodeAt prog m.pc (callLines g.depth name label)) :
    ∃ m', Reaches w prog m m' ∧ m'.pc = i ∧ Follows w g base (calls + 1) m' s m' ∧
      Processor.lineAt? w prog (m'.slot w (calls + 1)) = some (m.pc + 6) ∧
      ∀ k ≤ calls, m'.slot w k = m₀.slot w k := by
  let start : List Line := [inst (.binary .cmp (.reg .r13) (.imm g.depth)),
    inst (.jumpIf .ae .stackOverflow), inst (.unary .inc .r13), inst (.leaRel .rax label),
    inst (.binary .mov (.mem (.symbolSlot .returnStack .r13)) (.reg .rax))]
  obtain ⟨first, jump, behind, _⟩ := CodeAt.split start hc
  have there : labelLine? prog label = some (m.pc + 6) := labelLine?_eq stage.nodup behind
  have target : labelLine? prog (.proc name) = some i := labelLine?_eq stage.nodup hi
  have low := stage.low
  let flags := Flags.compare (m.regs .r13) (BitVec.ofNat 64 g.depth)
  have compares : m.effect w prog (.binary .cmp (.reg .r13) (.imm g.depth)) =
      some (m.compared flags) := by
    have fits : fits32 g.depth = true := by
      simp only [fits32, Bool.and_eq_true, decide_eq_true_eq]
      omega
    simp [Processor.effect, Processor.binary, Processor.comparison, Operand.size?, Operand.short,
      fits, Processor.read, flags]
  have below : flags.holds .ae = false := by
    have number : (m.regs .r13).toNat < (BitVec.ofNat 64 g.depth).toNat := by
      rw [h.index, BitVec.toNat_ofNat, BitVec.toNat_ofNat]
      omega
    change (!decide _) = false
    rw [decide_eq_true number]
    rfl
  let m₁ := (m.compared flags).next.next
  let m₂ := (m₁.set .r13 (m₁.regs .r13 + 1)).mixed.next
  have address : m₂.effect w prog (.leaRel .rax label) =
      some (m₂.set .rax (w.code (m.pc + 6))) := by
    rw [Processor.effect, there]
    rfl
  let m₃ := (m₂.set .rax (w.code (m.pc + 6))).next
  let m₄ := (m₃.withRam (m₃.ram.putWord (w.place .returnStack + m₃.regs .r13 * 8)
    (m₃.regs .rax))).next
  have run : Executes w prog m start m₄ := .inst compares (.pass rfl below (.inst rfl
    (.inst address (.inst (move_to_mem ..) .nil))))
  obtain ⟨steps, place⟩ := run.reaches first
  have index : m₃.regs .r13 = BitVec.ofNat 64 (calls + 1) := by
    change m.regs .r13 + 1 = _
    rw [h.index, BitVec.ofNat_add]
    rfl
  let m₅ : Processor := { m₄ with pc := i }
  obtain ⟨follows, slot, kept⟩ : Follows w g base (calls + 1) m₅ s m₅ ∧
      m₅.slot w (calls + 1) = w.code (m.pc + 6) ∧ ∀ k ≤ calls, m₅.slot w k = m₀.slot w k :=
    h.called stage.ground more rfl index (by rw [← index]; rfl) rfl
  refine ⟨m₅, steps.tail (Processor.step_jump (place ▸ jump) target), rfl, follows, ?_, kept⟩
  rw [slot]
  exact stage.returns jump behind

/-! ### Parts of bodies -/

/-- The code of every part keeps pace with runs of at most some steps. -/
def Faithful (w : Platform) (prog : List Line) (g : Setting) (base : Word)
    (strings : List String) (fuel : Nat) : Prop :=
  ∀ {proc calls part s m₀ m back code}, Follows w g base calls m₀ s m →
    Linked w prog proc calls m₀ back → Covers g strings proc part code → CodeAt prog m.pc code →
    Simulates w prog g base calls m₀ back (m.pc + code.length) m (g.run fuel proc calls part s)

section

variable {fuel : Nat} (ih : Faithful w prog g base strings fuel)
  (stage : Stage w prog g base strings) (h : Follows w g base calls m₀ s m)
  (linked : Linked w prog proc calls m₀ back) (hc : CodeAt prog m.pc code)

include ih h linked hc

theorem simulates_cons {x : Instr} {xs : List Instr}
    (covers : Covers g strings proc (.block (x :: xs)) code) :
    Simulates w prog g base calls m₀ back (m.pc + code.length) m
      (g.run (fuel + 1) proc calls (.block (x :: xs)) s) := by
  obtain ⟨first, rest, rfl, hx, hxs⟩ := covers_cons covers
  obtain ⟨here, later⟩ := codeAt_append.mp hc
  rw [Setting.run]
  refine (ih h linked hx here).andThen fun s' m' place follows => ?_
  have simulates := ih follows linked hxs (place ▸ later)
  rwa [place, Nat.add_assoc, ← List.length_append] at simulates

theorem simulates_otherwise {o : Block} (covers : Covers g strings proc (.tail [] o) code) :
    Simulates w prog g base calls m₀ back (m.pc + code.length) m
      (g.run (fuel + 1) proc calls (.tail [] o) s) := by
  obtain ⟨last, lines, rfl, ho⟩ := covers_otherwise covers
  obtain ⟨here, there, _⟩ := codeAt_append.mp hc
  rw [Setting.run, List.length_append]
  exact (ih h linked ho here).label there

include stage

/-- The code of an arm, when its condition holds and when it does not. -/
theorem simulates_arm {p : Pos} {c b : Block} {es : List Arm} {o : Block}
    (covers : Covers g strings proc (.tail (.mk p c b :: es) o) code) :
    Simulates w prog g base calls m₀ back (m.pc + code.length) m
      (g.run (fuel + 1) proc calls (.tail (.mk p c b :: es) o) s) := by
  obtain ⟨next, last, cond, body, rest, rfl, hcond, hbody, hrest⟩ := covers_arm covers
  obtain ⟨here, hc⟩ := codeAt_append.mp hc
  obtain ⟨zero, hc⟩ := codeAt_append.mp hc
  obtain ⟨inside, leap, landing, hc⟩ := codeAt_append.mp hc
  obtain ⟨_, final, _⟩ := codeAt_append.mp hc
  have ending : m.pc + (cond ++ (jumpIfZero next ++ (body ++ inst (.jump last) :: label next ::
      (rest ++ [label last])))).length =
      m.pc + cond.length + 3 + body.length + 1 + 1 + rest.length + 1 := by
    simp only [List.length_append, List.length_cons, jumpIfZero, List.length_nil]
    omega
  rw [Setting.run, ending]
  refine (ih h linked hcond here).test zero (labelLine?_eq stage.nodup landing) ?_ ?_
  · intro s' m' place follows
    have simulates := ih follows linked hbody (place ▸ inside)
    rw [place] at simulates
    exact (simulates.jump leap (labelLine?_eq stage.nodup final)).label final
  · intro s' m' place follows
    have label : m'.step w prog = some (.runs m'.next) := Processor.step_label (place ▸ landing)
    have simulates := ih follows.next linked hrest (by rwa [Processor.next_pc, place])
    rw [Processor.next_pc, place, List.length_append] at simulates
    exact simulates.after (Processor.reaches_one label)

/-- The code of a loop, which comes back to its first label as long as the condition holds. -/
theorem simulates_loop {p : Pos} {c b : Block}
    (covers : Covers g strings proc (.instr (.loop p c b)) code) :
    Simulates w prog g base calls m₀ back (m.pc + code.length) m
      (g.run (fuel + 1) proc calls (.instr (.loop p c b)) s) := by
  obtain ⟨first, last, cond, body, rfl, hcond, hbody⟩ := covers_loop covers
  have ⟨entry, inner⟩ := hc
  obtain ⟨here, inner⟩ := codeAt_append.mp inner
  obtain ⟨zero, inner⟩ := codeAt_append.mp inner
  obtain ⟨inside, leap, final, _⟩ := codeAt_append.mp inner
  have ending : m.pc + (label first :: (cond ++ (jumpIfZero last ++ (body ++
      [inst (.jump first), label last])))).length =
      m.pc + 1 + cond.length + 3 + body.length + 1 + 1 := by
    simp only [List.length_append, List.length_cons, jumpIfZero, List.length_nil]
    omega
  have starts : m.step w prog = some (.runs m.next) := Processor.step_label entry
  rw [Setting.run]
  refine .after (Processor.reaches_one starts) ?_
  refine (ih h.next linked hcond here).test zero (labelLine?_eq stage.nodup final) ?_ ?_
  · intro s' m' place follows
    have simulates := ih follows linked hbody (place ▸ inside)
    rw [place] at simulates
    refine (simulates.jump leap (labelLine?_eq stage.nodup entry)).andThen ?_
    intro s'' m'' place follows
    have again := ih follows linked covers (place ▸ hc)
    rwa [place] at again
  · intro s' m' place follows
    rw [ending]
    exact ⟨m'.next, Processor.reaches_one (Processor.step_label (place ▸ final)),
      congrArg (· + 1) place, follows.next⟩

omit linked in
/-- A call, the body of the procedure and the way back. -/
theorem simulates_call {name : String} {r : Routine} (hr : g.program.procs.get? name = some r)
    (more : calls < g.depth) {label : Symbol} (code_eq : code = callLines g.depth name label) :
    Simulates w prog g base calls m₀ back (m.pc + code.length) m
      (g.run fuel r.name (calls + 1) (.block r.body.instrs) s).resume := by
  subst code_eq
  obtain ⟨rfl, last, i, body, entry, inside, covers⟩ := stage.proc hr
  obtain ⟨m₁, steps, place, follows, returns, kept⟩ := reaches_call stage h more entry hc
  have enters : m₁.step w prog = some (.runs m₁.next) := Processor.step_label (place ▸ entry)
  have linked : Linked w prog r.name (calls + 1) m₁ (m.pc + 6) :=
    fun _ => ⟨Nat.le_add_left 1 calls, returns⟩
  have simulates := ih follows.next linked covers (by rwa [Processor.next_pc, place])
  have never : ∀ s', g.run fuel r.name (calls + 1) (.block r.body.instrs) s ≠ .next s' :=
    fun s' => Setting.run_ne_next last
  have steps' := steps.tail enters
  generalize g.run fuel r.name (calls + 1) (.block r.body.instrs) s = o at simulates never
  cases o with
  | next s' => exact absurd rfl (never s')
  | returned s' =>
    obtain ⟨m', n, more, there, count, follows⟩ := simulates
    obtain rfl : calls = n := Nat.succ.inj count
    obtain ⟨_, _, _, _, _, _, behind, _⟩ := hc
    refine ⟨m'.next, (steps'.trans more).tail (Processor.step_label (there ▸ behind)), ?_,
      (follows.rebase kept).next⟩
    rw [Processor.next_pc, there]
    rfl
  | exited status trace =>
    obtain ⟨m', trace', more, rest⟩ := simulates
    exact ⟨m', trace', steps'.trans more, rest⟩
  | faulted | unfinished => trivial

theorem simulates_name {p : Pos} {name : String}
    (covers : Covers g strings proc (.instr (.op p (.ident name))) code) :
    Simulates w prog g base calls m₀ back (m.pc + code.length) m
      (g.run (fuel + 1) proc calls (.instr (.op p (.ident name))) s) := by
  rw [Setting.run]
  split
  next d hd => exact ih h linked (covers_inline hd covers) hc
  next hd =>
    split
    next hm =>
      obtain rfl := covers_region hd hm covers
      exact simulates_region stage h hm hc
    next hm =>
      split
      next => trivial
      next r hr =>
        split
        next more =>
          obtain ⟨label, code_eq⟩ := covers_call hd (by simpa using hm) covers
          exact simulates_call ih stage h hc hr more code_eq
        next => trivial

end

/-- The code of every part of every body keeps pace with every run of it. -/
theorem faithful (stage : Stage w prog g base strings) (fuel : Nat) :
    Faithful w prog g base strings fuel := by
  induction fuel with
  | zero =>
    intro proc calls part s m₀ m back code h linked covers hc
    trivial
  | succ fuel ih =>
    intro proc calls part s m₀ m back code h linked covers hc
    match part with
    | .block [] =>
      obtain ⟨_, _, _, _, hl, _⟩ := covers
      obtain ⟨rfl, rfl⟩ := lowering_pure_eq_ok.mp hl
      exact ⟨m, .refl, rfl, h⟩
    | .block (x :: xs) => exact simulates_cons ih h linked hc covers
    | .tail [] o => exact simulates_otherwise ih h linked hc covers
    | .tail (.mk p c b :: es) o => exact simulates_arm ih stage h linked hc covers
    | .instr (.branch p c b es o) =>
      rw [Setting.run]
      exact ih h linked (covers_branch covers) hc
    | .instr (.loop p c b) => exact simulates_loop ih stage h linked hc covers
    | .instr (.op p o) =>
      by_cases hn : ∃ name, o = .ident name
      · obtain ⟨name, rfl⟩ := hn
        exact simulates_name ih stage h linked hc covers
      · have other : ∀ name, o ≠ .ident name := fun name same => hn ⟨name, same⟩
        rw [Setting.run]
        · exact simulates_op stage h linked other covers hc
        · exact other

end StackLang.Target
