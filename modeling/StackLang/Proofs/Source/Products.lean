import StackLang.Proofs.Rules
import StackLang.Proofs.Source.Acceptance
import StackLang.Proofs.Source.Lexing
/-!
Programs read from a source text break no rule.
-/

namespace StackLang.Source

theorem WidthText.isWidth {mark : Char} {text : List Char} {width : Int}
    (h : WidthText mark text width) : Token.isWidth width := by
  obtain ⟨_, _, _, _, hw⟩ := h
  rw [isWidth_iff]
  exact hw

theorem Faithful.op_valid {l : Lexeme} {o : Op} (h : Faithful l) (ho : o.SpelledBy l) :
    o.Valid fun _ => True := by
  cases o with
  | binary t =>
    obtain ⟨_, o, rfl⟩ := ho
    simp [Op.Valid, Token.isOperator]
  | load w =>
    obtain ⟨ht, rfl⟩ := ho
    cases h <;> cases ht
    next hw => exact hw.isWidth
  | store w =>
    obtain ⟨ht, rfl⟩ := ho
    cases h <;> cases ht
    next hw => exact hw.isWidth
  | syscall n =>
    obtain ⟨ht, rfl⟩ := ho
    cases h <;> cases ht
    next hn =>
      simp only [Op.Valid, Token.syscallLimit]
      omega
  | _ => trivial

/-- The parts of a body that break no rule. -/
def Part.Valid : Part → Prop
  | .block xs => Instr.ValidList (fun _ => True) xs
  | .instr x => x.Valid fun _ => True
  | .tail arms otherwise => Arm.ValidList (fun _ => True) arms ∧ otherwise.Valid fun _ => True

theorem Spells.valid {n : Nat} {part : Part} {ts : List Lexeme} (h : Spells n part ts)
    (faithful : ∀ l ∈ ts, Faithful l) : part.Valid := by
  induction h with
  | nil => trivial
  | cons _ _ hx hxs =>
    obtain ⟨fx, fxs⟩ := List.forall_mem_append.mp faithful
    exact ⟨hx fx, hxs fxs⟩
  | plain ho => exact (faithful _ (by simp)).op_valid ho
  | branch _ _ _ _ _ hc hb ht =>
    simp only [List.mem_append, List.mem_cons, or_imp, forall_and] at faithful
    obtain ⟨⟨⟨_, fc⟩, _, fb⟩, ft⟩ := faithful
    exact ⟨⟨rfl, rfl⟩, hc fc, hb fb, ht ft⟩
  | loop _ _ _ _ _ hc hb =>
    simp only [List.mem_append, List.mem_cons, or_imp, forall_and] at faithful
    obtain ⟨⟨⟨_, fc⟩, _, fb⟩, _⟩ := faithful
    exact ⟨⟨rfl, rfl⟩, hc fc, hb fb⟩
  | close _ => exact ⟨trivial, trivial⟩
  | otherwise _ _ _ hb =>
    simp only [List.mem_append, List.mem_cons, or_imp, forall_and] at faithful
    exact ⟨trivial, hb faithful.1.2⟩
  | arm _ _ _ _ _ hc hb ht =>
    simp only [List.mem_append, List.mem_cons, or_imp, forall_and] at faithful
    obtain ⟨⟨⟨_, fc⟩, _, fb⟩, ft⟩ := faithful
    exact ⟨⟨⟨hc fc, hb fb⟩, (ht ft).1⟩, (ht ft).2⟩

theorem returning_valid {closing : Pos} {xs : List Instr}
    (h : Instr.ValidList (fun _ => True) xs) :
    Instr.ValidList (fun _ => True) (returning closing xs) := by
  unfold returning
  split
  next => exact h
  next =>
    rw [Instr.validList_append]
    exact ⟨h, trivial, trivial⟩

theorem DeclText.valid {d : Decl} {ts : List Lexeme} (h : DeclText d ts)
    (faithful : ∀ l ∈ ts, Faithful l) (p : Program) : d.Valid p false := by
  cases h with
  | proc _ _ _ hb _ =>
    simp only [List.mem_append, List.mem_cons, or_imp, forall_and] at faithful
    refine ⟨rfl, returning_last _ _, ?_⟩
    rw [p.allows_false]
    exact returning_valid (hb.valid faithful.1.2.2.2)
  | inline _ _ _ hb _ =>
    simp only [List.mem_append, List.mem_cons, or_imp, forall_and] at faithful
    exact ⟨rfl, hb.valid faithful.1.2⟩
  | memory _ _ _ hv _ => exact hv

theorem DeclsText.valid {ds : List Decl} {ts : List Lexeme} (h : DeclsText ds ts)
    (faithful : ∀ l ∈ ts, Faithful l) (p : Program) : ∀ d ∈ ds, d.Valid p false := by
  induction h with
  | nil => simp
  | snoc _ hd ih =>
    obtain ⟨fs, fd⟩ := List.forall_mem_append.mp faithful
    refine List.forall_mem_append.mpr ⟨ih fs, ?_⟩
    rw [List.forall_mem_singleton]
    exact hd.valid fd p

theorem tokenize_faithful {file : String} {bytes : List UInt8} {tokens : List Lexeme}
    (h : tokenize file bytes = .ok tokens) : ∀ l ∈ beforeEnd tokens, Faithful l := by
  intro l hl
  have hne : l.tok ≠ .eof := by simpa using List.mem_takeWhile_imp hl
  exact laid_faithful (tokenize_laid h).1 l (List.takeWhile_subset _ hl) hne

/-- A program read from a source text breaks no rule. -/
theorem parsed_violations {file : String} {bytes : List UInt8} {tokens : List Lexeme}
    {p : Program} (ht : tokenize file bytes = .ok tokens)
    (hp : (parseTokens file tokens).result = .ok p) : p.violations false = [] := by
  obtain ⟨coherent, text⟩ := parsed_reads hp
  exact Program.violations_eq_nil_iff.mpr
    ⟨(parsed_iff.mp hp).2, coherent, text.valid (tokenize_faithful ht) p⟩

end StackLang.Source
