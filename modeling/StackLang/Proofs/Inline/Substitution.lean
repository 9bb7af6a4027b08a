import StackLang.Inline.Expansion
import StackLang.Proofs.Inline.References
import StackLang.Proofs.Rules
/-!
Expansion as plain substitution: where no chain of uses is endless, expansion never stops, and what
it makes of a body is the body with every name of an inline replaced.
-/

namespace StackLang

/-- What names are replaced by; names without a replacement stay. -/
abbrev Replacement := String → Pos → Option (List Instr)

mutual

/-- An instruction with its names replaced, wherever they stand in it. -/
def Instr.substitute (sub : Replacement) : Instr → List Instr
  | .op p (.ident name) => (sub name p).getD [.op p (.ident name)]
  | .op p o => [.op p o]
  | .branch p c b es o =>
    [.branch p (c.substitute sub) (b.substitute sub) (Arm.substituteList sub es)
      (o.substitute sub)]
  | .loop p c b => [.loop p (c.substitute sub) (b.substitute sub)]

def Block.substitute (sub : Replacement) : Block → Block
  | .absent => .absent
  | .mk p xs => .mk p (Instr.substituteList sub xs)

def Instr.substituteList (sub : Replacement) : List Instr → List Instr
  | [] => []
  | x :: xs => x.substitute sub ++ Instr.substituteList sub xs

def Arm.substituteList (sub : Replacement) : List Arm → List Arm
  | [] => []
  | .mk p c b :: rest => .mk p (c.substitute sub) (b.substitute sub) :: Arm.substituteList sub rest

end

/-- The replacements that a resolver gives without stopping. -/
def Resolver.replacement (resolve : Resolver) : Replacement := fun name pos =>
  match resolve name pos with
  | some (.ok xs) => some xs
  | _ => none

/-- No name that is used stops expansion. -/
def Resolver.Answers (resolve : Resolver) (uses : List (String × Pos)) : Prop :=
  ∀ u ∈ uses, ∀ h, resolve u.1 u.2 ≠ some (.error h)

theorem Resolver.answers_append {resolve : Resolver} {us vs : List (String × Pos)} :
    resolve.Answers (us ++ vs) ↔ resolve.Answers us ∧ resolve.Answers vs := by
  simp only [Answers, List.mem_append, or_imp, forall_and]

theorem Instr.expand_ident {resolve : Resolver} {name : String} {pos : Pos}
    (h : ∀ e, resolve name pos ≠ some (.error e)) :
    (Instr.op pos (.ident name)).expand resolve none =
      ((Instr.op pos (.ident name)).substitute resolve.replacement, none) := by
  simp only [Instr.expand, Instr.substitute, Resolver.replacement]
  split
  next hr => simp [hr]
  next xs hr => simp [hr]
  next e hr => exact absurd hr (h e)

mutual

theorem Instr.expand_eq_substitute {resolve : Resolver} (x : Instr)
    (h : resolve.Answers x.uses) :
    x.expand resolve none = (x.substitute resolve.replacement, none) := by
  match x with
  | .op p o =>
    cases o with
    | ident name => exact Instr.expand_ident (h (name, p) (by simp [Instr.uses]))
    | _ => rfl
  | .branch p c b es o =>
    simp only [Instr.uses, Resolver.answers_append] at h
    obtain ⟨⟨⟨hc, hb⟩, hes⟩, ho⟩ := h
    simp only [Instr.expand, Instr.substitute, c.expand_eq_substitute hc,
      b.expand_eq_substitute hb, Arm.expandList_eq_substitute es hes, o.expand_eq_substitute ho]
  | .loop p c b =>
    simp only [Instr.uses, Resolver.answers_append] at h
    simp only [Instr.expand, Instr.substitute, c.expand_eq_substitute h.1,
      b.expand_eq_substitute h.2]

theorem Block.expand_eq_substitute {resolve : Resolver} (b : Block)
    (h : resolve.Answers b.uses) :
    b.expand resolve none = (b.substitute resolve.replacement, none) := by
  match b with
  | .absent => rfl
  | .mk p xs =>
    rw [Block.uses] at h
    simp only [Block.expand, Block.substitute, Instr.expandList_eq_substitute xs h]

theorem Instr.expandList_eq_substitute {resolve : Resolver} (xs : List Instr)
    (h : resolve.Answers (Instr.usesList xs)) :
    Instr.expandList resolve none xs = (Instr.substituteList resolve.replacement xs, none) := by
  match xs with
  | [] => rfl
  | x :: xs =>
    simp only [Instr.usesList, Resolver.answers_append] at h
    simp only [Instr.expandList, Instr.substituteList, Instr.expandList_eq_substitute xs h.1,
      x.expand_eq_substitute h.2]

theorem Arm.expandList_eq_substitute {resolve : Resolver} (es : List Arm)
    (h : resolve.Answers (Arm.usesList es)) :
    Arm.expandList resolve none es = (Arm.substituteList resolve.replacement es, none) := by
  match es with
  | [] => rfl
  | .mk p c b :: rest =>
    simp only [Arm.usesList, Resolver.answers_append] at h
    simp only [Arm.expandList, Arm.substituteList, c.expand_eq_substitute h.1.1,
      b.expand_eq_substitute h.1.2, Arm.expandList_eq_substitute rest h.2]

end

theorem Block.isPresent_substitute (sub : Replacement) (b : Block) :
    (b.substitute sub).isPresent = b.isPresent := by
  cases b <;> rfl

theorem Instr.substitute_return {sub : Replacement} {x : Instr} (h : x.isReturn) :
    x.substitute sub = [x] := by
  cases x with
  | op p o => cases o <;> first | rfl | cases h
  | branch => cases h
  | loop => cases h

theorem Instr.getLast?_substituteList {sub : Replacement} {xs : List Instr}
    (h : xs.getLast?.any Instr.isReturn) :
    (Instr.substituteList sub xs).getLast?.any Instr.isReturn := by
  induction xs with
  | nil => cases h
  | cons x xs ih =>
    rw [Instr.substituteList]
    cases xs with
    | nil =>
      have hx : x.isReturn := by simpa using h
      simpa [Instr.substitute_return hx, Instr.substituteList] using hx
    | cons y ys =>
      rw [List.getLast?_cons_cons] at h
      have later := ih h
      rw [List.getLast?_append_of_ne_nil]
      · exact later
      · intro empty
        simp [empty] at later

theorem Block.lastIsReturn_substitute {sub : Replacement} {b : Block} (h : b.lastIsReturn) :
    (b.substitute sub).lastIsReturn := by
  cases b with
  | absent => cases h
  | mk p xs => exact Instr.getLast?_substituteList h

mutual

theorem Instr.substitute_congr {sub sub' : Replacement} (x : Instr)
    (h : ∀ u ∈ x.uses, sub u.1 u.2 = sub' u.1 u.2) : x.substitute sub = x.substitute sub' := by
  match x with
  | .op p o =>
    cases o with
    | ident name =>
      have same := h (name, p) (by simp [Instr.uses])
      simp only [Instr.substitute, same]
    | _ => rfl
  | .branch p c b es o =>
    simp only [Instr.uses, List.forall_mem_append] at h
    obtain ⟨⟨⟨hc, hb⟩, hes⟩, ho⟩ := h
    simp only [Instr.substitute, c.substitute_congr hc, b.substitute_congr hb,
      Arm.substituteList_congr es hes, o.substitute_congr ho]
  | .loop p c b =>
    simp only [Instr.uses, List.forall_mem_append] at h
    simp only [Instr.substitute, c.substitute_congr h.1, b.substitute_congr h.2]

theorem Block.substitute_congr {sub sub' : Replacement} (b : Block)
    (h : ∀ u ∈ b.uses, sub u.1 u.2 = sub' u.1 u.2) : b.substitute sub = b.substitute sub' := by
  match b with
  | .absent => rfl
  | .mk p xs =>
    rw [Block.uses] at h
    simp only [Block.substitute, Instr.substituteList_congr xs h]

theorem Instr.substituteList_congr {sub sub' : Replacement} (xs : List Instr)
    (h : ∀ u ∈ Instr.usesList xs, sub u.1 u.2 = sub' u.1 u.2) :
    Instr.substituteList sub xs = Instr.substituteList sub' xs := by
  match xs with
  | [] => rfl
  | x :: xs =>
    simp only [Instr.usesList, List.forall_mem_append] at h
    simp only [Instr.substituteList, x.substitute_congr h.2, Instr.substituteList_congr xs h.1]

theorem Arm.substituteList_congr {sub sub' : Replacement} (es : List Arm)
    (h : ∀ u ∈ Arm.usesList es, sub u.1 u.2 = sub' u.1 u.2) :
    Arm.substituteList sub es = Arm.substituteList sub' es := by
  match es with
  | [] => rfl
  | .mk p c b :: rest =>
    simp only [Arm.usesList, List.forall_mem_append] at h
    simp only [Arm.substituteList, c.substitute_congr h.1.1, b.substitute_congr h.1.2,
      Arm.substituteList_congr rest h.2]

end

/-- Replacements that leave only allowed names where the given names stood. -/
def Replacement.Leaves (sub : Replacement) (allowed : String → Prop) (uses : List (String × Pos)) :
    Prop :=
  ∀ u ∈ uses, match sub u.1 u.2 with
    | none => allowed u.1
    | some xs => Instr.ValidList allowed xs

theorem Replacement.leaves_append {sub : Replacement} {allowed : String → Prop}
    {us vs : List (String × Pos)} :
    sub.Leaves allowed (us ++ vs) ↔ sub.Leaves allowed us ∧ sub.Leaves allowed vs := by
  simp only [Leaves, List.forall_mem_append]

mutual

theorem Instr.valid_substitute {sub : Replacement} {allowed : String → Prop} (x : Instr)
    (leaves : sub.Leaves allowed x.uses) (h : x.Valid fun _ => True) :
    Instr.ValidList allowed (x.substitute sub) := by
  match x with
  | .op p o =>
    cases o with
    | ident name =>
      have hn := leaves (name, p) (by simp [Instr.uses])
      simp only [Instr.substitute]
      cases hs : sub name p with
      | none =>
        rw [hs] at hn
        exact ⟨hn, trivial⟩
      | some xs =>
        rw [hs] at hn
        exact hn
    | _ => exact ⟨h, trivial⟩
  | .branch p c b es o =>
    simp only [Instr.uses, Replacement.leaves_append] at leaves
    obtain ⟨⟨⟨lc, lb⟩, les⟩, lo⟩ := leaves
    obtain ⟨⟨pc, pb⟩, hc, hb, hes, ho⟩ := h
    refine ⟨⟨⟨?_, ?_⟩, ?_⟩, trivial⟩
    · rwa [Block.isPresent_substitute]
    · rwa [Block.isPresent_substitute]
    · exact ⟨c.valid_substitute lc hc, b.valid_substitute lb hb,
        Arm.valid_substituteList es les hes, o.valid_substitute lo ho⟩
  | .loop p c b =>
    simp only [Instr.uses, Replacement.leaves_append] at leaves
    obtain ⟨⟨pc, pb⟩, hc, hb⟩ := h
    refine ⟨⟨⟨?_, ?_⟩, ?_⟩, trivial⟩
    · rwa [Block.isPresent_substitute]
    · rwa [Block.isPresent_substitute]
    · exact ⟨c.valid_substitute leaves.1 hc, b.valid_substitute leaves.2 hb⟩

theorem Block.valid_substitute {sub : Replacement} {allowed : String → Prop} (b : Block)
    (leaves : sub.Leaves allowed b.uses) (h : b.Valid fun _ => True) :
    (b.substitute sub).Valid allowed := by
  match b with
  | .absent => trivial
  | .mk p xs =>
    rw [Block.uses] at leaves
    exact Instr.valid_substituteList xs leaves h

theorem Instr.valid_substituteList {sub : Replacement} {allowed : String → Prop}
    (xs : List Instr) (leaves : sub.Leaves allowed (Instr.usesList xs))
    (h : Instr.ValidList (fun _ => True) xs) :
    Instr.ValidList allowed (Instr.substituteList sub xs) := by
  match xs with
  | [] => trivial
  | x :: xs =>
    simp only [Instr.usesList, Replacement.leaves_append] at leaves
    rw [Instr.substituteList, Instr.validList_append]
    exact ⟨x.valid_substitute leaves.2 h.1, Instr.valid_substituteList xs leaves.1 h.2⟩

theorem Arm.valid_substituteList {sub : Replacement} {allowed : String → Prop} (es : List Arm)
    (leaves : sub.Leaves allowed (Arm.usesList es)) (h : Arm.ValidList (fun _ => True) es) :
    Arm.ValidList allowed (Arm.substituteList sub es) := by
  match es with
  | [] => trivial
  | .mk p c b :: rest =>
    simp only [Arm.usesList, Replacement.leaves_append] at leaves
    exact ⟨⟨c.valid_substitute leaves.1.1 h.1.1, b.valid_substitute leaves.1.2 h.1.2⟩,
      Arm.valid_substituteList rest leaves.2 h.2⟩

end

end StackLang
