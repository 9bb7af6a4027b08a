import StackLang.Proofs.Comments
import StackLang.Proofs.Listing
import StackLang.Proofs.Source.Lexing
import StackLang.Proofs.Target.Mangling
/-!
What the tree of a program tells. Two programs read from source texts of one file have the same
tree exactly when they differ in nothing but the places of names and of blocks, which trees leave
out.
-/

namespace StackLang

/-! ### Trees -/

/-- The value of the first field of a name. -/
def fieldValue? (key : String) : List TreeField → Option Tree
  | [] => none
  | .mk k v :: rest => if k = key then some v else fieldValue? key rest

/-- Trees that are the same but for the order of the fields in their records. -/
inductive Tree.Same : Tree → Tree → Prop
  | text {s : String} : Same (.text s) (.text s)
  | number {n : Int} : Same (.number n) (.number n)
  | list {xs ys : List Tree} : List.Forall₂ Same xs ys → Same (.list xs) (.list ys)
  | record {fs gs : List TreeField} :
      (∀ key, Option.Rel Same (fieldValue? key fs) (fieldValue? key gs)) →
      Same (.record fs) (.record gs)

/-- Fields with the same values under all names. -/
def SameFields (fs gs : List TreeField) : Prop :=
  ∀ key, Option.Rel Tree.Same (fieldValue? key fs) (fieldValue? key gs)

mutual

theorem Tree.same_refl (t : Tree) : t.Same t := by
  match t with
  | .text s => exact .text
  | .number n => exact .number
  | .list items => exact .list (Tree.sameList_refl items)
  | .record fields => exact .record (sameFields_refl fields)

theorem Tree.sameList_refl (items : List Tree) : List.Forall₂ Tree.Same items items := by
  match items with
  | [] => exact .nil
  | x :: xs => exact .cons x.same_refl (Tree.sameList_refl xs)

theorem sameFields_refl (fields : List TreeField) : SameFields fields fields := by
  match fields with
  | [] => exact fun _ => .none
  | .mk k v :: rest =>
    intro key
    rw [fieldValue?]
    split
    · exact .some v.same_refl
    · exact sameFields_refl rest key

end

theorem Tree.same_text {a b : String} : (Tree.text a).Same (.text b) ↔ a = b := by
  constructor
  · rintro ⟨⟩
    rfl
  · rintro rfl
    exact .text

theorem Tree.same_number {a b : Int} : (Tree.number a).Same (.number b) ↔ a = b := by
  constructor
  · rintro ⟨⟩
    rfl
  · rintro rfl
    exact .number

theorem Tree.same_list {xs ys : List Tree} :
    (Tree.list xs).Same (.list ys) ↔ List.Forall₂ Tree.Same xs ys := by
  constructor
  · rintro ⟨⟩
    assumption
  · exact .list

theorem Tree.same_record {fs gs : List TreeField} :
    (Tree.record fs).Same (.record gs) ↔ SameFields fs gs := by
  constructor
  · rintro ⟨⟩
    assumption
  · exact .record

/-- The values of a field that both sides have. -/
theorem SameFields.value {fs gs : List TreeField} {v v' : Tree} (h : SameFields fs gs)
    (key : String) (hv : fieldValue? key fs = some v) (hv' : fieldValue? key gs = some v') :
    v.Same v' := by
  have values := h key
  rw [hv, hv'] at values
  cases values
  assumption

theorem SameFields.text {fs gs : List TreeField} {a b : String} (h : SameFields fs gs)
    (key : String) (ha : fieldValue? key fs = some (.text a))
    (hb : fieldValue? key gs = some (.text b)) : a = b :=
  Tree.same_text.mp (h.value key ha hb)

theorem SameFields.number {fs gs : List TreeField} {a b : Int} (h : SameFields fs gs)
    (key : String) (ha : fieldValue? key fs = some (.number a))
    (hb : fieldValue? key gs = some (.number b)) : a = b :=
  Tree.same_number.mp (h.value key ha hb)

theorem SameFields.list {fs gs : List TreeField} {xs ys : List Tree} (h : SameFields fs gs)
    (key : String) (hx : fieldValue? key fs = some (.list xs))
    (hy : fieldValue? key gs = some (.list ys)) : List.Forall₂ Tree.Same xs ys :=
  Tree.same_list.mp (h.value key hx hy)

/-! ### Places and instructions without parts -/

theorem Operator.text_injective : Function.Injective Operator.text := by
  intro a b h
  revert h
  cases a <;> cases b <;> decide

theorem colon_not_mem_repr (n : Nat) : ':' ∉ n.repr.toList := by
  intro mem
  exact absurd (Target.isSymbolChar_repr mem) (by decide)

/-- In one file, a place is known by its text. -/
theorem Pos.eq_of_text {p q : Pos} (file : p.file = q.file) (h : p.text = q.text) : p = q := by
  obtain ⟨f, line, col⟩ := p
  obtain ⟨_, line', col'⟩ := q
  cases file
  have spot : toString line ++ ":" ++ toString col = toString line' ++ ":" ++ toString col' := by
    unfold Pos.text at h
    dsimp only at h
    split at h
    next => exact h
    next => simpa [String.append_assoc] using h
  have chars := congrArg String.toList spot
  simp only [String.toList_append, String.reduceToList, List.append_assoc,
    List.singleton_append] at chars
  obtain ⟨lines, _, cols⟩ := (List.append_cons_inj_of_notMem (colon_not_mem_repr line)
    (colon_not_mem_repr col)).mp chars
  cases Target.natRepr_injective (String.toList_injective lines)
  cases Target.natRepr_injective (String.toList_injective cols)
  rfl

/-- Operators that the language has, and not some other token. -/
def Op.Proper : Op → Prop
  | .binary t => ∃ o, t = .operator o
  | _ => True

/-- Conditionals and loops have words of their own. -/
theorem Op.kind_ne (o : Op) : o.kind ≠ "If" ∧ o.kind ≠ "While" := by
  cases o <;> simp [Op.kind]

/-- An instruction without parts is known by its fields. -/
theorem Op.eq_of_sameFields {o o' : Op} {place place' : String} (ho : o.Proper) (ho' : o'.Proper)
    (h : SameFields (textField "pos" place :: o.fields) (textField "pos" place' :: o'.fields)) :
    o = o' := by
  have kinds : o.kind = o'.kind := h.text "type" rfl rfl
  -- different kinds have different words
  cases o <;> cases o' <;>
    first | (simp only [Op.kind, String.reduceEq] at kinds; done) | rfl | skip
  case pushInt.pushInt v v' =>
    exact congrArg Op.pushInt (Int64.toInt_inj.mp (h.number "value" rfl rfl))
  case pushStr.pushStr =>
    cases h.text "value" rfl rfl
    cases h.text "raw" rfl rfl
    rfl
  case binary.binary =>
    obtain ⟨a, rfl⟩ := ho
    obtain ⟨b, rfl⟩ := ho'
    exact congrArg (Op.binary ∘ Token.operator) (Operator.text_injective (h.text "op" rfl rfl))
  case load.load => exact congrArg Op.load (h.number "width" rfl rfl)
  case store.store => exact congrArg Op.store (h.number "width" rfl rfl)
  case syscall.syscall => exact congrArg Op.syscall (h.number "argc" rfl rfl)
  case ident.ident => exact congrArg Op.ident (h.text "name" rfl rfl)

/-! ### What trees leave out -/

mutual

/-- An instruction without the places of its blocks. -/
def Instr.listed : Instr → Instr
  | .op p o => .op p o
  | .branch p c b es o => .branch p c.listed b.listed (Arm.listedList es) o.listed
  | .loop p c b => .loop p c.listed b.listed

/-- A block without its place. An absent block stays absent. -/
def Block.listed : Block → Block
  | .absent => .absent
  | .mk _ xs => .mk .none (Instr.listedList xs)

def Instr.listedList : List Instr → List Instr
  | [] => []
  | x :: xs => x.listed :: Instr.listedList xs

def Arm.listedList : List Arm → List Arm
  | [] => []
  | .mk p c b :: rest => .mk p c.listed b.listed :: Arm.listedList rest

end

/-- A declaration without what trees leave out: its serial number, the place of its name, and the
places of the blocks in its body. -/
def Decl.listed : Decl → Decl
  | .proc r => .proc { r with serial := 0, namePos := .none, body := r.body.listed }
  | .inline r => .inline { r with serial := 0, namePos := .none, body := r.body.listed }
  | .memory m => .memory { m with serial := 0, namePos := .none }

mutual

theorem Instr.tree?_listed (x : Instr) : x.listed.tree? = x.tree? := by
  match x with
  | .op p o => rfl
  | .branch p c b es o =>
    rw [Instr.listed, Instr.tree?, Instr.tree?, c.tree?_listed, b.tree?_listed,
      Arm.treeList?_listed es]
    match o with
    | .absent => rfl
    | .mk q xs => simp only [Block.listed, Instr.treeList?_listed xs]
  | .loop p c b =>
    rw [Instr.listed, Instr.tree?, Instr.tree?, c.tree?_listed, b.tree?_listed]

theorem Block.tree?_listed (b : Block) : b.listed.tree? = b.tree? := by
  match b with
  | .absent => rfl
  | .mk p xs => rw [Block.listed, Block.tree?, Block.tree?, Instr.treeList?_listed xs]

theorem Instr.treeList?_listed (xs : List Instr) :
    Instr.treeList? (Instr.listedList xs) = Instr.treeList? xs := by
  match xs with
  | [] => rfl
  | x :: xs =>
    rw [Instr.listedList, Instr.treeList?, Instr.treeList?, x.tree?_listed,
      Instr.treeList?_listed xs]

theorem Arm.treeList?_listed (es : List Arm) :
    Arm.treeList? (Arm.listedList es) = Arm.treeList? es := by
  match es with
  | [] => rfl
  | .mk p c b :: rest =>
    rw [Arm.listedList, Arm.treeList?, Arm.treeList?, c.tree?_listed, b.tree?_listed,
      Arm.treeList?_listed rest]

end

theorem Decl.tree?_listed (d : Decl) : d.listed.tree? = d.tree? := by
  cases d with
  | memory m => rfl
  | proc r | inline r =>
    have body := r.body.tree?_listed
    simp only [Decl.tree?, Decl.listed, Decl.pos, Decl.kind, Decl.name, Decl.body, body]

/-! ### Parts known by their trees -/

/-- Whether a part stands in the file and, as an instruction without parts, is one that the
language has. -/
def Node.Plain (file : String) : Node → Prop
  | .decl d => d.pos.file = file
  | .block _ => True
  | .instr (.op p o) => p.file = file ∧ o.Proper
  | .instr x => x.pos.file = file
  | .arm (.mk p _ _) => p.file = file

def AllPlain (file : String) (nodes : List Node) : Prop :=
  ∀ n ∈ nodes, n.Plain file

theorem allPlain_cons {file : String} {n : Node} {ns : List Node} :
    AllPlain file (n :: ns) ↔ n.Plain file ∧ AllPlain file ns := by
  simp [AllPlain]

theorem allPlain_append {file : String} {ns ms : List Node} :
    AllPlain file (ns ++ ms) ↔ AllPlain file ns ∧ AllPlain file ms := by
  simp only [AllPlain, List.forall_mem_append]

/-- The field for the further arms of a conditional, which is left out if there are none. -/
def armFields (arms : List Tree) : List TreeField :=
  if arms.isEmpty then [] else [.mk "elifs" (.list arms)]

/-- The fields for the else part of a conditional: none at all if it is absent. -/
def Block.ElseFields (o : Block) (fields : List TreeField) : Prop :=
  (o = .absent ∧ fields = []) ∨ ∃ t, o.tree? = some t ∧ fields = [.mk "else" t]

theorem Instr.tree?_branch {p : Pos} {c b o : Block} {es : List Arm} {t : Tree}
    (h : (Instr.branch p c b es o).tree? = some t) :
    ∃ cond body arms other, c.tree? = some cond ∧ b.tree? = some body ∧
      Arm.treeList? es = some arms ∧ o.ElseFields other ∧
      t = .record (textField "pos" p.text :: textField "type" "If" :: .mk "cond" cond ::
        .mk "body" body :: (armFields arms ++ other)) := by
  rw [Instr.tree?] at h
  obtain ⟨cond, hc, h⟩ := Option.bind_eq_some_iff.mp h
  obtain ⟨body, hb, h⟩ := Option.bind_eq_some_iff.mp h
  obtain ⟨arms, ha, h⟩ := Option.bind_eq_some_iff.mp h
  cases o with
  | absent =>
    cases h
    exact ⟨cond, body, arms, [], hc, hb, ha, .inl ⟨rfl, rfl⟩, rfl⟩
  | mk q xs =>
    obtain ⟨other, ho, h⟩ := Option.bind_eq_some_iff.mp h
    obtain ⟨items, hi, rfl⟩ := Option.map_eq_some_iff.mp ho
    cases h
    have tree : (Block.mk q xs).tree? = some (.list items) := by simp [Block.tree?, hi]
    exact ⟨cond, body, arms, _, hc, hb, ha, .inr ⟨_, tree, rfl⟩, rfl⟩

theorem Instr.tree?_loop {p : Pos} {c b : Block} {t : Tree}
    (h : (Instr.loop p c b).tree? = some t) :
    ∃ cond body, c.tree? = some cond ∧ b.tree? = some body ∧
      t = .record [textField "pos" p.text, textField "type" "While", .mk "cond" cond,
        .mk "body" body] := by
  simp only [Instr.tree?, Option.bind_eq_bind, Option.bind_eq_some_iff, Option.pure_def,
    Option.some.injEq] at h
  obtain ⟨cond, hc, body, hb, rfl⟩ := h
  exact ⟨cond, body, hc, hb, rfl⟩

theorem Arm.treeList?_cons {p : Pos} {c b : Block} {rest : List Arm} {ts : List Tree}
    (h : Arm.treeList? (.mk p c b :: rest) = some ts) :
    ∃ cond body others, c.tree? = some cond ∧ b.tree? = some body ∧
      Arm.treeList? rest = some others ∧
      ts = .record [textField "pos" p.text, .mk "cond" cond, .mk "body" body] :: others := by
  simp only [Arm.treeList?, Option.bind_eq_bind, Option.bind_eq_some_iff, Option.pure_def,
    Option.some.injEq] at h
  obtain ⟨cond, hc, body, hb, others, hr, rfl⟩ := h
  exact ⟨cond, body, others, hc, hb, hr, rfl⟩

theorem Instr.treeList?_cons {x : Instr} {xs : List Instr} {ts : List Tree}
    (h : Instr.treeList? (x :: xs) = some ts) :
    ∃ t others, x.tree? = some t ∧ Instr.treeList? xs = some others ∧ ts = t :: others := by
  simp only [Instr.treeList?, Option.bind_eq_bind, Option.bind_eq_some_iff, Option.pure_def,
    Option.some.injEq] at h
  obtain ⟨t, hx, others, hxs, rfl⟩ := h
  exact ⟨t, others, hx, hxs, rfl⟩

/-- The field of a declaration after its place, kind and name: its size or its body. -/
def Decl.LastField : Decl → TreeField → Prop
  | .memory m, field => field = numberField "size" m.size.toInt
  | d, field => ∃ body, d.body.tree? = some body ∧ field = .mk "body" body

theorem Decl.tree?_record {d : Decl} {t : Tree} (h : d.tree? = some t) :
    ∃ last, d.LastField last ∧ t = .record [textField "pos" d.pos.text, textField "type" d.kind,
      textField "name" d.name, last] := by
  cases d with
  | memory m =>
    cases h
    exact ⟨_, rfl, rfl⟩
  | proc r | inline r =>
    obtain ⟨body, hb, rfl⟩ := Option.map_eq_some_iff.mp h
    exact ⟨_, ⟨body, hb, rfl⟩, rfl⟩

theorem fieldValue?_elifs {o : Block} {other : List TreeField} (ho : o.ElseFields other)
    (arms : List Tree) : fieldValue? "elifs" (armFields arms ++ other) =
      if arms.isEmpty then none else some (.list arms) := by
  rw [armFields]
  split
  · obtain ⟨_, rfl⟩ | ⟨t, _, rfl⟩ := ho <;> rfl
  · rfl

theorem fieldValue?_else (arms : List Tree) (other : List TreeField) :
    fieldValue? "else" (armFields arms ++ other) = fieldValue? "else" other := by
  rw [armFields]
  split <;> rfl

/-- No field for further arms stands for no further arms. -/
theorem sameList_of_elifs {xs ys : List Tree}
    (h : Option.Rel Tree.Same (if xs.isEmpty then none else some (.list xs))
      (if ys.isEmpty then none else some (.list ys))) : List.Forall₂ Tree.Same xs ys := by
  cases xs <;> cases ys <;> cases h
  case nil.nil => exact .nil
  case cons.cons h => exact Tree.same_list.mp h

/-- The trees of two conditionals have all of their parts in common. -/
theorem sameParts_of_branch {o o' : Block} {place place' : String} {cond cond' body body' : Tree}
    {arms arms' : List Tree} {other other' : List TreeField} (ho : o.ElseFields other)
    (ho' : o'.ElseFields other')
    (h : SameFields (textField "pos" place :: textField "type" "If" :: .mk "cond" cond ::
        .mk "body" body :: (armFields arms ++ other))
      (textField "pos" place' :: textField "type" "If" :: .mk "cond" cond' ::
        .mk "body" body' :: (armFields arms' ++ other'))) :
    place = place' ∧ cond.Same cond' ∧ body.Same body' ∧ List.Forall₂ Tree.Same arms arms' ∧
      Option.Rel Tree.Same (fieldValue? "else" other) (fieldValue? "else" other') := by
  refine ⟨h.text "pos" rfl rfl, h.value "cond" rfl rfl, h.value "body" rfl rfl, ?_, ?_⟩
  · have elifs : Option.Rel Tree.Same (fieldValue? "elifs" (armFields arms ++ other))
        (fieldValue? "elifs" (armFields arms' ++ other')) := h "elifs"
    rw [fieldValue?_elifs ho, fieldValue?_elifs ho'] at elifs
    exact sameList_of_elifs elifs
  · have others : Option.Rel Tree.Same (fieldValue? "else" (armFields arms ++ other))
        (fieldValue? "else" (armFields arms' ++ other')) := h "else"
    rwa [fieldValue?_else, fieldValue?_else] at others

theorem mapM_eq_some_nil {α β : Type} {f : α → Option β} {xs : List α}
    (h : xs.mapM f = some []) : xs = [] := by
  cases xs with
  | nil => rfl
  | cons x xs => simp [List.mapM_cons, Option.bind_eq_some_iff] at h

theorem mapM_eq_some_cons {α β : Type} {f : α → Option β} {xs : List α} {y : β} {ys : List β}
    (h : xs.mapM f = some (y :: ys)) :
    ∃ x rest, xs = x :: rest ∧ f x = some y ∧ rest.mapM f = some ys := by
  cases xs with
  | nil => simp at h
  | cons x xs =>
    simp only [List.mapM_cons, Option.bind_eq_bind, Option.bind_eq_some_iff, Option.pure_def,
      Option.some.injEq, List.cons.injEq] at h
    obtain ⟨_, hx, _, hxs, rfl, rfl⟩ := h
    exact ⟨x, xs, rfl, hx, hxs⟩

section

variable {file : String}

mutual

-- The induction follows the first part; the "type" field of its tree forces the shape of the other.
theorem Instr.listed_of_same (x y : Instr) {t u : Tree} (hx : AllPlain file (x.nodes fun _ => true))
    (hy : AllPlain file (y.nodes fun _ => true)) (ht : x.tree? = some t) (hu : y.tree? = some u)
    (h : t.Same u) : x.listed = y.listed := by
  match x, y with
  | .op p o, .op p' o' =>
    cases ht
    cases hu
    have fields := Tree.same_record.mp h
    obtain ⟨hp, ho⟩ := hx (.instr (.op p o)) (by simp [Instr.nodes])
    obtain ⟨hp', ho'⟩ := hy (.instr (.op p' o')) (by simp [Instr.nodes])
    cases Pos.eq_of_text (hp.trans hp'.symm) (fields.text "pos" rfl rfl)
    cases Op.eq_of_sameFields ho ho' fields
    rfl
  | .op p o, .branch p' c b es e =>
    obtain ⟨_, _, _, _, _, _, _, _, rfl⟩ := Instr.tree?_branch hu
    cases ht
    exact absurd ((Tree.same_record.mp h).text "type" rfl rfl) o.kind_ne.1
  | .op p o, .loop p' c b =>
    obtain ⟨_, _, _, _, rfl⟩ := Instr.tree?_loop hu
    cases ht
    exact absurd ((Tree.same_record.mp h).text "type" rfl rfl) o.kind_ne.2
  | .branch p c b es e, .op p' o =>
    obtain ⟨_, _, _, _, _, _, _, _, rfl⟩ := Instr.tree?_branch ht
    cases hu
    exact absurd ((Tree.same_record.mp h).text "type" rfl rfl).symm o.kind_ne.1
  | .branch p c b es e, .loop p' c' b' =>
    obtain ⟨_, _, _, _, _, _, _, _, rfl⟩ := Instr.tree?_branch ht
    obtain ⟨_, _, _, _, rfl⟩ := Instr.tree?_loop hu
    exact absurd ((Tree.same_record.mp h).text "type" rfl rfl) (by decide)
  | .loop p c b, .op p' o =>
    obtain ⟨_, _, _, _, rfl⟩ := Instr.tree?_loop ht
    cases hu
    exact absurd ((Tree.same_record.mp h).text "type" rfl rfl).symm o.kind_ne.2
  | .loop p c b, .branch p' c' b' es e =>
    obtain ⟨_, _, _, _, rfl⟩ := Instr.tree?_loop ht
    obtain ⟨_, _, _, _, _, _, _, _, rfl⟩ := Instr.tree?_branch hu
    exact absurd ((Tree.same_record.mp h).text "type" rfl rfl) (by decide)
  | .branch p c b es e, .branch p' c' b' es' e' =>
    obtain ⟨cond, body, arms, other, hc, hb, ha, ho, rfl⟩ := Instr.tree?_branch ht
    obtain ⟨cond', body', arms', other', hc', hb', ha', ho', rfl⟩ := Instr.tree?_branch hu
    obtain ⟨places, conds, bodies, elifs, others⟩ :=
      sameParts_of_branch ho ho' (Tree.same_record.mp h)
    rw [Instr.nodes, if_pos rfl, allPlain_cons, allPlain_append, allPlain_append,
      allPlain_append] at hx hy
    obtain ⟨file₁, ⟨⟨hc₁, hb₁⟩, ha₁⟩, he₁⟩ := hx
    obtain ⟨file₂, ⟨⟨hc₂, hb₂⟩, ha₂⟩, he₂⟩ := hy
    cases Pos.eq_of_text (file₁.trans file₂.symm) places
    have elses : e.listed = e'.listed := by
      obtain ⟨rfl, rfl⟩ | ⟨_, he, rfl⟩ := ho <;> obtain ⟨rfl, rfl⟩ | ⟨_, he', rfl⟩ := ho'
      · rfl
      · cases others
      · cases others
      · cases others with
        | some same => exact e.listed_of_same e' he₁ he₂ he he' same
    rw [Instr.listed, Instr.listed, c.listed_of_same c' hc₁ hc₂ hc hc' conds,
      b.listed_of_same b' hb₁ hb₂ hb hb' bodies,
      Arm.listedList_of_same es es' ha₁ ha₂ ha ha' elifs, elses]
  | .loop p c b, .loop p' c' b' =>
    obtain ⟨cond, body, hc, hb, rfl⟩ := Instr.tree?_loop ht
    obtain ⟨cond', body', hc', hb', rfl⟩ := Instr.tree?_loop hu
    have fields := Tree.same_record.mp h
    rw [Instr.nodes, if_pos rfl, allPlain_cons, allPlain_append] at hx hy
    obtain ⟨file₁, hc₁, hb₁⟩ := hx
    obtain ⟨file₂, hc₂, hb₂⟩ := hy
    cases Pos.eq_of_text (file₁.trans file₂.symm) (fields.text "pos" rfl rfl)
    rw [Instr.listed, Instr.listed,
      c.listed_of_same c' hc₁ hc₂ hc hc' (fields.value "cond" rfl rfl),
      b.listed_of_same b' hb₁ hb₂ hb hb' (fields.value "body" rfl rfl)]
termination_by structural x

theorem Block.listed_of_same (b c : Block) {t u : Tree} (hb : AllPlain file (b.nodes fun _ => true))
    (hc : AllPlain file (c.nodes fun _ => true)) (ht : b.tree? = some t) (hu : c.tree? = some u)
    (h : t.Same u) : b.listed = c.listed := by
  match b, c with
  | .mk p xs, .mk q ys =>
    obtain ⟨ts, hts, rfl⟩ := Option.map_eq_some_iff.mp ht
    obtain ⟨us, hus, rfl⟩ := Option.map_eq_some_iff.mp hu
    rw [Block.nodes, if_pos rfl, allPlain_cons] at hb hc
    rw [Block.listed, Block.listed,
      Instr.listedList_of_same xs ys hb.2 hc.2 hts hus (Tree.same_list.mp h)]
termination_by structural b

theorem Instr.listedList_of_same (xs ys : List Instr) {ts us : List Tree}
    (hx : AllPlain file (Instr.nodesList (fun _ => true) xs))
    (hy : AllPlain file (Instr.nodesList (fun _ => true) ys)) (ht : Instr.treeList? xs = some ts)
    (hu : Instr.treeList? ys = some us) (h : List.Forall₂ Tree.Same ts us) :
    Instr.listedList xs = Instr.listedList ys := by
  match xs, ys with
  | [], [] => rfl
  | [], y :: ys =>
    cases ht
    obtain ⟨_, _, _, _, rfl⟩ := Instr.treeList?_cons hu
    cases h
  | x :: xs, [] =>
    cases hu
    obtain ⟨_, _, _, _, rfl⟩ := Instr.treeList?_cons ht
    cases h
  | x :: xs, y :: ys =>
    obtain ⟨t, ts, hx', hxs', rfl⟩ := Instr.treeList?_cons ht
    obtain ⟨u, us, hy', hys', rfl⟩ := Instr.treeList?_cons hu
    obtain ⟨first, rest⟩ := List.forall₂_cons.mp h
    rw [Instr.nodesList, allPlain_append] at hx hy
    rw [Instr.listedList, Instr.listedList, x.listed_of_same y hx.1 hy.1 hx' hy' first,
      Instr.listedList_of_same xs ys hx.2 hy.2 hxs' hys' rest]
termination_by structural xs

theorem Arm.listedList_of_same (es fs : List Arm) {ts us : List Tree}
    (hx : AllPlain file (Arm.nodesList (fun _ => true) es))
    (hy : AllPlain file (Arm.nodesList (fun _ => true) fs)) (ht : Arm.treeList? es = some ts)
    (hu : Arm.treeList? fs = some us) (h : List.Forall₂ Tree.Same ts us) :
    Arm.listedList es = Arm.listedList fs := by
  match es, fs with
  | [], [] => rfl
  | [], .mk p c b :: fs =>
    cases ht
    obtain ⟨_, _, _, _, _, _, rfl⟩ := Arm.treeList?_cons hu
    cases h
  | .mk p c b :: es, [] =>
    cases hu
    obtain ⟨_, _, _, _, _, _, rfl⟩ := Arm.treeList?_cons ht
    cases h
  | .mk p c b :: es, .mk p' c' b' :: fs =>
    obtain ⟨cond, body, ts, hc, hb, hr, rfl⟩ := Arm.treeList?_cons ht
    obtain ⟨cond', body', us, hc', hb', hr', rfl⟩ := Arm.treeList?_cons hu
    obtain ⟨first, rest⟩ := List.forall₂_cons.mp h
    have fields := Tree.same_record.mp first
    rw [Arm.nodesList, if_pos rfl, allPlain_cons, allPlain_append, allPlain_append] at hx hy
    obtain ⟨file₁, ⟨hc₁, hb₁⟩, hr₁⟩ := hx
    obtain ⟨file₂, ⟨hc₂, hb₂⟩, hr₂⟩ := hy
    cases Pos.eq_of_text (file₁.trans file₂.symm) (fields.text "pos" rfl rfl)
    rw [Arm.listedList, Arm.listedList,
      c.listed_of_same c' hc₁ hc₂ hc hc' (fields.value "cond" rfl rfl),
      b.listed_of_same b' hb₁ hb₂ hb hb' (fields.value "body" rfl rfl),
      Arm.listedList_of_same es fs hr₁ hr₂ hr hr' rest]
termination_by structural es

end

theorem Decl.listed_of_same {d e : Decl} {t u : Tree} (hd : AllPlain file (d.nodes fun _ => true))
    (he : AllPlain file (e.nodes fun _ => true)) (ht : d.tree? = some t) (hu : e.tree? = some u)
    (h : t.Same u) : d.listed = e.listed := by
  obtain ⟨last, hl, rfl⟩ := Decl.tree?_record ht
  obtain ⟨last', hl', rfl⟩ := Decl.tree?_record hu
  have fields := Tree.same_record.mp h
  have kinds : d.kind = e.kind := fields.text "type" rfl rfl
  have names : d.name = e.name := fields.text "name" rfl rfl
  rw [Decl.nodes, if_pos rfl, allPlain_cons] at hd he
  have places : d.pos = e.pos :=
    Pos.eq_of_text (hd.1.trans he.1.symm) (fields.text "pos" rfl rfl)
  have bodies {body body' : Tree} (hb : d.body.tree? = some body ∧ last = .mk "body" body)
      (hb' : e.body.tree? = some body' ∧ last' = .mk "body" body') :
      d.body.listed = e.body.listed := by
    obtain ⟨hb, rfl⟩ := hb
    obtain ⟨hb', rfl⟩ := hb'
    exact d.body.listed_of_same e.body hd.2 he.2 hb hb' (fields.value "body" rfl rfl)
  cases d <;> cases e <;> first | (simp [Decl.kind] at kinds; done) | skip
  case proc.proc r r' =>
    obtain ⟨_, hb⟩ := hl
    obtain ⟨_, hb'⟩ := hl'
    have body := bodies hb hb'
    simp_all only [Decl.listed, Decl.name, Decl.pos, Decl.body]
  case inline.inline r r' =>
    obtain ⟨_, hb⟩ := hl
    obtain ⟨_, hb'⟩ := hl'
    have body := bodies hb hb'
    simp_all only [Decl.listed, Decl.name, Decl.pos, Decl.body]
  case memory.memory m m' =>
    cases hl
    cases hl'
    have sizes := Int64.toInt_inj.mp (fields.number "size" rfl rfl)
    simp_all only [Decl.listed, Decl.name, Decl.pos]

theorem mapM_tree?_eq_listed (ds : List Decl) :
    ds.mapM Decl.tree? = (ds.map Decl.listed).mapM Decl.tree? := by
  induction ds with
  | nil => rfl
  | cons d ds ih => rw [List.map_cons, List.mapM_cons, List.mapM_cons, d.tree?_listed, ih]

theorem Program.tree?_of_decls {p : Program} {ts : List Tree}
    (h : p.decls.mapM Decl.tree? = some ts) : ∃ t, p.tree? = some t ∧
      t = .record [textField "type" "Program", textField "file" p.file,
        .mk "decls" (.list ts)] := by
  rw [Program.tree?, h]
  exact ⟨_, rfl, rfl⟩

theorem listedDecls_of_same {ds es : List Decl} {ts us : List Tree}
    (hd : ∀ d ∈ ds, AllPlain file (d.nodes fun _ => true))
    (he : ∀ e ∈ es, AllPlain file (e.nodes fun _ => true)) (ht : ds.mapM Decl.tree? = some ts)
    (hu : es.mapM Decl.tree? = some us) (h : List.Forall₂ Tree.Same ts us) :
    ds.map Decl.listed = es.map Decl.listed := by
  induction h generalizing ds es with
  | nil =>
    cases mapM_eq_some_nil ht
    cases mapM_eq_some_nil hu
    rfl
  | cons first _ ih =>
    obtain ⟨d, ds, rfl, hd', ht⟩ := mapM_eq_some_cons ht
    obtain ⟨e, es, rfl, he', hu⟩ := mapM_eq_some_cons hu
    rw [List.forall_mem_cons] at hd he
    rw [List.map_cons, List.map_cons, Decl.listed_of_same hd.1 he.1 hd' he' first,
      ih hd.2 he.2 ht hu]

end

/-! ### Programs that are read from source texts -/

namespace Source

variable {file : String}

theorem allPlain_block {pos : Pos} {xs : List Instr} :
    AllPlain file ((Block.mk pos xs).nodes fun _ => true) ↔
      AllPlain file (Part.block xs).nodes := by
  rw [Block.nodes, if_pos rfl, allPlain_cons]
  exact and_iff_right trivial

theorem Op.SpelledBy.proper {o : Op} {l : Lexeme} (h : o.SpelledBy l) : o.Proper := by
  cases o <;> first | trivial | exact h.2

theorem Spells.plain_nodes {n : Nat} {part : Part} {ts : List Lexeme} (h : Spells n part ts)
    (places : ∀ l ∈ ts, l.pos.file = file) : AllPlain file part.nodes := by
  induction h with
  | nil => simp [Part.nodes, Instr.nodesList, AllPlain]
  | cons _ _ hx hxs =>
    rw [List.forall_mem_append] at places
    rw [Part.nodes, Instr.nodesList, allPlain_append]
    exact ⟨hx places.1, hxs places.2⟩
  | plain ho =>
    rw [List.forall_mem_singleton] at places
    rw [Part.nodes, Instr.nodes, allPlain_cons]
    exact ⟨⟨places, Op.SpelledBy.proper ho⟩, by simp [AllPlain]⟩
  | branch _ _ _ _ _ hc hb ht =>
    simp only [List.forall_mem_append, List.forall_mem_cons] at places
    obtain ⟨⟨⟨opening, cs⟩, _, bs⟩, ts⟩ := places
    rw [Part.nodes, Instr.nodes, if_pos rfl, allPlain_cons, List.append_assoc, allPlain_append,
      allPlain_append, allPlain_block, allPlain_block]
    exact ⟨opening, ⟨hc cs, hb bs⟩, ht ts⟩
  | loop _ _ _ _ _ hc hb =>
    simp only [List.forall_mem_append, List.forall_mem_cons] at places
    obtain ⟨⟨⟨opening, cs⟩, _, bs⟩, _⟩ := places
    rw [Part.nodes, Instr.nodes, if_pos rfl, allPlain_cons, allPlain_append, allPlain_block,
      allPlain_block]
    exact ⟨opening, hc cs, hb bs⟩
  | close _ => simp [Part.nodes, Arm.nodesList, Block.nodes, AllPlain]
  | otherwise _ _ _ hb =>
    simp only [List.forall_mem_append, List.forall_mem_cons] at places
    exact allPlain_block.mpr (hb places.1.2)
  | arm _ _ _ _ _ hc hb ht =>
    simp only [List.forall_mem_append, List.forall_mem_cons] at places
    obtain ⟨⟨⟨opening, cs⟩, _, bs⟩, ts⟩ := places
    rw [Part.nodes, Arm.nodesList, if_pos rfl, List.cons_append, List.append_assoc, allPlain_cons,
      allPlain_append, allPlain_append, allPlain_block, allPlain_block]
    exact ⟨opening, ⟨hc cs, hb bs⟩, ht ts⟩

theorem plain_returning {closing : Pos} {xs : List Instr} (place : closing.file = file)
    (h : AllPlain file (Part.block xs).nodes) :
    AllPlain file (Part.block (returning closing xs)).nodes := by
  rcases nodes_returning closing xs with same | added
  · rwa [same]
  · rw [added, allPlain_append]
    refine ⟨h, ?_⟩
    rw [allPlain_cons]
    exact ⟨⟨place, trivial⟩, by simp [AllPlain]⟩

theorem DeclText.plain_nodes {d : Decl} {ts : List Lexeme} (h : DeclText d ts)
    (places : ∀ l ∈ ts, l.pos.file = file) : AllPlain file (d.nodes fun _ => true) := by
  rw [Decl.nodes, if_pos rfl, allPlain_cons]
  cases h with
  | proc _ _ _ hb _ =>
    simp only [List.forall_mem_append, List.forall_mem_cons] at places
    obtain ⟨⟨word, _, _, body⟩, closing, _⟩ := places
    exact ⟨word, allPlain_block.mpr (plain_returning closing (hb.plain_nodes body))⟩
  | inline _ _ _ hb _ =>
    simp only [List.forall_mem_append, List.forall_mem_cons] at places
    obtain ⟨⟨⟨word, _⟩, body⟩, _⟩ := places
    exact ⟨word, allPlain_block.mpr (hb.plain_nodes body)⟩
  | memory => exact ⟨places _ (by simp), by simp [Decl.body, Block.nodes, AllPlain]⟩

theorem DeclsText.plain_nodes {ds : List Decl} {ts : List Lexeme} (h : DeclsText ds ts)
    (places : ∀ l ∈ ts, l.pos.file = file) : ∀ d ∈ ds, AllPlain file (d.nodes fun _ => true) := by
  induction h with
  | nil => simp
  | snoc _ hd ih =>
    rw [List.forall_mem_append] at places
    refine List.forall_mem_append.mpr ⟨ih places.1, ?_⟩
    rw [List.forall_mem_singleton]
    exact hd.plain_nodes places.2

/-- A program from a source text has a tree, and all of it stands in the file. -/
theorem parse_listed {bytes : List UInt8} {p : Program} (h : parse file bytes = .ok p) :
    p.file = file ∧ (∃ ts, p.decls.mapM Decl.tree? = some ts) ∧
      ∀ d ∈ p.decls, AllPlain file (d.nodes fun _ => true) := by
  obtain ⟨tokens, ht, hp⟩ := bind_eq_ok.mp h
  have text := (parsed_reads hp).2
  have places : ∀ l ∈ tokens, l.pos.file = file := by
    intro l hl
    obtain ⟨_, _, _, place⟩ := laid_pos_after (tokenize_laid ht).1 l hl
    rw [place]
    rfl
  have trees : (p.decls.mapM Decl.tree?).isSome := by
    rw [isSome_mapM_iff]
    exact fun d hd => d.isSome_tree?.mpr (text.whole d hd)
  refine ⟨parsed_file hp, Option.isSome_iff_exists.mp trees, text.plain_nodes fun l hl => ?_⟩
  exact places l ((List.takeWhile_sublist _).subset hl)

/-- The trees of the programs that texts of a file have. -/
def Trees (file : String) : Set Tree :=
  {t | ∃ bytes p, parse file bytes = .ok p ∧ p.tree? = some t}

/-- The structured listings of a program tell all of it but the places of names and of blocks. Two
programs from texts of one file have trees, and the trees are the same, but for the order of
fields, exactly when the programs have the same declarations up to those places. So it is with the
listings in any format that keeps apart the trees of programs. -/
theorem tree_determines_program {bytes bytes' : List UInt8} {p q : Program}
    (hp : parse file bytes = .ok p) (hq : parse file bytes' = .ok q) :
    ∃ t u, p.tree? = some t ∧ q.tree? = some u ∧
      (t.Same u ↔ p.decls.map Decl.listed = q.decls.map Decl.listed) ∧
      ∀ (β : Type) (encode : Tree → β),
        (∀ a ∈ Trees file, ∀ b ∈ Trees file, encode a = encode b → a.Same b) →
        (encode t = encode u ↔ p.decls.map Decl.listed = q.decls.map Decl.listed) := by
  obtain ⟨filep, ⟨ts, hts⟩, plainp⟩ := parse_listed hp
  obtain ⟨fileq, ⟨us, hus⟩, plainq⟩ := parse_listed hq
  obtain ⟨t, tree, fields⟩ := Program.tree?_of_decls hts
  obtain ⟨u, tree', fields'⟩ := Program.tree?_of_decls hus
  have told (h : t.Same u) : p.decls.map Decl.listed = q.decls.map Decl.listed := by
    rw [fields, fields'] at h
    have items := (Tree.same_record.mp h).list "decls" rfl rfl
    exact listedDecls_of_same plainp plainq hts hus items
  have equal (h : p.decls.map Decl.listed = q.decls.map Decl.listed) : t = u := by
    have items : some ts = some us := by
      rw [← hts, ← hus, mapM_tree?_eq_listed, h, ← mapM_tree?_eq_listed]
    cases items
    rw [fields, fields', filep, fileq]
  refine ⟨t, u, tree, tree', ⟨told, fun h => equal h ▸ t.same_refl⟩, ?_⟩
  intro β encode apart
  refine ⟨fun h => told ?_, fun h => congrArg encode (equal h)⟩
  exact apart t ⟨_, p, hp, tree⟩ u ⟨_, q, hq, tree'⟩ h

/-- Source texts that differ in the place of a name and of a word that opens a block. -/
def spread : List UInt8 :=
  Text.bytesOf "proc main  do if do  else end end"

@[inherit_doc spread]
def spreadElsewhere : List UInt8 :=
  Text.bytesOf "proc  main do if  do else end end"

/-- The same text with no else part in the place of the empty one. -/
def spreadOpen : List UInt8 :=
  Text.bytesOf "proc main  do if do       end end"

theorem spread_determined : ∃ p q r t u v, parse "f" spread = .ok p ∧
    parse "f" spreadElsewhere = .ok q ∧ parse "f" spreadOpen = .ok r ∧
    p.decls.map Decl.namePos ≠ q.decls.map Decl.namePos ∧
    p.tree? = some t ∧ q.tree? = some u ∧ r.tree? = some v ∧ t.Same u ∧ ¬ t.Same v := by
  obtain ⟨p, hp⟩ : ∃ p, parse "f" spread = .ok p := ⟨_, rfl⟩
  obtain ⟨q, hq⟩ : ∃ q, parse "f" spreadElsewhere = .ok q := ⟨_, rfl⟩
  obtain ⟨r, hr⟩ : ∃ r, parse "f" spreadOpen = .ok r := ⟨_, rfl⟩
  obtain ⟨t, u, ht, hu, same, _⟩ := tree_determines_program hp hq
  obtain ⟨t', v, ht', hv, apart, _⟩ := tree_determines_program hp hr
  cases ht.symm.trans ht'
  have moved : (parse "f" spread).map (·.decls.map Decl.namePos) ≠
      (parse "f" spreadElsewhere).map (·.decls.map Decl.namePos) := by decide +kernel
  have listed : (parse "f" spread).map (·.decls.map Decl.listed) =
      (parse "f" spreadElsewhere).map (·.decls.map Decl.listed) := by decide +kernel
  have parts : (parse "f" spread).map (·.decls.map fun d => (d.listed.nodes fun _ => true).length) ≠
      (parse "f" spreadOpen).map (·.decls.map fun d => (d.listed.nodes fun _ => true).length) := by
    decide +kernel
  simp only [hp, hq, hr, Except.map, ne_eq, Except.ok.injEq] at moved listed parts
  refine ⟨p, q, r, t, u, v, hp, hq, hr, moved, ht, hu, hv, same.mpr listed, fun h => parts ?_⟩
  have counts := congrArg (List.map fun d => (d.nodes fun _ => true).length) (apart.mp h)
  rwa [List.map_map, List.map_map] at counts

end Source

end StackLang
