import StackLang.Proofs.Machine.Execution
import StackLang.Proofs.Target.Mangling
/-!
Which symbols lines define and which they mention. A symbol that begins with a dot is local: it
belongs to the last symbol before it that does not begin with one.
-/

namespace StackLang.Target

/-- Whether a name is local to another one. -/
def isLocalName (name : String) : Bool :=
  name.toList.head? = some '.'

def Symbol.isLocal (s : Symbol) : Bool :=
  isLocalName s.text

theorem Symbol.isLocal_eq (s : Symbol) : s.isLocal = match s with
    | .digits | .write | .label _ => true
    | _ => false := by
  cases s with
  | notice n | noticeLength n => cases n <;> rfl
  | proc | memory | string | label =>
    simp [isLocal, isLocalName, Symbol.text, procSymbol, memorySymbol, stringLabelText, labelText]
  | _ => rfl

/-- Symbols that are not local are made of letters, digits and underscores. -/
theorem Symbol.isSymbolChar_text {s : Symbol} (far : s.isLocal = false) :
    ∀ c ∈ s.text.toList, isSymbolChar c = true := by
  have fixed {t : String} (all : t.toList.all isSymbolChar = true) :
      ∀ c ∈ t.toList, isSymbolChar c = true := List.all_eq_true.mp all
  cases s with
  | notice n | noticeLength n => cases n <;> exact fixed (by decide)
  | proc name =>
    rw [Symbol.text, procSymbol, String.toList_append, List.forall_mem_append]
    exact ⟨fixed (by decide), fun c hc => isSymbolChar_mangle hc⟩
  | memory name =>
    rw [Symbol.text, memorySymbol, String.toList_append, List.forall_mem_append]
    exact ⟨fixed (by decide), fun c hc => isSymbolChar_mangle hc⟩
  | string i =>
    have spelled : (Symbol.string i).text = "str_" ++ i.repr := rfl
    rw [spelled, String.toList_append, List.forall_mem_append]
    exact ⟨fixed (by decide), fun c hc => isSymbolChar_repr hc⟩
  | digits | write => cases far
  | label k => simp [Symbol.isLocal_eq] at far
  | _ => exact fixed (by decide)

/-- The symbol that a line defines. -/
def Line.defines? : Line → Option Symbol
  | .label s | .reserve s _ | .word s | .words s _ | .data s _ _ | .length s _ => some s
  | _ => none

def Address.mentions : Address → List Symbol
  | .symbol s | .symbolSlot s _ => [s]
  | _ => []

def Operand.mentions : Operand → List Symbol
  | .symbol s => [s]
  | .mem a | .sized _ a => a.mentions
  | _ => []

def Inst.mentions : Inst → List Symbol
  | .binary _ target source => target.mentions ++ source.mentions
  | .push source => source.mentions
  | .lea _ a => a.mentions
  | .leaRel _ s | .jump s | .jumpIf _ s | .call s => [s]
  | .unary .. | .nullary _ | .set .. | .jumpReg _ => []

/-- The symbols that a line names without defining them. -/
def Line.mentions : Line → List Symbol
  | .inst i => i.mentions
  | .global s | .length _ s => [s]
  | _ => []

def definitions (lines : List Line) : List Symbol :=
  lines.filterMap Line.defines?

def mentions (lines : List Line) : List Symbol :=
  lines.flatMap Line.mentions

@[simp] theorem definitions_append (first second : List Line) :
    definitions (first ++ second) = definitions first ++ definitions second :=
  List.filterMap_append

@[simp] theorem mentions_append (first second : List Line) :
    mentions (first ++ second) = mentions first ++ mentions second :=
  List.flatMap_append

@[simp] theorem definitions_label (s : Symbol) (rest : List Line) :
    definitions (.label s :: rest) = s :: definitions rest := rfl

@[simp] theorem definitions_blank (rest : List Line) :
    definitions (.blank :: rest) = definitions rest := rfl

@[simp] theorem mentions_label (s : Symbol) (rest : List Line) :
    mentions (.label s :: rest) = mentions rest := rfl

@[simp] theorem mentions_blank (rest : List Line) :
    mentions (.blank :: rest) = mentions rest := rfl

theorem mem_definitions {lines : List Line} {s : Symbol} :
    s ∈ definitions lines ↔ ∃ l ∈ lines, l.defines? = some s :=
  List.mem_filterMap

theorem mem_mentions {lines : List Line} {s : Symbol} :
    s ∈ mentions lines ↔ ∃ l ∈ lines, s ∈ l.mentions :=
  List.mem_flatMap

/-! ### Local symbols -/

/-- The symbol to which local symbols belong from a line on, if they belonged to `owner` before. -/
def Line.ownerFrom (owner : Option Symbol) (l : Line) : Option Symbol :=
  match l.defines? with
  | some s => if s.isLocal then owner else some s
  | none => owner

/-- Each line with the symbol to which the local symbols on it belong. -/
def withOwners (owner : Option Symbol) : List Line → List (Option Symbol × Line)
  | [] => []
  | l :: rest => (l.ownerFrom owner, l) :: withOwners (l.ownerFrom owner) rest

/-- Wherever the lines stand, each local symbol that they mention is defined among them, and belongs
to the same symbol there. -/
def Settled (lines : List Line) : Prop :=
  ∀ owner, ∀ e ∈ withOwners owner lines, ∀ s ∈ e.2.mentions, s.isLocal = true →
    ∃ l, (e.1, l) ∈ withOwners owner lines ∧ l.defines? = some s

theorem withOwners_append (owner : Option Symbol) (first second : List Line) :
    withOwners owner (first ++ second) =
      withOwners owner first ++ withOwners (first.foldl Line.ownerFrom owner) second := by
  induction first generalizing owner with
  | nil => rfl
  | cons l rest ih => simp [withOwners, ih]

theorem mem_of_withOwners {owner : Option Symbol} {lines : List Line} {e : Option Symbol × Line}
    (h : e ∈ withOwners owner lines) : e.2 ∈ lines := by
  induction lines generalizing owner with
  | nil => cases h
  | cons l rest ih =>
    rcases List.mem_cons.mp h with rfl | h
    · exact List.mem_cons_self
    · exact List.mem_cons_of_mem _ (ih h)

theorem Settled.append {first second : List Line} (h : Settled first) (h' : Settled second) :
    Settled (first ++ second) := by
  intro owner e he s hs localSymbol
  rw [withOwners_append] at he ⊢
  rcases List.mem_append.mp he with he | he
  · obtain ⟨l, hl, hd⟩ := h owner e he s hs localSymbol
    exact ⟨l, List.mem_append_left _ hl, hd⟩
  · obtain ⟨l, hl, hd⟩ := h' _ e he s hs localSymbol
    exact ⟨l, List.mem_append_right _ hl, hd⟩

theorem settled_of_mentions {lines : List Line}
    (h : ∀ s ∈ mentions lines, s.isLocal = false) : Settled lines := by
  intro owner e he s hs localSymbol
  have other := h s (mem_mentions.mpr ⟨e.2, mem_of_withOwners he, hs⟩)
  rw [other] at localSymbol
  cases localSymbol

theorem withOwners_of_local {lines : List Line} (h : ∀ s ∈ definitions lines, s.isLocal = true)
    (owner : Option Symbol) : withOwners owner lines = lines.map fun l => (owner, l) := by
  induction lines generalizing owner with
  | nil => rfl
  | cons l rest ih =>
    have here : l.ownerFrom owner = owner := by
      unfold Line.ownerFrom
      split
      next s hs => rw [if_pos (h s (mem_definitions.mpr ⟨l, List.mem_cons_self, hs⟩))]
      next => rfl
    have later : ∀ s ∈ definitions rest, s.isLocal = true := by
      intro s hs
      obtain ⟨l', hl', hd⟩ := mem_definitions.mp hs
      exact h s (mem_definitions.mpr ⟨l', List.mem_cons_of_mem _ hl', hd⟩)
    rw [withOwners, here, ih later, List.map_cons]

/-- A symbol that is not local and the lines below it, up to the next one. -/
theorem settled_below {s : Symbol} (hs : s.isLocal = false) {body : List Line}
    (inner : ∀ x ∈ definitions body, x.isLocal = true)
    (closed : ∀ x ∈ mentions body, x.isLocal = true → x ∈ definitions body) :
    Settled (.label s :: body) := by
  intro owner e he x hx localSymbol
  have here : (Line.label s).ownerFrom owner = some s := by simp [Line.ownerFrom, Line.defines?, hs]
  rw [withOwners, here, withOwners_of_local inner] at he ⊢
  rcases List.mem_cons.mp he with rfl | he
  · cases hx
  · obtain ⟨l, hl, rfl⟩ := List.mem_map.mp he
    have defined := closed x (mem_mentions.mpr ⟨l, hl, hx⟩) localSymbol
    obtain ⟨l', hl', hd⟩ := mem_definitions.mp defined
    exact ⟨l', List.mem_cons_of_mem _ (List.mem_map.mpr ⟨l', hl', rfl⟩), hd⟩

end StackLang.Target
