import Mathlib.Data.List.Perm.Subperm
import Mathlib.Logic.Relation
import StackLang.Inline.Cycle
import StackLang.Proofs.Namespace
import StackLang.Proofs.Outcome
/-!
Which inlines use which. Where the search finds no cycle, every chain of uses ends.
-/

namespace StackLang

namespace Program

/-- The body of one inline uses another. -/
def Refers (p : Program) (a b : String) : Prop :=
  ∃ d pos, p.inlines.get? a = some d ∧ (b, pos) ∈ d.body.uses ∧ (p.inlines.get? b).isSome

/-- Every chain of uses that begins at a name ends. -/
def Grounded (p : Program) (name : String) : Prop :=
  Acc (fun b a => p.Refers a b) name

/-- Every inline stands under its own name. -/
def OwnNames (p : Program) : Prop :=
  ∀ {name : String} {d : Routine}, p.inlines.get? name = some d → d.name = name

/-- A path of inlines below which the search still has somewhere to go: its names differ, each is
that of an inline, and the bound allows for the inlines that are not on it. -/
structure Path (p : Program) (fuel : Nat) (active : List String) : Prop where
  nodup : active.Nodup
  known : ∀ a ∈ active, (p.inlines.get? a).isSome
  bound : p.inlines.size < fuel + active.length

theorem Coherent.ownNames {p : Program} (h : p.Coherent) : p.OwnNames :=
  fun hd => (h.inline_iff.mp hd).2

theorem Path.length_le {p : Program} {fuel : Nat} {active : List String} (h : p.Path fuel active) :
    active.length ≤ p.inlines.size := by
  have sub : active ⊆ p.inlines.entries.map Prod.fst := by
    intro a ha
    obtain ⟨d, hd⟩ := Option.isSome_iff_exists.mp (h.known a ha)
    exact List.mem_map.mpr ⟨(a, d), Table.get?_eq_some_iff.mp hd, rfl⟩
  simpa [Table.size] using (List.subperm_of_subset h.nodup sub).length_le

theorem Path.fuel_pos {p : Program} {fuel : Nat} {active : List String} (h : p.Path fuel active) :
    0 < fuel := by
  have hlen := h.length_le
  have hbound := h.bound
  omega

theorem path_nil {p : Program} {fuel : Nat} (h : p.inlines.size < fuel) : p.Path fuel [] :=
  ⟨List.nodup_nil, by simp, by simpa using h⟩

theorem Path.extend {p : Program} {fuel : Nat} {active : List String} {name : String}
    (h : p.Path (fuel + 1) active) (fresh : name ∉ active)
    (known : (p.inlines.get? name).isSome) : p.Path fuel (active ++ [name]) := by
  refine ⟨?_, ?_, ?_⟩
  · rw [← List.concat_eq_append]
    exact h.nodup.concat fresh
  · intro a ha
    rcases List.mem_append.mp ha with ha | ha
    · exact h.known a ha
    · rw [List.mem_singleton.mp ha]
      exact known
  · have hbound := h.bound
    rw [List.length_append, List.length_singleton]
    omega

theorem Grounded.not_transGen {p : Program} {name : String} (h : p.Grounded name) :
    ¬ Relation.TransGen p.Refers name name := by
  have ends : Acc (Relation.TransGen fun b a => p.Refers a b) name := Acc.transGen h
  rw [← Relation.transGen_swap]
  induction ends with
  | intro name _ ih => exact fun loop => ih name loop (h.inv_of_transGen loop) loop

end Program

/-- What a visitor of inlines does: it finds an inline harmless, and leaves the names found so
before. -/
def Clears (p : Program) (visit : List String → Routine → Pos → Except Cycle (List String)) :
    Prop :=
  ∀ {cleared cleared' d pos}, p.inlines.get? d.name = some d → (∀ c ∈ cleared, p.Grounded c) →
    visit cleared d pos = .ok cleared' → p.Grounded d.name ∧ ∀ c ∈ cleared', p.Grounded c

theorem visitUses_grounded {p : Program}
    {visit : List String → Routine → Pos → Except Cycle (List String)} (own : p.OwnNames)
    (hv : Clears p visit) {uses : List (String × Pos)} {cleared cleared' : List String}
    (hc : ∀ c ∈ cleared, p.Grounded c) (h : visitUses p visit cleared uses = .ok cleared') :
    (∀ u ∈ uses, (p.inlines.get? u.1).isSome → p.Grounded u.1) ∧
      ∀ c ∈ cleared', p.Grounded c := by
  induction uses generalizing cleared with
  | nil =>
    cases h
    exact ⟨by simp, hc⟩
  | cons u rest ih =>
    obtain ⟨name, pos⟩ := u
    unfold visitUses at h
    split at h
    next hn =>
      obtain ⟨later, done⟩ := ih hc h
      refine ⟨?_, done⟩
      intro u hu hk
      rcases List.mem_cons.mp hu with rfl | hu
      · simp [hn] at hk
      · exact later u hu hk
    next d hd =>
      obtain ⟨mid, hvis, h⟩ := bind_eq_ok.mp h
      obtain rfl := own hd
      obtain ⟨here, hmid⟩ := hv hd hc hvis
      obtain ⟨later, done⟩ := ih hmid h
      refine ⟨?_, done⟩
      intro u hu hk
      rcases List.mem_cons.mp hu with rfl | hu
      · exact here
      · exact later u hu hk

theorem visitInline_grounded {p : Program} (own : p.OwnNames) {fuel : Nat} {active : List String}
    (path : p.Path fuel active) : Clears p (visitInline p fuel active) := by
  induction fuel generalizing active with
  | zero => exact absurd path.fuel_pos (Nat.lt_irrefl 0)
  | succ fuel ih =>
    intro cleared cleared' d pos hd hc h
    unfold visitInline at h
    split at h
    next => cases h
    next fresh =>
      split at h
      next old =>
        cases h
        exact ⟨hc _ (by simpa using old), hc⟩
      next =>
        obtain ⟨mid, hu, h⟩ := bind_eq_ok.mp h
        cases h
        have deeper := path.extend (by simpa using fresh) (by simp [hd])
        obtain ⟨uses, done⟩ := visitUses_grounded own (ih deeper) hc hu
        have here : p.Grounded d.name := by
          refine Acc.intro _ ?_
          rintro b ⟨d', pos', hd', hb, known⟩
          rw [hd, Option.some.injEq] at hd'
          subst hd'
          exact uses _ hb known
        refine ⟨here, ?_⟩
        intro c hm
        rcases List.mem_cons.mp hm with rfl | hm
        · exact here
        · exact done c hm

theorem checkInlines_grounded {p : Program} (own : p.OwnNames) {ds : List Routine}
    (h : checkInlines p ds = .ok ()) {d : Routine} (hd : d ∈ ds)
    (found : p.inlines.get? d.name = some d) : p.Grounded d.name := by
  induction ds with
  | nil => cases hd
  | cons e rest ih =>
    unfold checkInlines at h
    obtain ⟨cleared, hv, h⟩ := bind_eq_ok.mp h
    rcases List.mem_cons.mp hd with rfl | hd
    · exact (visitInline_grounded own (Program.path_nil (by omega)) found (by simp) hv).1
    · exact ih h hd

theorem Program.mem_inlineList {p : Program} {r : Routine} :
    r ∈ p.inlineList ↔ .inline r ∈ p.decls := by
  unfold inlineList
  rw [List.mem_filterMap]
  constructor
  · rintro ⟨d, hd, h⟩
    cases d <;> cases h
    exact hd
  · intro h
    exact ⟨_, h, rfl⟩

/-- Where the search finds no cycle there is none. -/
theorem Program.Coherent.grounded {p : Program} (h : p.Coherent) (hc : p.checkCycles = .ok ())
    (name : String) : p.Grounded name := by
  cases hd : p.inlines.get? name with
  | some d =>
    obtain ⟨listed, rfl⟩ := h.inline_iff.mp hd
    exact checkInlines_grounded h.ownNames hc (mem_inlineList.mpr listed) hd
  | none =>
    refine Acc.intro _ ?_
    rintro b ⟨d, pos, hd', _⟩
    rw [hd] at hd'
    cases hd'

end StackLang
