import Mathlib.Data.List.Nodup
import StackLang.Verify
/-!
Programs whose three maps hold exactly the listed declarations, each under its own name.
-/

namespace StackLang

namespace Table

variable {κ α : Type} [DecidableEq κ]

theorem lookup_eq_some_iff_mem {entries : List (κ × α)} (nodup : (entries.map Prod.fst).Nodup)
    {key : κ} {a : α} : entries.lookup key = some a ↔ (key, a) ∈ entries := by
  induction entries with
  | nil => simp
  | cons e rest ih =>
    obtain ⟨key', a'⟩ := e
    obtain ⟨fresh, nodup⟩ := List.nodup_cons.mp nodup
    rw [List.lookup_cons]
    by_cases h : key = key'
    · subst h
      have absent : (key, a) ∉ rest := by
        intro hm
        exact fresh (List.mem_map.mpr ⟨(key, a), hm, rfl⟩)
      simp [absent, eq_comm]
    · have hne : (key == key') = false := by simpa using h
      rw [hne, List.mem_cons, Prod.mk.injEq]
      simpa [h] using ih nodup

theorem get?_eq_some_iff {t : Table κ α} {key : κ} {a : α} :
    t.get? key = some a ↔ (key, a) ∈ t.entries :=
  lookup_eq_some_iff_mem t.nodup

@[simp] theorem get?_empty (key : κ) : (empty : Table κ α).get? key = none := rfl

@[simp] theorem get?_put_self (t : Table κ α) (key : κ) (a : α) :
    (t.put key a).get? key = some a := by
  simp [get?, put]

theorem get?_put_of_ne (t : Table κ α) {key other : κ} (a : α) (h : other ≠ key) :
    (t.put key a).get? other = t.get? other := by
  ext b
  simp [get?_eq_some_iff, put, erase, h]

/-- A new key adds one entry and changes no other. -/
theorem get?_put_eq_some_iff {t : Table κ α} {key other : κ} {a b : α} (h : t.get? key = none) :
    (t.put key a).get? other = some b ↔ t.get? other = some b ∨ other = key ∧ a = b := by
  by_cases he : other = key
  · subst he
    simp [h]
  · simp [get?_put_of_ne t a he, he]

/-- A map that holds exactly the values of a kind, each under its own key, still does so after one
more value is put into it. -/
theorem get?_put_own_key {t : Table κ α} {member : α → Prop} {key : α → κ}
    (h : ∀ {k a}, t.get? k = some a ↔ member a ∧ key a = k) {b : α}
    (free : t.get? (key b) = none) {k : κ} {a : α} :
    (t.put (key b) b).get? k = some a ↔ (member a ∨ a = b) ∧ key a = k := by
  rw [get?_put_eq_some_iff free, h]
  constructor
  · rintro (⟨hm, hk⟩ | ⟨rfl, rfl⟩)
    · exact ⟨Or.inl hm, hk⟩
    · exact ⟨Or.inr rfl, rfl⟩
  · rintro ⟨hm | rfl, rfl⟩
    · exact Or.inl ⟨hm, rfl⟩
    · exact Or.inr ⟨rfl, rfl⟩

theorem size_put {t : Table κ α} {key : κ} (a : α) (h : t.get? key = none) :
    (t.put key a).size = t.size + 1 := by
  have keep : t.entries.filter (fun e => e.1 ≠ key) = t.entries := by
    apply List.filter_eq_self.mpr
    intro e he
    have hne : e.1 ≠ key := by
      rintro rfl
      rw [get?_eq_some_iff.mpr he] at h
      cases h
    simpa using hne
  change (t.entries.filter fun e => e.1 ≠ key).length + 1 = t.entries.length + 1
  rw [keep]

theorem lookup_map {entries : List (κ × α)} (f : α → α) (key : κ) :
    (entries.map fun e => (e.1, f e.2)).lookup key = (entries.lookup key).map f := by
  induction entries with
  | nil => rfl
  | cons e rest ih =>
    rw [List.map_cons, List.lookup_cons, List.lookup_cons, ih]
    cases key == e.1 <;> rfl

@[simp] theorem get?_map (t : Table κ α) (f : α → α) (key : κ) :
    (t.map f).get? key = (t.get? key).map f :=
  lookup_map f key

omit [DecidableEq κ] in
@[simp] theorem size_map (t : Table κ α) (f : α → α) : (t.map f).size = t.size := by
  simp [size, map]

end Table

namespace Program

/-- The maps hold exactly the listed declarations, each under its own name, and no name is listed
twice. -/
structure Coherent (p : Program) : Prop where
  nodup : (p.decls.map Decl.name).Nodup
  proc_iff : ∀ {name : String} {r : Routine},
    p.procs.get? name = some r ↔ .proc r ∈ p.decls ∧ r.name = name
  inline_iff : ∀ {name : String} {r : Routine},
    p.inlines.get? name = some r ↔ .inline r ∈ p.decls ∧ r.name = name
  memory_iff : ∀ {name : String} {m : Memory},
    p.memories.get? name = some m ↔ .memory m ∈ p.decls ∧ m.name = name
  count : p.registered = p.decls.length

theorem lookup_eq_none_iff {p : Program} {name : String} : p.lookup name = none ↔
    p.procs.get? name = none ∧ p.inlines.get? name = none ∧ p.memories.get? name = none := by
  simp [lookup, Option.or_eq_none_iff]

theorem Coherent.eq_of_name {p : Program} (h : p.Coherent) {d e : Decl} (hd : d ∈ p.decls)
    (he : e ∈ p.decls) (same : d.name = e.name) : d = e :=
  List.inj_on_of_nodup_map h.nodup hd he same

theorem Coherent.not_proc_of_memory {p : Program} (h : p.Coherent) {name : String}
    (region : p.memories.contains name = true) : p.procs.contains name = false := by
  obtain ⟨m, found⟩ := Option.isSome_iff_exists.mp region
  obtain ⟨listed, same⟩ := h.memory_iff.mp found
  cases hr : p.procs.get? name with
  | none => simp [Table.contains, hr]
  | some r =>
    obtain ⟨listed', same'⟩ := h.proc_iff.mp hr
    cases h.eq_of_name listed listed' (same.trans same'.symm)

theorem Coherent.lookup_of_mem {p : Program} (h : p.Coherent) {d : Decl} (hd : d ∈ p.decls) :
    p.lookup d.name = some d := by
  have only : ∀ e ∈ p.decls, e.name = d.name → e = d := fun e he same => h.eq_of_name he hd same
  cases hp : p.procs.get? d.name with
  | some r =>
    have hr := h.proc_iff.mp hp
    rw [← only _ hr.1 hr.2]
    simpa [lookup, Decl.name, hr.2] using hp
  | none =>
    cases hi : p.inlines.get? d.name with
    | some r =>
      have hr := h.inline_iff.mp hi
      simpa [lookup, hp, hi] using only _ hr.1 hr.2
    | none =>
      cases d with
      | proc r => simp [h.proc_iff.mpr ⟨hd, rfl⟩, Decl.name] at hp
      | inline r => simp [h.inline_iff.mpr ⟨hd, rfl⟩, Decl.name] at hi
      | memory m =>
        have hm : p.memories.get? (Decl.memory m).name = some m := h.memory_iff.mpr ⟨hd, rfl⟩
        simp [lookup, hp, hi, hm]

theorem Coherent.mem_of_lookup {p : Program} (h : p.Coherent) {name : String} {d : Decl}
    (hl : p.lookup name = some d) : d ∈ p.decls ∧ d.name = name := by
  rcases Option.or_eq_some_iff.mp hl with hp | ⟨_, hl⟩
  · obtain ⟨r, hr, rfl⟩ := Option.map_eq_some_iff.mp hp
    exact h.proc_iff.mp hr
  · rcases Option.or_eq_some_iff.mp hl with hi | ⟨_, hm⟩
    · obtain ⟨r, hr, rfl⟩ := Option.map_eq_some_iff.mp hi
      exact h.inline_iff.mp hr
    · obtain ⟨m, hr, rfl⟩ := Option.map_eq_some_iff.mp hm
      exact h.memory_iff.mp hr

theorem Coherent.lookup_eq_none_iff_not_mem {p : Program} (h : p.Coherent) {name : String} :
    p.lookup name = none ↔ name ∉ p.decls.map Decl.name := by
  constructor
  · intro hn hm
    obtain ⟨d, hd, rfl⟩ := List.mem_map.mp hm
    rw [h.lookup_of_mem hd] at hn
    cases hn
  · intro hm
    by_contra hn
    obtain ⟨d, hl⟩ := Option.ne_none_iff_exists'.mp hn
    obtain ⟨hd, rfl⟩ := h.mem_of_lookup hl
    exact hm (List.mem_map_of_mem hd)

theorem coherent_empty (file : String) : ({ file } : Program).Coherent where
  nodup := List.nodup_nil
  proc_iff := by simp
  inline_iff := by simp
  memory_iff := by simp
  count := rfl

theorem insert_decls (p : Program) (d : Decl) :
    (p.insert d).decls = p.decls ++ [d.withSerial p.nextSerial] := rfl

theorem insert_proc (p : Program) (r : Routine) :
    p.insert (.proc r) =
      { p with
        decls := p.decls ++ [.proc { r with serial := p.nextSerial }]
        procs := p.procs.put r.name { r with serial := p.nextSerial }
        nextSerial := p.nextSerial + 1 } := rfl

theorem insert_inline (p : Program) (r : Routine) :
    p.insert (.inline r) =
      { p with
        decls := p.decls ++ [.inline { r with serial := p.nextSerial }]
        inlines := p.inlines.put r.name { r with serial := p.nextSerial }
        nextSerial := p.nextSerial + 1 } := rfl

theorem insert_memory (p : Program) (m : Memory) :
    p.insert (.memory m) =
      { p with
        decls := p.decls ++ [.memory { m with serial := p.nextSerial }]
        memories := p.memories.put m.name { m with serial := p.nextSerial }
        nextSerial := p.nextSerial + 1 } := rfl

@[simp] theorem name_withSerial (d : Decl) (n : Nat) : (d.withSerial n).name = d.name := by
  cases d <;> rfl

theorem Coherent.insert {p : Program} (h : p.Coherent) {d : Decl}
    (free : p.lookup d.name = none) : (p.insert d).Coherent := by
  obtain ⟨hp, hi, hm⟩ := lookup_eq_none_iff.mp free
  have nodup : ((p.insert d).decls.map Decl.name).Nodup := by
    have fresh := h.lookup_eq_none_iff_not_mem.mp free
    rw [insert_decls, List.map_append, List.map_singleton, name_withSerial]
    refine List.nodup_append.mpr ⟨h.nodup, by simp, ?_⟩
    intro name hn other ho
    rw [List.mem_singleton] at ho
    rintro rfl
    exact fresh (ho ▸ hn)
  have count := h.count
  unfold registered at count
  cases d with
  | proc r =>
    replace hp : p.procs.get? r.name = none := hp
    rw [insert_proc] at nodup ⊢
    refine ⟨nodup, ?_, ?_, ?_, ?_⟩
    · intro name r'
      simpa using Table.get?_put_own_key h.proc_iff (b := { r with serial := p.nextSerial }) hp
    · simpa using @h.inline_iff
    · simpa using @h.memory_iff
    · change (p.procs.put r.name _).size + p.inlines.size + p.memories.size =
        (p.decls ++ [_]).length
      rw [Table.size_put _ hp, List.length_append, List.length_singleton]
      omega
  | inline r =>
    replace hi : p.inlines.get? r.name = none := hi
    rw [insert_inline] at nodup ⊢
    refine ⟨nodup, ?_, ?_, ?_, ?_⟩
    · simpa using @h.proc_iff
    · intro name r'
      simpa using Table.get?_put_own_key h.inline_iff (b := { r with serial := p.nextSerial }) hi
    · simpa using @h.memory_iff
    · change p.procs.size + (p.inlines.put r.name _).size + p.memories.size =
        (p.decls ++ [_]).length
      rw [Table.size_put _ hi, List.length_append, List.length_singleton]
      omega
  | memory m =>
    replace hm : p.memories.get? m.name = none := hm
    rw [insert_memory] at nodup ⊢
    refine ⟨nodup, ?_, ?_, ?_, ?_⟩
    · simpa using @h.proc_iff
    · simpa using @h.inline_iff
    · intro name m'
      simpa using Table.get?_put_own_key h.memory_iff (b := { m with serial := p.nextSerial }) hm
    · change p.procs.size + p.inlines.size + (p.memories.put m.name _).size =
        (p.decls ++ [_]).length
      rw [Table.size_put _ hm, List.length_append, List.length_singleton]
      omega

end Program

end StackLang
