import Mathlib.Data.List.Nodup
import Mathlib.Data.List.Perm.Subperm
import StackLang.Project.Workspace
import StackLang.Proofs.Namespace
import StackLang.Proofs.Target.Mangling
/-!
Where paths lead. Only directories decide where a path leads, so that a workspace in which only
files come and go, and a directory that no path passes, leads every path to the same place.
-/

namespace StackLang

/-! ### Parts of paths -/

namespace Path

theorem not_mem_of_mem_splitOn {sep : Char} {chars piece : List Char}
    (h : piece ∈ chars.splitOn sep) : sep ∉ piece := by
  induction chars generalizing piece with
  | nil => simp_all
  | cons c chars ih =>
    obtain ⟨first, rest, split⟩ := List.exists_cons_of_ne_nil (List.splitOn_ne_nil sep chars)
    rw [split] at ih
    rw [List.splitOn_cons_eq_if_modifyHead, split] at h
    by_cases hc : c = sep
    · simp only [hc, BEq.rfl, if_true] at h
      rcases List.mem_cons.mp h with rfl | h
      · simp
      · exact ih h
    · rw [if_neg (by simpa using hc), List.modifyHead_cons] at h
      rcases List.mem_cons.mp h with rfl | h
      · simpa [Ne.symm hc] using ih (List.mem_cons_self ..)
      · exact ih (List.mem_cons_of_mem _ h)

theorem slash_not_mem_part {path part : String} (h : part ∈ parts path) : '/' ∉ part.toList := by
  obtain ⟨piece, hp, rfl⟩ := List.mem_map.mp h
  rw [String.toList_ofList]
  exact not_mem_of_mem_splitOn hp

/-- A text without a slash at the end of a path is a matter of the last part. -/
theorem parts_append (path : String) : ∃ front last, parts path = front ++ [last] ∧
    ∀ ending : String, '/' ∉ ending.toList →
      parts (path ++ ending) = front ++ [last ++ ending] := by
  have chars (cs : List Char) : ∃ front last, cs.splitOn '/' = front ++ [last] ∧
      ∀ es : List Char, '/' ∉ es → (cs ++ es).splitOn '/' = front ++ [last ++ es] := by
    induction cs with
    | nil => exact ⟨[], [], rfl, fun es hes => by simp [List.splitOn_eq_singleton hes]⟩
    | cons c cs ih =>
      obtain ⟨front, last, alone, extended⟩ := ih
      by_cases hc : c = '/'
      · refine ⟨[] :: front, last, ?_, fun es hes => ?_⟩
        · simp [List.splitOn_cons_eq_if_modifyHead, hc, alone]
        · simp [List.splitOn_cons_eq_if_modifyHead, hc, extended es hes]
      · cases front with
        | nil =>
          refine ⟨[], c :: last, ?_, fun es hes => ?_⟩
          · simp [List.splitOn_cons_eq_if_modifyHead, hc, alone]
          · simp [List.splitOn_cons_eq_if_modifyHead, hc, extended es hes]
        | cons first front =>
          refine ⟨(c :: first) :: front, last, ?_, fun es hes => ?_⟩
          · simp [List.splitOn_cons_eq_if_modifyHead, hc, alone]
          · simp [List.splitOn_cons_eq_if_modifyHead, hc, extended es hes]
  obtain ⟨front, last, alone, extended⟩ := chars path.toList
  refine ⟨front.map String.ofList, String.ofList last, by simp [parts, alone], ?_⟩
  intro ending slash
  simp [parts, extended ending.toList slash]

theorem parts_below_root {dir name : String} (hd : '/' ∉ dir.toList) (hn : '/' ∉ name.toList) :
    parts ("/" ++ dir ++ "/" ++ name) = ["", dir, name] := by
  have split : ("/" ++ dir ++ "/" ++ name).toList =
      ['/'].intercalate [[], dir.toList, name.toList] := by
    simp [List.intercalate]
  rw [parts, split, List.splitOn_intercalate '/' (by simp [hd, hn]) (by simp)]
  simp

theorem slash_not_mem_base {path : String} (h : ext path ≠ "") : '/' ∉ (base path).toList := by
  unfold base
  split
  · decide
  · have last : (parts path).getLast?.getD "" ≠ "" := by
      intro empty
      simp [ext, empty] at h
    obtain ⟨part, hp⟩ : ∃ part, (parts path).getLast? = some part := by
      cases hl : (parts path).getLast? with
      | none => simp [hl] at last
      | some part => exact ⟨part, rfl⟩
    rw [hp, Option.getD_some] at last
    have mem : part ∈ (parts path).filter (· ≠ "") :=
      List.mem_filter.mpr ⟨List.mem_of_getLast? hp, by simpa using last⟩
    rw [List.getLast?_eq_some_getLast (List.ne_nil_of_mem mem), Option.getD_some]
    exact slash_not_mem_part (List.mem_filter.mp (List.getLast_mem _)).1

theorem toList_dropEnding_subset (path ending : String) :
    (dropEnding path ending).toList ⊆ path.toList := by
  unfold dropEnding
  dsimp only
  split
  · rw [String.toList_ofList]
    exact List.take_subset _ _
  · exact fun _ h => h

/-- Names that mean themselves in a path. -/
def Proper (name : String) : Prop :=
  name ≠ "" ∧ name ≠ "." ∧ name ≠ ".."

theorem proper_of_mem {name : String} {c : Char} (hc : c ∈ name.toList) (dot : c ≠ '.') :
    Proper name := by
  refine ⟨?_, ?_, ?_⟩ <;> rintro rfl <;> simp_all

end Path

namespace Workspace

/-! ### Entries -/

variable {w w' w'' : Workspace} {place other : Place} {e : Entry}

/-- The root is a directory, so what is none is not the root. -/
theorem ne_nil_of_get? (h : w.get? place ≠ some .directory) : place ≠ [] := by
  rintro rfl
  exact h rfl

theorem get?_put_self (h : place ≠ []) : (w.put place e).get? place = some e := by
  simp [get?, put, h]

theorem get?_put_of_ne (h : other ≠ place) : (w.put place e).get? other = w.get? other := by
  simp only [get?, put, Table.get?_put_of_ne _ _ h]

theorem get?_remove {root : Place} (h : root ≠ []) :
    (w.remove root).get? place = if root <+: place then none else w.get? place := by
  by_cases hp : place = []
  · simp [get?, hp, h]
  · ext e
    simp only [get?, hp, if_false]
    have kept : (!root.isPrefixOf place) = true ↔ ¬ root <+: place := by
      rw [Bool.not_eq_true', ← Bool.not_eq_true, List.isPrefixOf_iff_prefix]
    rw [Table.get?_eq_some_iff, remove, List.mem_filter, kept]
    split
    next below => simp [below]
    next outside => simp [outside, Table.get?_eq_some_iff]

/-- Among more numbered names than there are names in use, one is not in use. -/
theorem exists_numbered_not_mem (stem : String) (used : List String) :
    ∃ name ∈ (List.range (used.length + 1)).map fun n => stem ++ toString n, name ∉ used := by
  by_contra! all
  have apart : Function.Injective fun n : Nat => stem ++ toString n := by
    intro a b h
    exact Target.natRepr_injective (String.append_right_inj stem |>.mp h)
  have bound := (List.nodup_range.map apart).subperm all |>.length_le
  rw [List.length_map, List.length_range] at bound
  omega

theorem freshName_spec (w : Workspace) (stem : String) (others : List String) :
    (∃ n : Nat, w.freshName stem others = stem ++ toString n) ∧
      w.freshName stem others ∉ others ∧ w.cwd.head? ≠ some (w.freshName stem others) ∧
      ∀ place, place.head? = some (w.freshName stem others) → w.get? place = none := by
  generalize fresh : w.freshName stem others = name
  unfold freshName at fresh
  dsimp only at fresh
  generalize hused : (w.cwd :: w.entries.entries.map Prod.fst).filterMap List.head? ++ others = used
    at fresh
  obtain ⟨candidate, hc, free⟩ := exists_numbered_not_mem stem used
  obtain ⟨found, hf⟩ := Option.isSome_iff_exists.mp
    (List.find?_isSome.mpr ⟨candidate, hc, by simpa using free⟩ :
      (List.find? (fun name => !used.contains name) _).isSome)
  rw [hf, Option.getD_some] at fresh
  subst fresh
  have unused : found ∉ used := by simpa using List.find?_some hf
  obtain ⟨n, _, rfl⟩ := List.mem_map.mp (List.mem_of_find?_eq_some hf)
  rw [← hused, List.mem_append, not_or, List.mem_filterMap, not_exists] at unused
  obtain ⟨heads, fresh⟩ := unused
  refine ⟨⟨n, rfl⟩, fresh, fun h => heads w.cwd ⟨by simp, h⟩, ?_⟩
  intro place hp
  have nonempty : place ≠ [] := by
    rintro rfl
    cases hp
  rw [get?, if_neg nonempty, Option.eq_none_iff_forall_ne_some]
  intro e he
  refine heads place ⟨List.mem_cons_of_mem _ ?_, hp⟩
  exact List.mem_map.mpr ⟨(place, e), Table.get?_eq_some_iff.mp he, rfl⟩

/-! ### Following paths -/

/-- Where one part of a path leads from a directory. -/
def next? (place : Place) (part : String) : Option Place :=
  if part = "" ∨ part = "." then some place
  else if part = ".." then some place.dropLast
  else if longestName < part.utf8ByteSize then none
  else some (place ++ [part])

theorem follow_cons_iff {part : String} {rest : List String} {target : Place} :
    w.follow place (part :: rest) = .ok target ↔
      w.get? place = some .directory ∧
        ∃ next, next? place part = some next ∧ w.follow next rest = .ok target := by
  rw [follow]
  split
  next h => simp [h]
  next h => simp [h]
  next h =>
    simp only [h, true_and, next?]
    split
    · simp
    · split
      · simp
      · split <;> simp

theorem follow_append_iff {front rest : List String} {target : Place} :
    w.follow place (front ++ rest) = .ok target ↔
      ∃ mid, w.follow place front = .ok mid ∧ w.follow mid rest = .ok target := by
  induction front generalizing place with
  | nil => simp [follow]
  | cons part front ih =>
    simp only [List.cons_append, follow_cons_iff, ih]
    constructor
    · rintro ⟨dir, next, hn, mid, hf, hr⟩
      exact ⟨mid, ⟨dir, next, hn, hf⟩, hr⟩
    · rintro ⟨mid, ⟨dir, next, hn, hf⟩, hr⟩
      exact ⟨dir, next, hn, mid, hf, hr⟩

theorem next?_of_proper {name : String} {next : Place} (hn : Path.Proper name)
    (h : next? place name = some next) : next = place ++ [name] := by
  obtain ⟨empty, dot, dots⟩ := hn
  simp only [next?, empty, dot, dots, or_self, if_false] at h
  split at h <;> cases h
  rfl

theorem next?_ne_append {last ending : String} (nonempty : ending ≠ "") :
    next? place last ≠ some (place ++ [last ++ ending]) := by
  have longer : (place ++ [last ++ ending]).length = place.length + 1 := by simp
  unfold next?
  intro h
  split at h
  · rw [← Option.some.inj h] at longer
    omega
  · split at h
    · rw [← Option.some.inj h, List.length_dropLast] at longer
      omega
    · split at h
      · cases h
      · have same := List.append_cancel_left (Option.some.inj h)
        exact nonempty (String.append_eq_left_iff.mp (List.singleton_inj.mp same).symm)

theorem locate_eq_ok_iff {path : String} {target : Place} :
    w.locate path = .ok target ↔
      (path ≠ "" ∧ ¬ path.toList.contains (Char.ofNat 0) ∧ ¬ longestPath < path.utf8ByteSize) ∧
        w.follow (if Path.isAbs path then [] else w.cwd) (Path.parts path) = .ok target := by
  unfold locate
  split
  next h => simp [h]
  next h =>
    split
    next h' => simp only [h', not_true_eq_false, false_and, and_false, reduceCtorEq]
    next h' =>
      split
      next h'' => simp [h'']
      next h'' => exact (and_iff_right ⟨h, h', h''⟩).symm

theorem write_eq_ok_iff {path : String} {bytes : List UInt8} :
    w.write path bytes = .ok w' ↔ ∃ place, w.locate path = .ok place ∧
      w.get? place ≠ some .directory ∧ w' = w.put place (.file bytes) := by
  unfold write
  split
  next h => simp [h]
  next place h =>
    simp only [h, Except.ok.injEq, exists_eq_left']
    split
    next hd => simp [hd]
    next hd =>
      rw [Except.ok.injEq, eq_comm]
      exact (and_iff_right hd).symm

theorem read_eq_ok_iff {path : String} {bytes : List UInt8} :
    w.read path = .ok bytes ↔
      ∃ place, w.locate path = .ok place ∧ w.get? place = some (.file bytes) := by
  unfold read openEntry look
  cases w.locate path with
  | error t => simp [Except.mapError]
  | ok place =>
    cases h : w.get? place with
    | none => simp [h, Except.mapError]
    | some e => cases e <;> simp [h, Except.mapError]

/-- A path with more at the end of its last part leads to another place. -/
theorem locate_append_ne {path ending : String} {target longer : Place}
    (slash : '/' ∉ ending.toList) {c : Char} (hc : c ∈ ending.toList) (dot : c ≠ '.')
    (h : w.locate path = .ok target) (h' : w.locate (path ++ ending) = .ok longer) :
    longer ≠ target := by
  obtain ⟨front, last, alone, extended⟩ := Path.parts_append path
  obtain ⟨⟨nonempty, _⟩, h⟩ := locate_eq_ok_iff.mp h
  obtain ⟨_, h'⟩ := locate_eq_ok_iff.mp h'
  have start : Path.isAbs (path ++ ending) = Path.isAbs path := by
    obtain ⟨c, cs, hcs⟩ := List.exists_cons_of_ne_nil (mt String.toList_eq_nil_iff.mp nonempty)
    simp [Path.isAbs, hcs]
  rw [alone, follow_append_iff] at h
  rw [start, extended ending slash, follow_append_iff] at h'
  obtain ⟨mid, hm, h⟩ := h
  obtain ⟨mid', hm', h'⟩ := h'
  cases hm.symm.trans hm'
  obtain ⟨_, next, hn, h⟩ := follow_cons_iff.mp h
  obtain ⟨_, next', hn', h'⟩ := follow_cons_iff.mp h'
  cases h
  cases h'
  have proper : Path.Proper (last ++ ending) :=
    Path.proper_of_mem (String.toList_append ▸ List.mem_append_right _ hc) dot
  rw [next?_of_proper proper hn']
  rintro rfl
  refine next?_ne_append ?_ hn
  rintro rfl
  cases hc

/-! ### Workspaces that differ little -/

/-- Whether one workspace comes from another without any change to directories, other than below
the root in `scratch`, and without any change at all but there and at the places `touched`. -/
structure Drift (scratch : String) (touched : Place → Prop) (w w' : Workspace) : Prop where
  cwd : w'.cwd = w.cwd
  kept : ∀ place, place.head? ≠ some scratch → ¬ touched place → w'.get? place = w.get? place
  directories : ∀ place, place.head? ≠ some scratch →
    (w'.get? place = some .directory ↔ w.get? place = some .directory)

variable {scratch : String} {touched touched' : Place → Prop}

theorem Drift.trans (h : Drift scratch touched w w') (h' : Drift scratch touched w' w'') :
    Drift scratch touched w w'' where
  cwd := h'.cwd.trans h.cwd
  kept place outside untouched :=
    (h'.kept place outside untouched).trans (h.kept place outside untouched)
  directories place outside := (h'.directories place outside).trans (h.directories place outside)

theorem Drift.mono (h : Drift scratch touched w w') (le : ∀ place, touched place → touched' place) :
    Drift scratch touched' w w' where
  cwd := h.cwd
  kept place outside untouched := h.kept place outside fun ht => untouched (le place ht)
  directories := h.directories

/-- Changes of files only. -/
theorem Drift.of_files (cwd : w'.cwd = w.cwd)
    (files : ∀ place, w'.get? place ≠ w.get? place → place.head? ≠ some scratch →
      touched place ∧ w.get? place ≠ some .directory ∧ w'.get? place ≠ some .directory) :
    Drift scratch touched w w' where
  cwd := cwd
  kept place outside untouched := by
    by_contra changed
    exact untouched (files place changed outside).1
  directories place outside := by
    by_cases changed : w'.get? place = w.get? place
    · rw [changed]
    · obtain ⟨_, before, after⟩ := files place changed outside
      exact iff_of_false after before

/-- A file that takes the place of a file or of nothing. -/
theorem Drift.put {bytes : List UInt8} (file : w.get? place ≠ some .directory)
    (place_in : place.head? ≠ some scratch → touched place) :
    Drift scratch touched w (w.put place (.file bytes)) := by
  refine .of_files rfl fun other changed outside => ?_
  have same : other = place := by
    by_contra h
    exact changed (get?_put_of_ne h)
  subst same
  refine ⟨place_in outside, file, ?_⟩
  rw [get?_put_self (ne_nil_of_get? file)]
  simp

/-- What goes on in the directory may as well be undone. -/
theorem Drift.remove (d : Drift scratch touched w w') :
    Drift scratch touched w (w'.remove [scratch]) := by
  have kept {place : Place} (outside : place.head? ≠ some scratch) :
      (w'.remove [scratch]).get? place = w'.get? place := by
    have apart : ¬ [scratch] <+: place := by
      rintro ⟨rest, rfl⟩
      simp at outside
    rw [get?_remove (by simp), if_neg apart]
  refine ⟨d.cwd, fun place outside untouched => ?_, fun place outside => ?_⟩
  · rw [kept outside, d.kept place outside untouched]
  · rw [kept outside, d.directories place outside]

theorem next?_outside {part : String} {next : Place} (hp : place.head? ≠ some scratch)
    (hs : part ≠ scratch) (h : next? place part = some next) : next.head? ≠ some scratch := by
  unfold next? at h
  split at h
  · cases h
    exact hp
  · split at h
    · cases h
      rw [List.head?_dropLast]
      split
      · exact hp
      · simp
    · split at h
      · cases h
      · cases h
        cases place with
        | nil => simpa using hs
        | cons first rest => simpa using hp

theorem follow_outside {route : List String} {target : Place} (hp : place.head? ≠ some scratch)
    (hs : scratch ∉ route) (h : w.follow place route = .ok target) :
    target.head? ≠ some scratch := by
  induction route generalizing place with
  | nil =>
    cases h
    exact hp
  | cons part rest ih =>
    obtain ⟨_, next, hn, h⟩ := follow_cons_iff.mp h
    rw [List.mem_cons, not_or] at hs
    exact ih (next?_outside hp (Ne.symm hs.1) hn) hs.2 h

theorem Drift.follow_iff (d : Drift scratch touched w w') {route : List String} {target : Place}
    (hp : place.head? ≠ some scratch) (hs : scratch ∉ route) :
    w'.follow place route = .ok target ↔ w.follow place route = .ok target := by
  induction route generalizing place with
  | nil => rfl
  | cons part rest ih =>
    rw [List.mem_cons, not_or] at hs
    rw [follow_cons_iff, follow_cons_iff, d.directories place hp]
    refine and_congr_right fun _ => exists_congr fun next => and_congr_right fun hn => ?_
    exact ih (next?_outside hp (Ne.symm hs.1) hn) hs.2

/-- Paths that do not pass the directory lead to the same places. -/
theorem Drift.locate_iff (d : Drift scratch touched w w') (hw : w.cwd.head? ≠ some scratch)
    {path : String} (hs : scratch ∉ Path.parts path) {target : Place} :
    w'.locate path = .ok target ↔ w.locate path = .ok target := by
  rw [locate_eq_ok_iff, locate_eq_ok_iff, d.cwd]
  refine and_congr_right fun _ => d.follow_iff ?_ hs
  split
  · simp
  · exact hw

theorem locate_outside (hw : w.cwd.head? ≠ some scratch) {path : String}
    (hs : scratch ∉ Path.parts path) {target : Place} (h : w.locate path = .ok target) :
    target.head? ≠ some scratch := by
  refine follow_outside ?_ hs (locate_eq_ok_iff.mp h).2
  split
  · simp
  · exact hw

/-- Where the path of a file in a directory at the root leads. -/
theorem locate_below_root {dir name : String} (hd : '/' ∉ dir.toList) (hn : '/' ∉ name.toList)
    (properd : Path.Proper dir) (propern : Path.Proper name) {target : Place}
    (h : w.locate ("/" ++ dir ++ "/" ++ name) = .ok target) : target = [dir, name] := by
  obtain ⟨_, h⟩ := locate_eq_ok_iff.mp h
  have root : Path.isAbs ("/" ++ dir ++ "/" ++ name) := by simp [Path.isAbs]
  rw [if_pos root, Path.parts_below_root hd hn] at h
  obtain ⟨_, first, hf, h⟩ := follow_cons_iff.mp h
  obtain ⟨_, second, hs, h⟩ := follow_cons_iff.mp h
  obtain ⟨_, third, ht, h⟩ := follow_cons_iff.mp h
  cases h
  cases hf
  rw [next?_of_proper propern ht, next?_of_proper properd hs]
  rfl

end Workspace

end StackLang
