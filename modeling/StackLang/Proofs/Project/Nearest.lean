import Mathlib.Data.List.Infix
import Mathlib.Logic.Function.Iterate
import StackLang.Project.Lookup
import StackLang.Proofs.Outcome
import StackLang.Proofs.Project.Places
/-!
The search for a configuration. On the paths of places, going up takes the last name away, so that
the directories that the search asks are those above its start, the nearest first, and the first
one that is its own directory is the root.
-/

namespace StackLang

/-! ### Paths of places -/

namespace Path

/-- Names that stand for themselves in a path and are not divided there. -/
def Whole (name : String) : Prop :=
  Proper name ∧ '/' ∉ name.toList

variable {path name : String} {place : Place} {done : List String}

@[simp] theorem pushPart_empty (rooted : Bool) : pushPart rooted done "" = done := by
  simp [pushPart]

theorem pushPart_of_proper {rooted : Bool} (h : Proper name) :
    pushPart rooted done name = name :: done := by
  obtain ⟨empty, dot, dots⟩ := h
  simp [pushPart, empty, dot, dots]

theorem foldl_pushPart_of_proper {rooted : Bool} {names : List String}
    (h : ∀ name ∈ names, Proper name) :
    names.foldl (pushPart rooted) done = names.reverse ++ done := by
  induction names generalizing done with
  | nil => rfl
  | cons name names ih =>
    obtain ⟨proper, h⟩ := List.forall_mem_cons.mp h
    rw [List.foldl_cons, pushPart_of_proper proper, ih h]
    simp

theorem whole_pushPart {part : String} (hd : ∀ name ∈ done, Whole name)
    (slash : '/' ∉ part.toList) : ∀ name ∈ pushPart true done part, Whole name := by
  unfold pushPart
  split
  next => exact hd
  next named =>
    split
    next =>
      split
      next => simp
      next last rest =>
        -- above the root there is nothing, so two dots never stay
        have proper := (hd last (List.mem_cons_self ..)).1
        rw [if_neg proper.2.2]
        exact fun name hn => hd name (List.mem_cons_of_mem _ hn)
    next dots =>
      rw [not_or] at named
      exact List.forall_mem_cons.mpr ⟨⟨⟨named.1, named.2, dots⟩, slash⟩, hd⟩

theorem whole_of_mem_cleanParts (root : isAbs path = true) :
    ∀ name ∈ cleanParts path, Whole name := by
  have fold (ps : List String) (slash : ∀ part ∈ ps, '/' ∉ part.toList) (done : List String)
      (hd : ∀ name ∈ done, Whole name) : ∀ name ∈ ps.foldl (pushPart true) done, Whole name := by
    induction ps generalizing done with
    | nil => exact hd
    | cons part ps ih =>
      obtain ⟨first, rest⟩ := List.forall_mem_cons.mp slash
      exact ih rest _ (whole_pushPart hd first)
  intro name hn
  rw [cleanParts, root, List.mem_reverse] at hn
  exact fold _ (fun _ => slash_not_mem_part) [] (by simp) name hn

theorem parts_intercalate {ps : List String} (ne : ps ≠ [])
    (slash : ∀ part ∈ ps, '/' ∉ part.toList) : parts ("/".intercalate ps) = ps := by
  rw [parts, String.toList_intercalate]
  have chars : "/".toList = ['/'] := rfl
  rw [chars, List.splitOn_intercalate '/' (by simpa using slash) (by simpa using ne)]
  simp [Function.comp_def]

@[simp] theorem isAbs_placePath (place : Place) : isAbs (placePath place) = true := by
  simp [isAbs, placePath]

theorem placePath_ne_empty (place : Place) : placePath place ≠ "" := by
  intro h
  simpa [h, isAbs] using isAbs_placePath place

theorem clean_of_isAbs (root : isAbs path = true) : clean path = placePath (cleanParts path) := by
  simp [clean, root, placePath]

/-- Below the root, the path of a place is its names after an empty part. -/
theorem placePath_of_ne_nil (ne : place ≠ []) :
    placePath place = "/".intercalate ("" :: place) := by
  rw [String.intercalate_cons_of_ne_nil ne, String.empty_append, placePath]

theorem parts_placePath (ne : place ≠ []) (whole : ∀ name ∈ place, Whole name) :
    parts (placePath place) = "" :: place := by
  have slash : ∀ part ∈ "" :: place, '/' ∉ part.toList :=
    List.forall_mem_cons.mpr ⟨by decide, fun name hn => (whole name hn).2⟩
  rw [placePath_of_ne_nil ne, parts_intercalate (List.cons_ne_nil _ _) slash]

theorem foldl_parts_placePath (whole : ∀ name ∈ place, Whole name) :
    (parts (placePath place)).foldl (pushPart true) [] = place.reverse := by
  by_cases root : place = []
  · subst root
    decide
  · rw [parts_placePath root whole, List.foldl_cons, pushPart_empty,
      foldl_pushPart_of_proper fun name hn => (whole name hn).1, List.append_nil]

theorem cleanParts_placePath (whole : ∀ name ∈ place, Whole name) :
    cleanParts (placePath place) = place := by
  rw [cleanParts, isAbs_placePath, foldl_parts_placePath whole, List.reverse_reverse]

theorem placePath_inj {other : Place} (hp : ∀ name ∈ place, Whole name)
    (ho : ∀ name ∈ other, Whole name) : placePath place = placePath other ↔ place = other := by
  refine ⟨fun same => ?_, fun same => same ▸ rfl⟩
  rw [← cleanParts_placePath hp, same, cleanParts_placePath ho]

theorem join_placePath (whole : ∀ name ∈ place, Whole name) (hn : Whole name) :
    join (placePath place) name = placePath (place ++ [name]) := by
  have root : isAbs (placePath place ++ "/" ++ name) = true := by simp [isAbs, placePath]
  have alone : parts name = [name] := by
    simp [parts, List.splitOn_eq_singleton hn.2]
  rw [join, if_neg (placePath_ne_empty place), clean_of_isAbs root, cleanParts, root,
    parts_append_slash_append, alone, List.foldl_append, foldl_parts_placePath whole,
    List.foldl_cons, List.foldl_nil, pushPart_of_proper hn.1]
  simp

/-- A slash at the end of the path of a place means nothing. -/
theorem clean_placePath_slash (whole : ∀ name ∈ place, Whole name) :
    clean (placePath place ++ "/") = placePath place := by
  have root : isAbs (placePath place ++ "/") = true := by simp [isAbs, placePath]
  rw [clean_of_isAbs root, cleanParts, root, parts_append_slash, List.foldl_append,
    foldl_parts_placePath whole, List.foldl_cons, List.foldl_nil, pushPart_empty,
    List.reverse_reverse]

/-- Going up from a place takes its last name away; from the root there is no way up. -/
theorem dir_placePath (whole : ∀ name ∈ place, Whole name) :
    dir (placePath place) = placePath place.dropLast := by
  obtain rfl | ⟨front, last, rfl⟩ := place.eq_nil_or_concat'
  · decide
  · have above : ∀ name ∈ front, Whole name := fun name hn => whole name (by simp [hn])
    rw [dir, parts_placePath (by simp) whole, ← List.cons_append, List.dropLast_concat,
      List.dropLast_concat]
    dsimp only
    by_cases top : front = []
    · subst top
      decide
    · rw [← placePath_of_ne_nil top, clean_placePath_slash above]

theorem iterate_dir_placePath (whole : ∀ name ∈ place, Whole name) (m : Nat) :
    dir^[m] (placePath place) = placePath (place.take (place.length - m)) := by
  induction m with
  | zero => simp
  | succ m ih =>
    have above : ∀ name ∈ place.take (place.length - m), Whole name :=
      fun name hn => whole name (List.mem_of_mem_take hn)
    rw [Function.iterate_succ_apply', ih, dir_placePath above, List.dropLast_eq_take,
      List.length_take, List.take_take]
    congr 2
    omega

/-- Made absolute, a path is the path of the place that it names. -/
theorem absolute_placePath (cwd : Place) (path : String) :
    let place := cleanParts (absolute (placePath cwd) path)
    absolute (placePath cwd) path = placePath place ∧ ∀ name ∈ place, Whole name := by
  obtain ⟨text, root, same⟩ : ∃ text, isAbs text = true ∧
      absolute (placePath cwd) path = clean text := by
    unfold absolute
    split
    next root => exact ⟨path, root, rfl⟩
    next =>
      rw [join, if_neg (placePath_ne_empty cwd)]
      exact ⟨_, by simp [isAbs, placePath], rfl⟩
  have whole := whole_of_mem_cleanParts root
  rw [same, clean_of_isAbs root, cleanParts_placePath whole]
  exact ⟨rfl, whole⟩

end Path

/-! ### What a workspace shows -/

namespace Workspace

variable {w : Workspace} {place d : Place} {name : String}

/-- Whether a directory of a workspace has an entry of a name, at the end of a path that is not too
long to be followed: every name on the way stands in a directory. -/
structure Contains (w : Workspace) (d : Place) (name : String) : Prop where
  way : ∀ front part, front ++ [part] <+: d ++ [name] →
    w.get? front = some .directory ∧ part.utf8ByteSize ≤ longestName
  entry : (w.get? (d ++ [name])).isSome
  followed : Char.ofNat 0 ∉ (placePath (d ++ [name])).toList ∧
    (placePath (d ++ [name])).utf8ByteSize ≤ longestPath

theorem follow_names_iff {names : List String} (proper : ∀ name ∈ names, Path.Proper name)
    {target : Place} : w.follow place names = .ok target ↔ target = place ++ names ∧
      ∀ front part, front ++ [part] <+: names →
        w.get? (place ++ front) = some .directory ∧ part.utf8ByteSize ≤ longestName := by
  induction names generalizing place with
  | nil =>
    rw [follow, Except.ok.injEq, eq_comm]
    simp
  | cons name names ih =>
    obtain ⟨first, proper⟩ := List.forall_mem_cons.mp proper
    have step {next : Place} : next? place name = some next ↔
        next = place ++ [name] ∧ name.utf8ByteSize ≤ longestName := by
      obtain ⟨empty, dot, dots⟩ := first
      simp only [next?, empty, dot, dots, or_self, if_false]
      split
      next long => exact iff_of_false (by simp) fun h => absurd h.2 (by omega)
      next short =>
        rw [Option.some.injEq, eq_comm]
        exact (and_iff_left (by omega)).symm
    simp only [follow_cons_iff, step, ih proper]
    constructor
    · rintro ⟨here, _, ⟨rfl, short⟩, rfl, way⟩
      refine ⟨by simp, fun front part taken => ?_⟩
      cases front with
      | nil =>
        obtain ⟨rfl, _⟩ := List.cons_prefix_cons.mp taken
        exact ⟨by simpa using here, short⟩
      | cons second front =>
        obtain ⟨rfl, below⟩ := List.cons_prefix_cons.mp taken
        simpa using way front part below
    · rintro ⟨rfl, way⟩
      obtain ⟨here, short⟩ := way [] name (by simp)
      refine ⟨by simpa using here, _, ⟨rfl, short⟩, by simp, fun front part taken => ?_⟩
      simpa using way (name :: front) part (List.cons_prefix_cons.mpr ⟨rfl, taken⟩)

theorem has_eq_true_iff {path : String} : w.has path = true ↔
    ∃ place, w.locate path = .ok place ∧ (w.get? place).isSome := by
  unfold has look
  cases w.locate path with
  | error t => simp
  | ok place => cases h : w.get? place <;> simp [h]

theorem has_placePath_iff (whole : ∀ name ∈ d, Path.Whole name) (hn : Path.Whole name) :
    w.has (placePath (d ++ [name])) = true ↔ w.Contains d name := by
  have names : ∀ part ∈ d ++ [name], Path.Whole part := by
    simpa [or_imp, forall_and, hn] using whole
  have route {target : Place} :
      w.follow [] (Path.parts (placePath (d ++ [name]))) = .ok target ↔ target = d ++ [name] ∧
        ∀ front part, front ++ [part] <+: d ++ [name] →
          w.get? front = some .directory ∧ part.utf8ByteSize ≤ longestName := by
    rw [Path.parts_placePath (by simp) names, follow_cons_iff]
    simp [next?, get?, follow_names_iff fun part hp => (names part hp).1]
  simp only [has_eq_true_iff, locate_eq_ok_iff, Path.isAbs_placePath, if_true, route]
  constructor
  · rintro ⟨_, ⟨⟨_, clear, short⟩, rfl, way⟩, entry⟩
    exact ⟨way, entry, by simpa using clear, by omega⟩
  · rintro ⟨way, entry, clear, short⟩
    exact ⟨_, ⟨⟨Path.placePath_ne_empty _, by simpa using clear, by omega⟩, rfl, way⟩, entry⟩

end Workspace

/-! ### The search -/

namespace Config

theorem path_of_parse {text path : String} {c : Config} (h : parse text path = .ok c) :
    c.path = path := by
  unfold parse at h
  split at h
  next => cases h
  next document _ =>
    split at h
    next => cases h
    next settings known _ =>
      dsimp only at h
      split at h
      next =>
        obtain ⟨_, _, rfl⟩ := map_eq_ok.mp h
        rfl
      next => cases h

end Config

namespace Disk

variable {k : Disk} {place d : Place}

/-- Whether the file system shows an entry with the name of the configuration file in a
directory. -/
def Holds (k : Disk) (d : Place) : Prop :=
  k.has (placePath (d ++ [Config.fileName])) = true

instance (k : Disk) (d : Place) : Decidable (k.Holds d) :=
  inferInstanceAs (Decidable (_ = true))

/-- The deepest directory that has a configuration, among a directory and those above it. -/
structure Nearest (k : Disk) (start d : Place) : Prop where
  above : d <+: start
  holds : k.Holds d
  deepest : ∀ e, e <+: start → k.Holds e → e.length ≤ d.length

theorem whole_fileName : Path.Whole Config.fileName := by
  unfold Path.Whole Path.Proper
  decide

/-- What is done in one directory on the way up. -/
theorem searchConfig_placePath (whole : ∀ name ∈ place, Path.Whole name) :
    k.searchConfig (placePath place) =
      if k.Holds place then k.loadConfig (placePath place)
      else if place = [] then .ok .usual else k.searchConfig (placePath place.dropLast) := by
  have above : ∀ name ∈ place.dropLast, Path.Whole name :=
    fun name hn => whole name (List.mem_of_mem_dropLast hn)
  have top : placePath place.dropLast = placePath place ↔ place = [] := by
    rw [Path.placePath_inj above whole]
    constructor
    · intro same
      have length := congrArg List.length same
      rw [List.length_dropLast] at length
      exact List.eq_nil_of_length_eq_zero (by omega)
    · rintro rfl
      rfl
  rw [searchConfig, Path.join_placePath whole whole_fileName, Path.dir_placePath whole]
  simp only [top]
  rfl

/-- Where a directory has no configuration, those that have one are above it. -/
theorem prefix_of_not_holds {front : Place} {last : String} (here : ¬ k.Holds (front ++ [last]))
    (hd : d <+: front ++ [last]) (holds : k.Holds d) : d <+: front := by
  obtain same | above := List.prefix_concat_iff.mp hd
  · exact absurd (same ▸ holds) here
  · exact above

theorem searchConfig_of_nearest (whole : ∀ name ∈ place, Path.Whole name)
    (h : k.Nearest place d) : k.searchConfig (placePath place) = k.loadConfig (placePath d) := by
  induction place using List.reverseRecOn with
  | nil =>
    obtain rfl := List.prefix_nil.mp h.above
    rw [searchConfig_placePath whole, if_pos h.holds]
  | append_singleton front last ih =>
    rw [searchConfig_placePath whole]
    by_cases here : k.Holds (front ++ [last])
    · have same : d = front ++ [last] :=
        h.above.eq_of_length_le (h.deepest _ (List.prefix_refl _) here)
      rw [if_pos here, same]
    · have above := prefix_of_not_holds here h.above h.holds
      rw [if_neg here, if_neg (by simp), List.dropLast_concat]
      refine ih (fun name hn => whole name (by simp [hn])) ⟨above, h.holds, fun e he => ?_⟩
      exact h.deepest e (he.trans (List.prefix_append _ _))

theorem searchConfig_of_none (whole : ∀ name ∈ place, Path.Whole name)
    (h : ∀ d, d <+: place → ¬ k.Holds d) : k.searchConfig (placePath place) = .ok .usual := by
  induction place using List.reverseRecOn with
  | nil => rw [searchConfig_placePath whole, if_neg (h [] (List.prefix_refl _)), if_pos rfl]
  | append_singleton front last ih =>
    rw [searchConfig_placePath whole, if_neg (h _ (List.prefix_refl _)), if_neg (by simp),
      List.dropLast_concat]
    refine ih (fun name hn => whole name (by simp [hn])) fun d hd => ?_
    exact h d (hd.trans (List.prefix_append _ _))

theorem exists_nearest (hd : d <+: place) (holds : k.Holds d) : ∃ d, k.Nearest place d := by
  induction place using List.reverseRecOn with
  | nil =>
    obtain rfl := List.prefix_nil.mp hd
    exact ⟨[], hd, holds, fun e he _ => he.length_le⟩
  | append_singleton front last ih =>
    by_cases here : k.Holds (front ++ [last])
    · exact ⟨_, List.prefix_refl _, here, fun e he _ => he.length_le⟩
    · obtain ⟨d, nearest⟩ := ih (prefix_of_not_holds here hd holds)
      refine ⟨d, nearest.above.trans (List.prefix_append _ _), nearest.holds, ?_⟩
      exact fun e he holds => nearest.deepest e (prefix_of_not_holds here he holds) holds

/-- Settings that were read know their file. -/
theorem path_of_loadConfig {dir : String} {c : Config} (h : k.loadConfig dir = .ok c) :
    c.path = Path.join dir Config.fileName := by
  unfold loadConfig at h
  dsimp only at h
  split at h
  next => cases h
  next =>
    split at h
    next => cases h
    next text _ =>
      cases parsed : Config.parse text (Path.join dir Config.fileName) with
      | error problem =>
        rw [parsed] at h
        cases h
      | ok settings =>
        rw [parsed] at h
        cases h
        exact Config.path_of_parse parsed

theorem loadConfig_ne_usual (whole : ∀ name ∈ place, Path.Whole name) :
    k.loadConfig (placePath place) ≠ .ok .usual := by
  intro h
  have path := path_of_loadConfig h
  rw [Path.join_placePath whole whole_fileName] at path
  exact Path.placePath_ne_empty _ path.symm

/-- What the search for a configuration promises. -/
structure NearestWins (k : Disk) (start : String) : Prop where
  /-- The start is the path of a place: every name in it stands for itself. -/
  begins : k.absolute start = placePath (k.namedPlace start) ∧
    ∀ name ∈ k.namedPlace start, Path.Whole name
  /-- The deepest configuration counts, whether it can be used or not. -/
  nearest : ∀ d, k.Nearest (k.namedPlace start) d →
    k.configFor start = k.loadConfig (placePath d)
  /-- Where there is any configuration, there is a deepest one. -/
  found : (∃ d, d <+: k.namedPlace start ∧ k.Holds d) → ∃ d, k.Nearest (k.namedPlace start) d
  /-- The usual settings hold exactly where there is none. -/
  usual : k.configFor start = .ok .usual ↔ ¬ ∃ d, d <+: k.namedPlace start ∧ k.Holds d
  /-- The first directory on the way up that is its own directory is the root. -/
  root : ∃ n, Path.dir^[n] (k.absolute start) = "/" ∧ ∀ m,
    Path.dir^[m + 1] (k.absolute start) = Path.dir^[m] (k.absolute start) ↔ n ≤ m
  /-- In a workspace, to have a configuration is to contain an entry of its name. -/
  shown : ∀ w : Workspace, k.has = w.has → ∀ d, d <+: k.namedPlace start →
    (k.Holds d ↔ w.Contains d Config.fileName)

/-- The way up from a place is as long as the place is deep. -/
theorem iterate_dir_fixed_iff (whole : ∀ name ∈ place, Path.Whole name) (m : Nat) :
    Path.dir^[m + 1] (placePath place) = Path.dir^[m] (placePath place) ↔ place.length ≤ m := by
  have above (n : Nat) : ∀ name ∈ place.take n, Path.Whole name :=
    fun name hn => whole name (List.mem_of_mem_take hn)
  rw [Path.iterate_dir_placePath whole, Path.iterate_dir_placePath whole,
    Path.placePath_inj (above _) (above _)]
  constructor
  · intro same
    have length := congrArg List.length same
    rw [List.length_take, List.length_take] at length
    omega
  · intro top
    congr 1
    omega

/-- A workspace with a configuration at its root and another one further down. -/
def nested : Workspace :=
  (({ cwd := ["home"] } : Workspace).addFile [Config.fileName] []).addFile
    ["home", "a", Config.fileName] (Text.bytesOf "[codegen]")

/-- The same files, none of which may be read. -/
def sealed : Disk :=
  { nested.disk with read := fun path => .error ⟨.opening, path, .denied⟩ }

end Disk

end StackLang
