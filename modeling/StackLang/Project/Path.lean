/-!
Paths of files, as texts in which slashes divide the parts. The directory of a path is a smaller
path, unless it is the path itself, so that going up from any path comes to an end.
-/

namespace StackLang.Path

def parts (path : String) : List String :=
  (path.toList.splitOn '/').map String.ofList

def isAbs (path : String) : Bool :=
  path.toList.head? = some '/'

/-- Adds a part to the parts so far, the last one in front: an empty part or a dot changes
nothing, and two dots take a part away, unless there is none to take. -/
def pushPart (rooted : Bool) (done : List String) (part : String) : List String :=
  if part = "" ∨ part = "." then done
  else if part = ".." then
    match done with
    | [] => if rooted then [] else [".."]
    | last :: rest => if last = ".." then ".." :: done else rest
  else part :: done

/-- The parts of a path after all simplifications. -/
def cleanParts (path : String) : List String :=
  ((parts path).foldl (pushPart (isAbs path)) []).reverse

/-- The shortest path that means the same, without regard to what is on the disk. -/
def clean (path : String) : String :=
  let body := "/".intercalate (cleanParts path)
  if isAbs path then "/" ++ body
  else if body = "" then "."
  else body

def join (dir path : String) : String :=
  if dir = "" then (if path = "" then "" else clean path) else clean (dir ++ "/" ++ path)

/-- The directory of a path: everything up to its last slash. -/
def dir (path : String) : String :=
  match (parts path).dropLast with
  | [] => "."
  | front => clean ("/".intercalate front ++ "/")

def base (path : String) : String :=
  if path = "" then "."
  else ((parts path).filter (· ≠ "")).getLast?.getD "/"

/-- The extension of a path: from the last dot of its last part on. -/
def ext (path : String) : String :=
  match ((parts path).getLast?.getD "").toList.splitOn '.' with
  | [] => ""
  | [_] => ""
  | pieces => String.ofList ('.' :: pieces.getLast?.getD [])

/-- A path without an ending, if it has that ending. -/
def dropEnding (path ending : String) : String :=
  let cs := path.toList
  let es := ending.toList
  if es.isSuffixOf cs then String.ofList (cs.take (cs.length - es.length)) else path

/-- The absolute path that a path means in a directory. -/
def absolute (cwd path : String) : String :=
  if isAbs path then clean path else join cwd path

/-! ### Going up -/

/-- How many characters parts take up in a path, if a slash follows each of them. -/
def extent : List String → Nat
  | [] => 0
  | part :: ps => part.length + 1 + extent ps

theorem extent_append (ps qs : List String) : extent (ps ++ qs) = extent ps + extent qs := by
  induction ps with
  | nil => simp [extent]
  | cons part ps ih =>
    rw [List.cons_append, extent, extent, ih]
    omega

theorem extent_reverse (ps : List String) : extent ps.reverse = extent ps := by
  induction ps with
  | nil => rfl
  | cons part ps ih =>
    rw [List.reverse_cons, extent_append, ih]
    simp only [extent]
    omega

theorem extent_pos {ps : List String} (h : ps ≠ []) : 0 < extent ps := by
  cases ps with
  | nil => exact absurd rfl h
  | cons part ps =>
    rw [extent]
    omega

theorem length_intercalate (ps : List String) : ("/".intercalate ps).length = extent ps - 1 := by
  cases ps with
  | nil => rfl
  | cons part ps =>
    induction ps generalizing part with
    | nil => simp [extent]
    | cons next ps ih =>
      have slash : "/".length = 1 := rfl
      rw [String.intercalate_cons_cons, String.length_append, String.length_append, slash, ih]
      simp only [extent]
      omega

theorem parts_ne_nil (path : String) : parts path ≠ [] := by
  simp [parts]

theorem intercalate_parts (path : String) : "/".intercalate (parts path) = path := by
  apply String.toList_inj.mp
  rw [String.toList_intercalate, parts, List.map_map]
  simp [Function.comp_def, List.intercalate_splitOn]

theorem extent_parts (path : String) : extent (parts path) = path.length + 1 := by
  have length := length_intercalate (parts path)
  have pos := extent_pos (parts_ne_nil path)
  rw [intercalate_parts] at length
  omega

/-- A slash divides the parts before it from those after it. -/
theorem parts_append_slash_append (path rest : String) :
    parts (path ++ "/" ++ rest) = parts path ++ parts rest := by
  have chars (cs ds : List Char) :
      (cs ++ '/' :: ds).splitOn '/' = cs.splitOn '/' ++ ds.splitOn '/' := by
    induction cs with
    | nil => simp [List.splitOn_cons_eq_if_modifyHead]
    | cons c cs ih =>
      obtain ⟨first, others, split⟩ := List.exists_cons_of_ne_nil (List.splitOn_ne_nil '/' cs)
      rw [List.cons_append, List.splitOn_cons_eq_if_modifyHead, List.splitOn_cons_eq_if_modifyHead,
        ih, split]
      split <;> simp
  simp [parts, chars]

theorem parts_append_slash (path : String) : parts (path ++ "/") = parts path ++ [""] := by
  have empty : parts "" = [""] := by decide
  simpa only [String.append_empty, empty] using parts_append_slash_append path ""

/-- A slash at the beginning of a path follows an empty part. -/
theorem head?_parts {path : String} (h : isAbs path = true) : (parts path).head? = some "" := by
  obtain ⟨cs, hcs⟩ : ∃ cs, path.toList = '/' :: cs :=
    List.head?_eq_some_iff.mp (of_decide_eq_true h)
  simp [parts, hcs, List.splitOn_cons_eq_if_modifyHead]

theorem extent_pushPart (rooted : Bool) (done : List String) (part : String) :
    extent (pushPart rooted done part) ≤
      extent done + if part = "" then 0 else part.length + 1 := by
  unfold pushPart
  split
  next => omega
  next named =>
    rw [not_or] at named
    rw [if_neg named.1]
    split
    next dots =>
      subst dots
      split
      next =>
        split
        next => exact Nat.zero_le _
        next => exact Nat.le_of_eq (Nat.add_comm _ _)
      next last rest =>
        have length : "..".length = 2 := rfl
        split <;> simp only [extent, length] <;> omega
    next =>
      rw [extent]
      omega

theorem extent_foldl_pushPart (rooted : Bool) (done ps : List String) :
    extent (ps.foldl (pushPart rooted) done) + ps.count "" ≤ extent done + extent ps := by
  induction ps generalizing done with
  | nil => simp
  | cons part ps ih =>
    have step := extent_pushPart rooted done part
    have rest := ih (pushPart rooted done part)
    rw [List.foldl_cons, List.count_cons, extent]
    by_cases empty : part = ""
    · rw [if_pos empty] at step
      simp only [empty, BEq.rfl, if_true] at step rest ⊢
      omega
    · rw [if_neg empty] at step
      rw [if_neg (by simpa using empty)]
      omega

/-- Cleaning takes every empty part away. -/
theorem extent_cleanParts (path : String) :
    extent (cleanParts path) + (parts path).count "" ≤ path.length + 1 := by
  have bound := extent_foldl_pushPart (isAbs path) [] (parts path)
  rw [extent_parts, extent, Nat.zero_add] at bound
  rw [cleanParts, extent_reverse]
  exact bound

/-- The directory of a path with a slash is what stands before its last slash. -/
theorem dir_cases (path : String) : dir path = "." ∨
    ∃ above last, path = above ++ "/" ++ last ∧ dir path = clean (above ++ "/") := by
  obtain ⟨front, last, split⟩ : ∃ front last, parts path = front ++ [last] :=
    ⟨_, _, (List.dropLast_concat_getLast (parts_ne_nil path)).symm⟩
  rw [dir, split, List.dropLast_concat]
  cases front with
  | nil => exact .inl rfl
  | cons first front =>
    refine .inr ⟨"/".intercalate (first :: front), last, ?_, rfl⟩
    rw [← intercalate_parts path, split,
      String.intercalate_append_of_ne_nil (List.cons_ne_nil _ _) (List.cons_ne_nil _ _),
      String.intercalate_singleton]

/-- A slash at the end of a path does not survive cleaning, unless it stands for the root. -/
theorem clean_append_slash (path : String) : clean (path ++ "/") = "." ∨
    clean (path ++ "/") = "/" ∨ (clean (path ++ "/")).length ≤ path.length := by
  have bound := extent_cleanParts (path ++ "/")
  have slash : "/".length = 1 := rfl
  rw [parts_append_slash, List.count_append, List.count_singleton_self, String.length_append,
    slash] at bound
  have length := length_intercalate (cleanParts (path ++ "/"))
  unfold clean
  dsimp only
  split
  next root =>
    have first := head?_parts root
    obtain ⟨part, rest, split⟩ := List.exists_cons_of_ne_nil (parts_ne_nil path)
    rw [parts_append_slash, split, List.cons_append, List.head?_cons, Option.some.injEq] at first
    have empty : 0 < (parts path).count "" := by simp [split, first]
    by_cases none : cleanParts (path ++ "/") = []
    · exact .inr (.inl (by rw [none]; rfl))
    · have pos := extent_pos none
      refine .inr (.inr ?_)
      rw [String.length_append, slash]
      omega
  next =>
    split
    · exact .inl rfl
    · exact .inr (.inr (by omega))

/-- What a path has to lose on the way up. The dot, at which relative paths end, has nothing. -/
def size (path : String) : Nat :=
  if path = "." then 0 else path.length + 1

theorem size_dir_lt {path : String} (h : dir path ≠ path) : size (dir path) < size path := by
  by_cases dot : dir path = "."
  · rw [dot] at h ⊢
    simp [size, Ne.symm h]
  · have shorter : (dir path).length < path.length := by
      obtain ⟨above, last, whole, up⟩ := (dir_cases path).resolve_left dot
      have slash : "/".length = 1 := rfl
      have length : path.length = above.length + 1 + last.length := by
        rw [whole, String.length_append, String.length_append, slash]
      rw [up] at h dot ⊢
      obtain root | short := (clean_append_slash above).resolve_left dot
      · rw [root] at h ⊢
        refine Nat.lt_of_not_le fun few => ?_
        rw [slash] at few
        have empty : above = "" ∧ last = "" := by
          constructor <;> apply String.length_eq_zero_iff.mp <;> omega
        rw [whole, empty.1, empty.2] at h
        exact h rfl
      · omega
    have here : path ≠ "." := by
      rintro rfl
      exact dot (by decide)
    simp only [size, dot, here, if_false]
    omega

end StackLang.Path
