/-!
Finite maps.
-/

namespace StackLang

/-- A finite map: a list of entries in which every key stands at most once. -/
structure Table (κ α : Type) where
  entries : List (κ × α)
  nodup : (entries.map Prod.fst).Nodup

namespace Table

variable {κ α : Type}

def empty : Table κ α :=
  ⟨[], List.nodup_nil⟩

variable [DecidableEq κ]

def get? (t : Table κ α) (key : κ) : Option α :=
  t.entries.lookup key

def contains (t : Table κ α) (key : κ) : Bool :=
  (t.get? key).isSome

def size (t : Table κ α) : Nat :=
  t.entries.length

def erase (t : Table κ α) (key : κ) : Table κ α where
  entries := t.entries.filter fun e => e.1 ≠ key
  nodup := t.nodup.sublist (List.filter_sublist.map _)

def put (t : Table κ α) (key : κ) (a : α) : Table κ α where
  entries := (key, a) :: (t.erase key).entries
  nodup := by
    refine List.nodup_cons.mpr ⟨?_, (t.erase key).nodup⟩
    simp [erase]

def map (f : α → α) (t : Table κ α) : Table κ α where
  entries := t.entries.map fun e => (e.1, f e.2)
  nodup := by simpa [List.map_map, Function.comp_def] using t.nodup

end Table

end StackLang
