import Mathlib.Algebra.Group.Int.Defs
import Mathlib.Algebra.Group.Nat.Defs
/-!
Memory by bytes: numbers of several bytes, the lowest byte first, read from it and written to it.
What a run shows to the outside, and what the outside answers.
-/

namespace StackLang

/-- A machine word. -/
abbrev Word := BitVec 64

/-- The bytes at all addresses. -/
abbrev Ram := Word → BitVec 8

namespace Ram

/-- The number in some bytes from an address on. -/
def load (ram : Ram) (a : Word) : Nat → Nat
  | 0 => 0
  | n + 1 => ram.load a n + 256 ^ n * (ram (a + BitVec.ofNat 64 n)).toNat

/-- The memory with a number written to some bytes from an address on. -/
def store (ram : Ram) (a : Word) (n v : Nat) : Ram := fun b =>
  if (b - a).toNat < n then BitVec.ofNat 8 (v / 256 ^ (b - a).toNat) else ram b

/-- The word at an address. -/
def word (ram : Ram) (a : Word) : Word :=
  BitVec.ofNat 64 (ram.load a 8)

/-- The memory with a word written to an address. -/
def putWord (ram : Ram) (a v : Word) : Ram :=
  ram.store a 8 v.toNat

variable {ram ram' : Ram} {a b : Word} {n k v : Nat}

theorem word_of_zeros (zeros : ∀ i < 8, ram (a + BitVec.ofNat 64 i) = 0) : ram.word a = 0 := by
  have none : ∀ n ≤ 8, ram.load a n = 0 := by
    intro n hn
    induction n with
    | zero => rfl
    | succ n ih =>
      rw [load, ih (by omega), zeros n hn]
      rfl
  rw [word, none 8 (Nat.le_refl 8)]
  rfl

theorem load_congr (h : ∀ i < n, ram (a + BitVec.ofNat 64 i) = ram' (a + BitVec.ofNat 64 i)) :
    ram.load a n = ram'.load a n := by
  induction n with
  | zero => rfl
  | succ n ih =>
    rw [load, load, ih fun i hi => h i (by omega), h n (by omega)]

theorem load_lt (ram : Ram) (a : Word) (n : Nat) : ram.load a n < 256 ^ n := by
  induction n with
  | zero => simp [load]
  | succ n ih =>
    have hb : (ram (a + BitVec.ofNat 64 n)).toNat ≤ 255 := by omega
    have hm := Nat.mul_le_mul_left (256 ^ n) hb
    rw [load, Nat.pow_succ]
    omega

theorem add_sub_toNat (h : n < 2 ^ 64) : (a + BitVec.ofNat 64 n - a).toNat = n := by
  have := a.isLt
  rw [BitVec.toNat_sub, BitVec.toNat_add, BitVec.toNat_ofNat]
  omega

theorem load_store (hk : k ≤ n) (hn : n ≤ 8) : (ram.store a n v).load a k = v % 256 ^ k := by
  induction k with
  | zero => simp [load, Nat.mod_one]
  | succ k ih =>
    have hd : (a + BitVec.ofNat 64 k - a).toNat = k := add_sub_toNat (by omega)
    rw [load, ih (by omega), Nat.mod_pow_succ, store, hd, if_pos (by omega), BitVec.toNat_ofNat]

/-- Only the low bytes of a number are written. -/
theorem store_mod : ram.store a n (v % 256 ^ n) = ram.store a n v := by
  funext b
  unfold store
  split
  next h =>
    generalize (b - a).toNat = k at h
    have split : 256 ^ n = 256 ^ k * 256 ^ (n - k) := by
      rw [← Nat.pow_add]
      congr 1
      omega
    have factor : 256 ∣ 256 ^ (n - k) := by
      have power := Nat.pow_dvd_pow 256 (show 1 ≤ n - k by omega)
      rwa [Nat.pow_one] at power
    refine BitVec.eq_of_toNat_eq ?_
    rw [BitVec.toNat_ofNat, BitVec.toNat_ofNat, split, Nat.mod_mul_right_div_self]
    exact Nat.mod_mod_of_dvd _ factor
  next => rfl

/-- Bytes that lie apart: neither run goes over the end of the address space. -/
structure Apart (a : Word) (n : Nat) (b : Word) (k : Nat) : Prop where
  left : a.toNat + n ≤ 2 ^ 64
  right : b.toNat + k ≤ 2 ^ 64
  order : a.toNat + n ≤ b.toNat ∨ b.toNat + k ≤ a.toNat

theorem store_apart (h : Apart a n b k) {i : Nat} (hi : i < k) :
    ram.store a n v (b + BitVec.ofNat 64 i) = ram (b + BitVec.ofNat 64 i) := by
  obtain ⟨left, right, order⟩ := h
  have hb : (b + BitVec.ofNat 64 i).toNat = b.toNat + i := by
    rw [BitVec.toNat_add, BitVec.toNat_ofNat]
    omega
  refine if_neg ?_
  rw [BitVec.toNat_sub, hb]
  omega

theorem load_store_apart (h : Apart a n b k) : (ram.store a n v).load b k = ram.load b k :=
  load_congr fun _ hi => store_apart h hi

@[simp] theorem word_putWord (ram : Ram) (a v : Word) : (ram.putWord a v).word a = v := by
  have hv : v.toNat % 256 ^ 8 = v.toNat := Nat.mod_eq_of_lt v.isLt
  rw [word, putWord, load_store (Nat.le_refl 8) (Nat.le_refl 8), hv, BitVec.ofNat_toNat,
    BitVec.setWidth_eq]

theorem word_putWord_apart {w : Word} (h : Apart a 8 b 8) :
    (ram.putWord a w).word b = ram.word b := by
  rw [word, word, putWord, load_store_apart h]

theorem putWord_apart {w : Word} (h : Apart a 8 b 1) : ram.putWord a w b = ram b := by
  have hb : ram.store a 8 w.toNat (b + BitVec.ofNat 64 0) = ram (b + BitVec.ofNat 64 0) :=
    store_apart h (by omega)
  simpa [putWord] using hb

/-- The memory with single bytes written to it, in order. -/
def patch (ram : Ram) : List (Word × BitVec 8) → Ram
  | [] => ram
  | (a, b) :: rest => patch (fun x => if x = a then b else ram x) rest

theorem patch_of_not_mem {writes : List (Word × BitVec 8)} (h : a ∉ writes.map Prod.fst) :
    ram.patch writes a = ram a := by
  induction writes generalizing ram with
  | nil => rfl
  | cons e rest ih =>
    obtain ⟨b, v⟩ := e
    rw [List.map_cons, List.mem_cons, not_or] at h
    rw [patch, ih h.2, if_neg h.1]

theorem patch_congr {writes : List (Word × BitVec 8)} (h : ram a = ram' a) :
    ram.patch writes a = ram'.patch writes a := by
  induction writes generalizing ram ram' with
  | nil => exact h
  | cons e rest ih =>
    refine ih ?_
    simp only [h]

end Ram

/-- What the system does on a call: it gives back a value after writing to memory, or it ends the
process. -/
inductive Response where
  | returns (value : Word) (writes : List (Word × BitVec 8))
  | exits (status : Word)

/-- What can be seen of a run: a number printed, or a system call with the values it takes and the
memory that the system sees. -/
inductive Event where
  | put (value : Word)
  | syscall (values : List Word) (ram : Ram)

end StackLang
