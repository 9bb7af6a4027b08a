import StackLang.Text.Utf8
/-!
Bytes that are read without a stray are the encoding of the characters that are read, and the
encoding of characters is read as these characters.
-/

namespace StackLang.Text

theorem continuation?_eq_some {b : UInt8} {x : Nat} (h : continuation? b = some x) :
    x < 64 ∧ b.toNat = x + 0x80 := by
  unfold continuation? at h
  split at h
  next hb => cases Option.some.inj h; omega
  next => simp at h

theorem toNat_ofNat_of_isValidChar {n : Nat} (h : n.isValidChar) : (Char.ofNat n).toNat = n := by
  rw [Char.ofNat, dif_pos h]
  rfl

theorem scalar?_eq_some {least code : Nat} {c : Char} (h : scalar? least code = some c) :
    least ≤ code ∧ c.val.toNat = code := by
  unfold scalar? at h
  split at h
  next hb =>
    cases Option.some.inj h
    exact ⟨hb.1, toNat_ofNat_of_isValidChar hb.2⟩
  next => simp at h

theorem ofNat_of_toNat {b : UInt8} {n : Nat} (h : b.toNat = n) : UInt8.ofNat n = b := by
  rw [← h, UInt8.ofNat_toNat]

theorem utf8EncodeChar_two {a b : UInt8} {x : Nat} {c : Char}
    (lead : 0xc0 ≤ a.toNat ∧ a.toNat < 0xe0) (hx : continuation? b = some x)
    (hc : scalar? 0x80 ((a.toNat - 0xc0) * 64 + x) = some c) :
    String.utf8EncodeChar c = [a, b] := by
  obtain ⟨hlow, hval⟩ := scalar?_eq_some hc
  obtain ⟨hxl, hb⟩ := continuation?_eq_some hx
  simp only [String.utf8EncodeChar, hval]
  rw [if_neg (by omega), if_pos (by omega), ofNat_of_toNat (b := a) (by omega),
    ofNat_of_toNat (b := b) (by omega)]

theorem utf8EncodeChar_three {a b b' : UInt8} {x y : Nat} {c : Char}
    (lead : 0xe0 ≤ a.toNat ∧ a.toNat < 0xf0) (hx : continuation? b = some x)
    (hy : continuation? b' = some y)
    (hc : scalar? 0x800 ((a.toNat - 0xe0) * 4096 + x * 64 + y) = some c) :
    String.utf8EncodeChar c = [a, b, b'] := by
  obtain ⟨hlow, hval⟩ := scalar?_eq_some hc
  obtain ⟨hxl, hb⟩ := continuation?_eq_some hx
  obtain ⟨hyl, hb'⟩ := continuation?_eq_some hy
  simp only [String.utf8EncodeChar, hval]
  rw [if_neg (by omega), if_neg (by omega), if_pos (by omega),
    ofNat_of_toNat (b := a) (by omega), ofNat_of_toNat (b := b) (by omega),
    ofNat_of_toNat (b := b') (by omega)]

theorem utf8EncodeChar_four {a b b' b'' : UInt8} {x y z : Nat} {c : Char}
    (lead : 0xf0 ≤ a.toNat ∧ a.toNat < 0xf8) (hx : continuation? b = some x)
    (hy : continuation? b' = some y) (hz : continuation? b'' = some z)
    (hc : scalar? 0x10000 ((a.toNat - 0xf0) * 262144 + x * 4096 + y * 64 + z) = some c) :
    String.utf8EncodeChar c = [a, b, b', b''] := by
  obtain ⟨hlow, hval⟩ := scalar?_eq_some hc
  obtain ⟨hxl, hb⟩ := continuation?_eq_some hx
  obtain ⟨hyl, hb'⟩ := continuation?_eq_some hy
  obtain ⟨hzl, hb''⟩ := continuation?_eq_some hz
  simp only [String.utf8EncodeChar, hval]
  rw [if_neg (by omega), if_neg (by omega), if_neg (by omega),
    ofNat_of_toNat (b := a) (by omega), ofNat_of_toNat (b := b) (by omega),
    ofNat_of_toNat (b := b') (by omega), ofNat_of_toNat (b := b'') (by omega)]

/-- A character that is read stands in the bytes in its one well-formed spelling. -/
theorem utf8EncodeChar_of_character? {a : UInt8} {rest : List UInt8} {c : Char} {n : Nat}
    (h : character? a rest = some (c, n)) : String.utf8EncodeChar c = a :: rest.take n := by
  unfold character? at h
  simp only at h
  split at h
  next one =>
    simp only [Option.some.injEq, Prod.mk.injEq] at h
    obtain ⟨rfl, rfl⟩ := h
    have hc : (Char.ofNat a.toNat).val.toNat = a.toNat :=
      toNat_ofNat_of_isValidChar (Or.inl (by omega))
    simp [String.utf8EncodeChar, hc, show a.toNat ≤ 127 by omega]
  next many =>
    split at h
    next => simp at h
    next lead =>
      split at h
      next two =>
        split at h
        next b tail =>
          obtain ⟨x, hx, h⟩ := Option.bind_eq_some_iff.mp h
          obtain ⟨d, hd, h⟩ := Option.bind_eq_some_iff.mp h
          obtain ⟨rfl, rfl⟩ := Prod.mk.inj (Option.some.inj h)
          exact utf8EncodeChar_two ⟨Nat.le_of_not_lt lead, two⟩ hx hd
        next => simp at h
      next lead =>
        split at h
        next three =>
          split at h
          next b b' tail =>
            obtain ⟨x, hx, h⟩ := Option.bind_eq_some_iff.mp h
            obtain ⟨y, hy, h⟩ := Option.bind_eq_some_iff.mp h
            obtain ⟨d, hd, h⟩ := Option.bind_eq_some_iff.mp h
            obtain ⟨rfl, rfl⟩ := Prod.mk.inj (Option.some.inj h)
            exact utf8EncodeChar_three ⟨Nat.le_of_not_lt lead, three⟩ hx hy hd
          next => simp at h
        next lead =>
          split at h
          next four =>
            split at h
            next b b' b'' tail =>
              obtain ⟨x, hx, h⟩ := Option.bind_eq_some_iff.mp h
              obtain ⟨y, hy, h⟩ := Option.bind_eq_some_iff.mp h
              obtain ⟨z, hz, h⟩ := Option.bind_eq_some_iff.mp h
              obtain ⟨d, hd, h⟩ := Option.bind_eq_some_iff.mp h
              obtain ⟨rfl, rfl⟩ := Prod.mk.inj (Option.some.inj h)
              exact utf8EncodeChar_four ⟨Nat.le_of_not_lt lead, four⟩ hx hy hz hd
            next => simp at h
          next => simp at h

theorem glyphsFrom_eq_drop (skip : Nat) (bytes : List UInt8) :
    glyphsFrom skip bytes = glyphs (bytes.drop skip) := by
  induction bytes generalizing skip with
  | nil => cases skip <;> rfl
  | cons a rest ih =>
    cases skip with
    | zero => rfl
    | succ skip => exact ih skip

theorem glyphs_cons (a : UInt8) (rest : List UInt8) :
    glyphs (a :: rest) =
      match character? a rest with
      | some (c, more) => .char c :: glyphs (rest.drop more)
      | none => .stray :: glyphs rest := by
  change glyphsFrom 0 (a :: rest) = _
  rw [glyphsFrom]
  cases character? a rest with
  | none => rfl
  | some read => exact congrArg _ (glyphsFrom_eq_drop read.2 rest)

/-- Reading meets no stray exactly if the bytes encode the characters read. -/
theorem encoding_of_glyphs {bytes : List UInt8} {cs : List Char}
    (h : glyphs bytes = cs.map .char) : bytes = cs.flatMap String.utf8EncodeChar := by
  induction cs generalizing bytes with
  | nil =>
    cases bytes with
    | nil => rfl
    | cons a rest =>
      rw [glyphs_cons] at h
      split at h <;> simp at h
  | cons c cs ih =>
    cases bytes with
    | nil => simp [glyphs, glyphsFrom] at h
    | cons a rest =>
      rw [glyphs_cons] at h
      split at h
      next d more hd =>
        simp only [List.map_cons, List.cons.injEq, Glyph.char.injEq] at h
        obtain ⟨rfl, h⟩ := h
        rw [List.flatMap_cons, utf8EncodeChar_of_character? hd, ← ih h, List.cons_append,
          List.take_append_drop]
      next => simp at h

/-! ### Reading what was encoded -/

theorem scalar?_toNat {c : Char} {least : Nat} (h : least ≤ c.val.toNat) :
    scalar? least c.val.toNat = some c := by
  have valid : c.val.toNat.isValidChar := c.valid
  rw [scalar?, if_pos ⟨h, valid⟩]
  exact congrArg some (Char.ofNat_toNat c)

theorem toNat_ofNat_of_byte {n : Nat} (h : n < 256) : (UInt8.ofNat n).toNat = n :=
  UInt8.toNat_ofNat_of_lt' h

theorem continuation?_ofNat (x : Nat) :
    continuation? (UInt8.ofNat (x % 64 + 0x80)) = some (x % 64) := by
  rw [continuation?, toNat_ofNat_of_byte (by omega), if_pos (by omega), Nat.add_sub_cancel]

section

variable {a b b' b'' : UInt8} {x y z : Nat} {c : Char}

theorem character?_one (lead : a.toNat < 0x80) (rest : List UInt8) :
    character? a rest = some (Char.ofNat a.toNat, 0) :=
  if_pos lead

theorem character?_two (lead : 0xc0 ≤ a.toNat ∧ a.toNat < 0xe0) (hx : continuation? b = some x)
    (hc : scalar? 0x80 ((a.toNat - 0xc0) * 64 + x) = some c) (rest : List UInt8) :
    character? a (b :: rest) = some (c, 1) := by
  have read : character? a (b :: rest) = (do
      let x ← continuation? b
      return (← scalar? 0x80 ((a.toNat - 0xc0) * 64 + x), 1)) :=
    (if_neg (by omega)).trans ((if_neg (by omega)).trans (if_pos lead.2))
  rw [read]
  exact Option.bind_eq_some_iff.mpr ⟨x, hx, Option.bind_eq_some_iff.mpr ⟨c, hc, rfl⟩⟩

theorem character?_three (lead : 0xe0 ≤ a.toNat ∧ a.toNat < 0xf0) (hx : continuation? b = some x)
    (hy : continuation? b' = some y)
    (hc : scalar? 0x800 ((a.toNat - 0xe0) * 4096 + x * 64 + y) = some c) (rest : List UInt8) :
    character? a (b :: b' :: rest) = some (c, 2) := by
  have read : character? a (b :: b' :: rest) = (do
      let x ← continuation? b
      let y ← continuation? b'
      return (← scalar? 0x800 ((a.toNat - 0xe0) * 4096 + x * 64 + y), 2)) :=
    (if_neg (by omega)).trans ((if_neg (by omega)).trans ((if_neg (by omega)).trans
      (if_pos lead.2)))
  rw [read]
  refine Option.bind_eq_some_iff.mpr ⟨x, hx, Option.bind_eq_some_iff.mpr ⟨y, hy, ?_⟩⟩
  exact Option.bind_eq_some_iff.mpr ⟨c, hc, rfl⟩

theorem character?_four (lead : 0xf0 ≤ a.toNat ∧ a.toNat < 0xf8) (hx : continuation? b = some x)
    (hy : continuation? b' = some y) (hz : continuation? b'' = some z)
    (hc : scalar? 0x10000 ((a.toNat - 0xf0) * 262144 + x * 4096 + y * 64 + z) = some c)
    (rest : List UInt8) : character? a (b :: b' :: b'' :: rest) = some (c, 3) := by
  have read : character? a (b :: b' :: b'' :: rest) = (do
      let x ← continuation? b
      let y ← continuation? b'
      let z ← continuation? b''
      return (← scalar? 0x10000 ((a.toNat - 0xf0) * 262144 + x * 4096 + y * 64 + z), 3)) :=
    (if_neg (by omega)).trans ((if_neg (by omega)).trans ((if_neg (by omega)).trans
      ((if_neg (by omega)).trans (if_pos lead.2))))
  rw [read]
  refine Option.bind_eq_some_iff.mpr ⟨x, hx, Option.bind_eq_some_iff.mpr ⟨y, hy, ?_⟩⟩
  exact Option.bind_eq_some_iff.mpr ⟨z, hz, Option.bind_eq_some_iff.mpr ⟨c, hc, rfl⟩⟩

end

/-- A character is read from the front of its encoding, whatever follows. -/
theorem character?_of_encoding {c : Char} {a : UInt8} {more : List UInt8}
    (h : String.utf8EncodeChar c = a :: more) (rest : List UInt8) :
    character? a (more ++ rest) = some (c, more.length) := by
  have bound : c.val.toNat < 0x110000 := by
    have valid : c.val.toNat.isValidChar := c.valid
    unfold Nat.isValidChar at valid
    omega
  generalize hv : c.val.toNat = v at bound
  have whole {least n : Nat} (low : least ≤ v) (same : n = v) : scalar? least n = some c := by
    rw [same, ← hv]
    exact scalar?_toNat (hv ▸ low)
  simp only [String.utf8EncodeChar, hv] at h
  split at h
  next one =>
    obtain ⟨rfl, rfl⟩ := List.cons.inj h
    have lead := toNat_ofNat_of_byte (n := v) (by omega)
    rw [character?_one (by omega), lead, ← hv]
    exact congrArg (fun c => some (c, 0)) (Char.ofNat_toNat c)
  next =>
    split at h
    next two =>
      obtain ⟨rfl, rfl⟩ := List.cons.inj h
      have lead := toNat_ofNat_of_byte (n := v / 64 % 32 + 192) (by omega)
      exact character?_two (by omega) (continuation?_ofNat _)
        (whole (by omega) (by rw [lead]; omega)) rest
    next =>
      split at h
      next three =>
        obtain ⟨rfl, rfl⟩ := List.cons.inj h
        have lead := toNat_ofNat_of_byte (n := v / 4096 % 16 + 224) (by omega)
        exact character?_three (by omega) (continuation?_ofNat _) (continuation?_ofNat _)
          (whole (by omega) (by rw [lead]; omega)) rest
      next four =>
        obtain ⟨rfl, rfl⟩ := List.cons.inj h
        have lead := toNat_ofNat_of_byte (n := v / 262144 % 8 + 240) (by omega)
        exact character?_four (by omega) (continuation?_ofNat _) (continuation?_ofNat _)
          (continuation?_ofNat _) (whole (by omega) (by rw [lead]; omega)) rest

/-- The bytes of a text are read as its characters. -/
theorem glyphs_encoding (cs : List Char) :
    glyphs (cs.flatMap String.utf8EncodeChar) = cs.map .char := by
  induction cs with
  | nil => rfl
  | cons c cs ih =>
    obtain ⟨a, more, hc⟩ := List.exists_cons_of_ne_nil (String.utf8EncodeChar_ne_nil (c := c))
    rw [List.flatMap_cons, hc, List.cons_append, glyphs_cons, character?_of_encoding hc]
    simp [ih]

/-! ### Texts -/

theorem bytesOf_ofList (cs : List Char) :
    bytesOf (String.ofList cs) = cs.flatMap String.utf8EncodeChar := by
  simp [bytesOf]

theorem bytesOf_injective {s t : String} (h : bytesOf s = bytesOf t) : s = t := by
  refine String.toByteArray_inj.mp ?_
  rw [← String.utf8Encode_toList, ← String.utf8Encode_toList]
  exact congrArg List.toByteArray h

end StackLang.Text
