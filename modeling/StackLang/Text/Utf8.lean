/-!
Bytes read as characters. A byte that begins no well-formed character is kept in the reading as a
stray, so that a reader can say where it stands; reading never fails and never skips a byte.
-/

namespace StackLang.Text

/-- One item of a byte text: a character, or a byte that begins none. -/
inductive Glyph where
  | char (c : Char)
  | stray
  deriving DecidableEq, Repr

/-- The character that stands for a byte that begins none. -/
def replacement : Char := Char.ofNat 0xfffd

def Glyph.value : Glyph → Char
  | .char c => c
  | .stray => replacement

/-- The six payload bits of a continuation byte. -/
def continuation? (b : UInt8) : Option Nat :=
  if 0x80 ≤ b.toNat ∧ b.toNat < 0xc0 then some (b.toNat - 0x80) else none

/-- The character with a given code point, provided the code point is at least `least` and belongs
to a character at all. -/
def scalar? (least code : Nat) : Option Char :=
  if least ≤ code ∧ code.isValidChar then some (Char.ofNat code) else none

/-- The character that begins with byte `a`, and how many of the bytes that follow belong to it.
Each character has one well-formed spelling: the shortest one. -/
def character? (a : UInt8) (rest : List UInt8) : Option (Char × Nat) :=
  let lead := a.toNat
  if lead < 0x80 then some (Char.ofNat lead, 0)
  else if lead < 0xc0 then none
  else if lead < 0xe0 then
    match rest with
    | b :: _ => do
      let x ← continuation? b
      return (← scalar? 0x80 ((lead - 0xc0) * 64 + x), 1)
    | _ => none
  else if lead < 0xf0 then
    match rest with
    | b :: c :: _ => do
      let x ← continuation? b
      let y ← continuation? c
      return (← scalar? 0x800 ((lead - 0xe0) * 4096 + x * 64 + y), 2)
    | _ => none
  else if lead < 0xf8 then
    match rest with
    | b :: c :: d :: _ => do
      let x ← continuation? b
      let y ← continuation? c
      let z ← continuation? d
      return (← scalar? 0x10000 ((lead - 0xf0) * 262144 + x * 4096 + y * 64 + z), 3)
    | _ => none
  else none

/-- The glyphs of a byte text whose first `skip` bytes belong to a character already read. -/
def glyphsFrom : Nat → List UInt8 → List Glyph
  | _, [] => []
  | skip + 1, _ :: rest => glyphsFrom skip rest
  | 0, a :: rest =>
    match character? a rest with
    | some (c, more) => .char c :: glyphsFrom more rest
    | none => .stray :: glyphsFrom 0 rest

def glyphs (bytes : List UInt8) : List Glyph :=
  glyphsFrom 0 bytes

def bytesOf (s : String) : List UInt8 :=
  s.toList.flatMap String.utf8EncodeChar

/-- The text of bytes, with the replacement character for each stray byte. -/
def shown (bytes : List UInt8) : String :=
  String.ofList ((glyphs bytes).map Glyph.value)

/-- The text of bytes all of which belong to characters. -/
def exactText? (bytes : List UInt8) : Option String :=
  let gs := glyphs bytes
  if gs.contains .stray then none else some (String.ofList (gs.map Glyph.value))

end StackLang.Text
