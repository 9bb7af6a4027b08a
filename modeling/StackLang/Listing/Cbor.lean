import StackLang.Listing.Tree
import StackLang.Text.Utf8
/-!
Trees as canonical CBOR: lengths are definite, integers take the fewest bytes, and the fields of a
record stand in the order of the length of their names and then of their bytes.
-/

namespace StackLang.Cbor

/-- The lowest `count` bytes of a number, most significant first. -/
def bigEndian : Nat → Nat → List UInt8
  | 0, _ => []
  | count + 1, n => bigEndian count (n / 256) ++ [UInt8.ofNat (n % 256)]

/-- The head of an item of a major type, with its argument. -/
def head (major n : Nat) : List UInt8 :=
  let initial (info : Nat) : UInt8 := UInt8.ofNat (major * 32 + info)
  if n < 24 then [initial n]
  else if n < UInt8.size then initial 24 :: bigEndian 1 n
  else if n < UInt16.size then initial 25 :: bigEndian 2 n
  else if n < UInt32.size then initial 26 :: bigEndian 4 n
  else initial 27 :: bigEndian 8 n

def integer : Int → List UInt8
  | .ofNat n => head 0 n
  | .negSucc n => head 1 n

def text (s : String) : List UInt8 :=
  let bytes := Text.bytesOf s
  head 3 bytes.length ++ bytes

/-- The order of fields: shorter names first, names of one length by their bytes. -/
def byKey (a b : String × List UInt8) : Bool :=
  let m := a.1.utf8ByteSize
  let n := b.1.utf8ByteSize
  m < n || (m == n && a.1 ≤ b.1)

mutual

def render : Tree → List UInt8
  | .text s => text s
  | .number n => integer n
  | .list items => head 4 items.length ++ renderList items
  | .record fields =>
    head 5 fields.length ++
      ((renderFields fields).mergeSort byKey).flatMap fun (k, v) => text k ++ v

def renderList : List Tree → List UInt8
  | [] => []
  | x :: xs => render x ++ renderList xs

/-- The fields of a record with their values rendered. -/
def renderFields : List TreeField → List (String × List UInt8)
  | [] => []
  | .mk k v :: rest => (k, render v) :: renderFields rest

end

end StackLang.Cbor
