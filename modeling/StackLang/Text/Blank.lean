/-!
Blank characters: the twenty-five code points with the Unicode property White_Space.
-/

namespace StackLang.Text

def isBlank (c : Char) : Bool :=
  let n := c.toNat
  (0x09 ≤ n && n ≤ 0x0d) || n == 0x20 || n == 0x85 || n == 0xa0 || n == 0x1680 ||
  (0x2000 ≤ n && n ≤ 0x200a) || n == 0x2028 || n == 0x2029 || n == 0x202f || n == 0x205f ||
  n == 0x3000

/-- A list without its leading and trailing items that satisfy `p`. -/
def stripList {α : Type} (p : α → Bool) (xs : List α) : List α :=
  ((xs.dropWhile p).reverse.dropWhile p).reverse

/-- A text without its leading and trailing blanks. -/
def strip (s : String) : String :=
  String.ofList (stripList isBlank s.toList)

end StackLang.Text
