import StackLang.Editor.Address
import StackLang.Text.Utf8
/-!
Names of documents. A document of an editor is named by a URI; one with the scheme `file` names a
file by its path, in which a percent sign and two digits stand for a byte.
-/

namespace StackLang.Uri

/-- The bytes of a text in which a percent sign and two hexadecimal digits stand for a byte. Only
the characters and the bytes of a kind are accepted. -/
def decode? (plain : Char → Bool) (escaped : Nat → Bool) : List Char → Option (List UInt8)
  | [] => some []
  | '%' :: a :: b :: rest => do
    let byte := (← Text.hexValue? a) * 16 + (← Text.hexValue? b)
    if escaped byte then
      return UInt8.ofNat byte :: (← decode? plain escaped rest)
    else none
  | c :: rest =>
    if c ≠ '%' ∧ plain c then
      return Text.bytesOf c.toString ++ (← decode? plain escaped rest)
    else none

/-- Whether a character is beyond the first hundred and twenty-eight. -/
def isWide (c : Char) : Bool :=
  0x80 ≤ c.toNat

/-- Letters and digits of the first hundred and twenty-eight characters. -/
def isWordChar (c : Char) : Bool :=
  c.isAlpha || c.isDigit

/-- Characters that stand for themselves in the name of a host. -/
def isHostChar (c : Char) : Bool :=
  isWordChar c || "-_.~!$&'()*+,;=:[]<>\"".toList.contains c

/-- Characters that may stand in the part about a user. -/
def isUserChar (c : Char) : Bool :=
  isWordChar c || "-._:~!$&'()*+,;=%@".toList.contains c

/-- A path or a fragment: every byte may be escaped. -/
def decodeFreely? : List Char → Option (List UInt8) :=
  decode? (fun _ => true) (fun _ => true)

/-- The name of a host: only bytes of wide characters and the percent sign may be escaped. -/
def decodeHost? : List Char → Option (List UInt8) :=
  decode? (fun c => isWide c || isHostChar c) (fun b => 0x80 ≤ b || b == 0x25)

/-- The zone of an address: only what could stand there unescaped, a space and the percent sign may
be escaped. -/
def decodeZone? : List Char → Option (List UInt8) :=
  decode? (fun c => isWide c || isHostChar c)
    (fun b => b == 0x25 || b == 0x20 || (b < 0x80 && isHostChar (Char.ofNat b)))

/-- Whether a text is empty, or a colon and the decimal number of a service. -/
def isService : List Char → Bool
  | [] => true
  | c :: digits => c = ':' && digits.all Char.isDigit

/-- A list divided at its last item that satisfies `p`: the items before it and those after it. -/
def splitLast? {α : Type} (p : α → Bool) (xs : List α) : Option (List α × List α) :=
  match xs.reverse.dropWhile fun x => !p x with
  | [] => none
  | _ :: before => some (before.reverse, (xs.reverse.takeWhile fun x => !p x).reverse)

/-- Whether the inside of brackets is well formed: an address, perhaps with a zone after an escaped
percent sign. -/
def isBracketed (cs : List Char) : Bool :=
  match indexOf? ['%', '2', '5'] cs with
  | none => isAddress cs
  | some n =>
    isAddress (cs.take n) && (decodeZone? (cs.drop n)).isSome && !(cs.drop (n + 3)).isEmpty

/-- Whether a host is well formed: a name or an address in brackets, perhaps with a service. -/
def isHost (host : List Char) : Bool :=
  match host with
  | '[' :: rest =>
    match splitLast? (· = ']') rest with
    | none => false
    | some (inside, service) => !rest.contains '[' && isService service && isBracketed inside
  | _ =>
    !host.contains '[' && (decodeHost? host).isSome &&
      match splitLast? (· = ':') host with
      | none => true
      | some (_, digits) => digits.all Char.isDigit

/-- Whether the part about a user is well formed. -/
def isUser (user : List Char) : Bool :=
  user.all isUserChar && (decodeFreely? user).isSome

/-- Whether an authority is well formed: a host, and perhaps a user in front of it. -/
def isAuthority (authority : List Char) : Bool :=
  match splitLast? (· = '@') authority with
  | none => isHost authority
  | some (user, host) => isHost host && isUser user

def isSchemeChar (c : Char) : Bool :=
  isWordChar c || c = '+' || c = '-' || c = '.'

/-- What follows the scheme `file`, which may be written in any case. -/
def afterScheme? (uri : List Char) : Option (List Char) :=
  match uri.dropWhile isSchemeChar with
  | ':' :: rest =>
    if (uri.takeWhile isSchemeChar).map Char.toLower = ['f', 'i', 'l', 'e'] then some rest
    else none
  | _ => none

/-- The path in what follows the scheme, still with its escapes. What does not begin with a slash
has no path. -/
def rawPath? (rest : List Char) : Option (List Char) :=
  match rest.takeWhile (· ≠ '?') with
  | '/' :: '/' :: body =>
    if isAuthority (body.takeWhile (· ≠ '/')) then some (body.dropWhile (· ≠ '/')) else none
  | '/' :: body => some ('/' :: body)
  | _ => some []

/-- Whether a character is a control character. -/
def isControl (c : Char) : Bool :=
  c.toNat < 0x20 || c.toNat == 0x7f

/-- The bytes of the path of the file that a URI names. -/
def filePath? (uri : String) : Option (List UInt8) := do
  let body := uri.toList.takeWhile (· ≠ '#')
  let fragment := (uri.toList.dropWhile (· ≠ '#')).drop 1
  if body.any isControl then none
  let path ← decodeFreely? (← rawPath? (← afterScheme? body))
  let _ ← decodeFreely? fragment
  return path

/-- The name of a document in diagnostics: the path of its file, or the URI itself. -/
def fileName (uri : String) : String :=
  match filePath? uri with
  | some path => Text.shown path
  | none => uri

end StackLang.Uri
