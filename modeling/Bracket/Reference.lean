import Bracket.Bytes
import Bracket.Reference.Address

/-!
# References

A reference is a URI or a relative path: `scheme://authority/path?query#fragment`, all parts
optional. Only scheme and path matter here, but every part must be well-formed for the reference to
be read (`parse?`) at all:

* no control characters before the fragment;
* escapes in path, fragment, user and host are a per cent sign and two hexadecimal digits;
* without a scheme, the first element of a relative path has no colon;
* the host holds no reserved characters, and escapes only bytes outside ASCII; an opening bracket
  stands only in front of an address, which has its closing bracket; what stands behind the last
  colon of a host is a number.

A rootless path behind a scheme is opaque and counts as no path.
-/

namespace Bracket

/-- A reference, reduced to its scheme in lower case and its unescaped path. -/
structure Reference where
  scheme : Bytes
  path : Bytes
  deriving DecidableEq, Repr, Inhabited

namespace Reference

/-! ## Escapes -/

/-- Replaces the escapes of a text. `admits` says which escaped bytes and `allows` which bare bytes
may occur; a malformed escape is refused. -/
def unescapeWith (admits allows : UInt8 → Bool) : Bytes → Option Bytes
  | [] => some []
  | 0x25 :: a :: b :: rest => do
    let high ← Bytes.hexValue? a
    let low ← Bytes.hexValue? b
    let byte := high * 16 + low
    if admits byte then return byte :: (← unescapeWith admits allows rest) else none
  | c :: rest =>
    if c = 0x25 || !allows c then none else (unescapeWith admits allows rest).map (c :: ·)

/-- Replaces the escapes of a text in which any byte may occur. -/
def unescape : Bytes → Option Bytes := unescapeWith (fun _ => true) (fun _ => true)

/-! ## Authority -/

/-- The ASCII characters of a host name. -/
def isHostByte (b : UInt8) : Bool :=
  Bytes.isLetter b || Bytes.isDigit b || (bytes "-_.~!$&'()*+,;=:[]<>\"").contains b

/-- A byte which may stand in a host: a host character, or any byte outside ASCII. -/
def allowsInHost (b : UInt8) : Bool := 0x80 ≤ b || isHostByte b

/-- Replaces the escapes of a host, which may only stand for bytes outside ASCII or for a per cent
sign. -/
def unescapeHost : Bytes → Option Bytes :=
  unescapeWith (fun b => 0x80 ≤ b || b = 0x25) allowsInHost

/-- Replaces the escapes of the zone of a host, which may also stand for host characters and
spaces. -/
def unescapeZone : Bytes → Option Bytes :=
  unescapeWith (fun b => b = 0x25 || b = 0x20 || isHostByte b) allowsInHost

/-- Nothing, or a colon and a number: what may stand behind a host. -/
def isHostTail : Bytes → Bool
  | [] => true
  | c :: digits => c = 0x3A && digits.all Bytes.isDigit

/-- The parts of a text before and behind the last occurrence of a byte. -/
def cutLast (separator : UInt8) (text : Bytes) : Option (Bytes × Bytes) :=
  (Bytes.cut separator text.reverse).map fun (behind, before) => (before.reverse, behind.reverse)

/-- What stands between the brackets of a host: an address, and possibly a zone behind an escaped
per cent sign. A bare opening bracket is no part of a zone. -/
def isBracketed (inside : Bytes) : Bool :=
  match Bytes.cutAt (bytes "%25") inside with
  | none => Address.isAddress inside
  | some (address, zone) =>
    Address.isAddress address && !zone.isEmpty && !zone.contains 0x5B &&
      (unescapeZone zone).isSome

/-- The host is well-formed, with the number behind it. -/
def isHost (host : Bytes) : Bool :=
  match host with
  | 0x5B :: rest =>
    match cutLast 0x5D rest with
    | none => false
    | some (inside, tail) => isBracketed inside && isHostTail tail
  | _ =>
    !host.contains 0x5B && (unescapeHost host).isSome &&
      match cutLast 0x3A host with
      | none => true
      | some (_, number) => number.all Bytes.isDigit

def isUserByte (b : UInt8) : Bool :=
  Bytes.isLetter b || Bytes.isDigit b || (bytes "-._:~!$&'()*+,;=%@").contains b

/-- The authority is well-formed: an optional user part before the last at sign, and a host. -/
def isAuthority (authority : Bytes) : Bool :=
  match cutLast 0x40 authority with
  | none => isHost authority
  | some (user, host) =>
    isHost host && user.all isUserByte &&
      match Bytes.cut 0x3A user with
      | none => (unescape user).isSome
      | some (name, password) => (unescape name).isSome && (unescape password).isSome

/-! ## The whole reference -/

def isControl (b : UInt8) : Bool := b < 0x20 || b = 0x7F

/-- A character of a scheme behind its first letter. -/
def isSchemeByte (b : UInt8) : Bool :=
  Bytes.isLetter b || Bytes.isDigit b || b = 0x2B || b = 0x2D || b = 0x2E

/-- The scheme, if there is one, and what follows it. A colon at the very beginning is refused. -/
def splitScheme (text : Bytes) : Option (Bytes × Bytes) :=
  match text with
  | 0x3A :: _ => none
  | first :: _ =>
    let scheme := text.takeWhile isSchemeByte
    match text.dropWhile isSchemeByte with
    | 0x3A :: rest =>
      if Bytes.isLetter first then some (scheme.map Bytes.lowerByte, rest) else some ([], text)
    | _ => some ([], text)
  | [] => some ([], [])

/-- The text in front of a separator, or all of it. -/
def upTo (separator : UInt8) (text : Bytes) : Bytes := text.takeWhile (· != separator)

/-- What stands behind a scheme: a path, possibly behind an authority. -/
def parseRest (scheme rest : Bytes) : Option Reference :=
  if rest.head? != some 0x2F then
    -- an opaque reference
    if scheme ≠ [] then some ⟨scheme, []⟩
    else if (upTo 0x2F rest).contains 0x3A then none
    else (unescape rest).map (⟨scheme, ·⟩)
  else if (bytes "//").isPrefixOf rest && (scheme ≠ [] || !(bytes "///").isPrefixOf rest) then
    -- the authority ends at the next slash
    let authority := upTo 0x2F (rest.drop 2)
    if isAuthority authority then
      (unescape (rest.drop (2 + authority.length))).map (⟨scheme, ·⟩)
    else none
  else (unescape rest).map (⟨scheme, ·⟩)

/-- A reference without its fragment. -/
def parseBody (text : Bytes) : Option Reference :=
  if text.any isControl then none
  else if text = bytes "*" then some ⟨[], text⟩
  else do
    let (scheme, rest) ← splitScheme text
    parseRest scheme (upTo 0x3F rest)

/-- Reads a reference; none if it is malformed. -/
def parse? (text : Bytes) : Option Reference :=
  match Bytes.cut 0x23 text with
  | none => parseBody text
  | some (body, fragment) => do
    let reference ← parseBody body
    let _ ← unescape fragment
    return reference

end Reference

end Bracket
