import Bracket.Document.Yaml.Implicit
import Bracket.Text.Base64
import Bracket.Utf8

/-!
# YAML scalars

A text is written in the plainest style that brings it back (`style`): plain, between single quotes,
between double quotes with escapes, or, if it has line feeds, as a literal block. A byte string that
is not valid UTF-8 is written in base 64 with a tag.

## Shape of the choice

* a text with a line feed is a literal block, unless it ends in a space, has a space before a line
  break or holds special characters; then it takes double quotes;
* a text which would read as something else takes double quotes;
* any other text is plain unless a character has a meaning where it stands, then it takes single
  quotes, or double quotes if it also holds tabs, special characters or spaces next to line breaks.
-/

namespace Bracket.Document.Yaml

open Utf8

/-! ## Characters -/

/-- A code point which may stand unescaped. -/
def isPrintable (p : Nat) : Bool :=
  p = 0x0A || (0x20 ≤ p && p ≤ 0x7E) || (0xA0 ≤ p && p ≤ 0xD7FF) ||
    (0xE000 ≤ p && p ≤ 0xFFFD && p != 0xFEFF)

def isBreak (p : Nat) : Bool :=
  p = 0x0A || p = 0x0D || p = 0x85 || p = 0x2028 || p = 0x2029

def isBlank (p : Nat) : Bool := p = 0x20 || p = 0x09

/-- A code point that is neither printable nor a tab. -/
def isSpecial (p : Nat) : Bool := p != 0x09 && !isPrintable p

def byteOrderMark : Nat := 0xFEFF

/-! ## Analysis -/

/-- Somewhere in the text a code point with `first` is directly followed by one with `second`. -/
def hasPair (first second : Nat → Bool) : List Nat → Bool
  | a :: b :: rest => (first a && second b) || hasPair first second (b :: rest)
  | _ => false

/-- The text ends here or goes on with a blank. -/
def blankFollows : List Nat → Bool
  | [] => true
  | p :: _ => isBlank p

/-- The characters which have a meaning at the beginning of a scalar, whatever follows. -/
def openingIndicators : List Nat :=
  (bytes "#,[]\x7b\x7d&*!|>'\"%@\x60").map (·.toNat)

/-- A character behind the first has a meaning where it stands: a colon before a blank or the end,
or a number sign behind white space. -/
def hasInnerIndicator (previous : Nat) : List Nat → Bool
  | [] => false
  | p :: rest =>
    (p = 0x3A && blankFollows rest) ||
      (p = 0x23 && (isBlank previous || isBreak previous || previous = 0)) ||
      hasInnerIndicator p rest

/-- Some character of the text has a meaning where it stands. -/
def hasIndicator (points : List Nat) : Bool :=
  match points with
  | [] => false
  | p :: rest =>
    [0x2D, 0x2D, 0x2D].isPrefixOf points || [0x2E, 0x2E, 0x2E].isPrefixOf points ||
      openingIndicators.contains p ||
      ((p = 0x3F || p = 0x3A || p = 0x2D) && blankFollows rest) ||
      hasInnerIndicator p rest

def points (text : Bytes) : List Nat := (decodeAll text).map (·.point)

def hasSpaceBreak (ps : List Nat) : Bool := hasPair (· = 0x20) isBreak ps

/-- A literal block brings the text back. -/
def allowsLiteral (ps : List Nat) : Bool :=
  !(ps.getLast? == some 0x20 || hasSpaceBreak ps || ps.any isSpecial)

/-- Single quotes bring the text back. -/
def allowsSingleQuotes (ps : List Nat) : Bool :=
  !(hasPair isBreak (· = 0x20) ps || hasSpaceBreak ps || ps.contains 0x09 || ps.any isSpecial)

/-- The bare text brings the text back. -/
def allowsPlain (ps : List Nat) : Bool :=
  allowsSingleQuotes ps && !ps.any isBreak && !hasIndicator ps &&
    ps.head? != some 0x20 && ps.getLast? != some 0x20

/-- The styles of a scalar. -/
inductive Style where
  | plain
  | singleQuoted
  | doubleQuoted
  | literal
  deriving DecidableEq, Repr

/-- The style of a text. A text which is `plain` by its meaning still needs quotes if some of its
characters are not. -/
def style (plain : Bool) (text : Bytes) : Style :=
  let ps := points text
  if text.contains 0x0A then
    if allowsLiteral ps then .literal else .doubleQuoted
  else if !plain then .doubleQuoted
  else if allowsPlain ps then .plain
  else if allowsSingleQuotes ps then .singleQuoted
  else .doubleQuoted

/-! ## Writing -/

/-- A code point that needs an escape between double quotes. -/
def needsEscape (p : Nat) : Bool := !isPrintable p || isBreak p || p = 0x22 || p = 0x5C

/-- The escape of a code point. -/
def escape (p : Nat) : Bytes :=
  match p with
  | 0x00 => bytes "\\0"
  | 0x07 => bytes "\\a"
  | 0x08 => bytes "\\b"
  | 0x09 => bytes "\\t"
  | 0x0A => bytes "\\n"
  | 0x0B => bytes "\\v"
  | 0x0C => bytes "\\f"
  | 0x0D => bytes "\\r"
  | 0x1B => bytes "\\e"
  | 0x22 => bytes "\\\""
  | 0x5C => bytes "\\\\"
  | 0x85 => bytes "\\N"
  | 0xA0 => bytes "\\_"
  | 0x2028 => bytes "\\L"
  | 0x2029 => bytes "\\P"
  | p =>
    if p ≤ 0xFF then bytes "\\x" ++ Bytes.hex Bytes.hexDigitUpper 2 p
    else if p ≤ 0xFFFF then bytes "\\u" ++ Bytes.hex Bytes.hexDigitUpper 4 p
    else bytes "\\U" ++ Bytes.hex Bytes.hexDigitUpper 8 p

/-- A text between double quotes. A text that begins with a byte order mark is escaped
throughout. -/
def doubleQuoted (text : Bytes) : Bytes :=
  let ps := points text
  let marked := ps.head? == some byteOrderMark
  bytes "\"" ++ ps.flatMap (fun p => if marked || needsEscape p then escape p else encode p) ++
    bytes "\""

/-- The inside of single quotes: quotes are doubled, and behind line breaks the text is indented. -/
def singleInside (indent : Nat) (broken : Bool) : List Nat → Bytes
  | [] => []
  | p :: rest =>
    if isBreak p then encode p ++ singleInside indent true rest
    else if p = 0x20 then encode p ++ singleInside indent broken rest
    else
      (if broken then List.replicate indent 0x20 else []) ++ (if p = 0x27 then [0x27] else []) ++
        encode p ++ singleInside indent false rest

/-- A text between single quotes. -/
def singleQuoted (indent : Nat) (text : Bytes) : Bytes :=
  bytes "'" ++ singleInside indent false (points text) ++ bytes "'"

/-- The head of a literal block: a hint of the indentation for a text that begins with a space or a
break, and how the breaks at the end count. -/
def literalHead (ps : List Nat) : Bytes :=
  let hint := match ps with
    | p :: _ => if p = 0x20 || isBreak p then bytes "4" else []
    | [] => []
  let chomp := match ps.reverse with
    | last :: before =>
      if !isBreak last then bytes "-"
      else
        match before with
        | [] => bytes "+"
        | p :: _ => if isBreak p then bytes "+" else []
    | [] => bytes "-"
  bytes "|" ++ hint ++ chomp

/-- The lines of a literal block. A line break puts an end to the current line; text behind a break
is indented. -/
def literalLines (indent : Nat) (broken : Bool) : List Nat → Bytes
  | [] => []
  | p :: rest =>
    if isBreak p then encode p ++ literalLines indent true rest
    else
      (if broken then List.replicate indent 0x20 else []) ++ encode p ++
        literalLines indent false rest

/-- A literal block. A break at the beginning of the text is the one that ends the head. -/
def literal (indent : Nat) (text : Bytes) : Bytes :=
  let ps := points text
  let start := match ps with
    | p :: _ => if isBreak p then [] else bytes "\n"
    | [] => []
  literalHead ps ++ start ++ literalLines indent true ps

/-- A text in a given style, indented where it goes over several lines. -/
def write (indent : Nat) (style : Style) (text : Bytes) : Bytes :=
  match style with
  | .plain => text
  | .singleQuoted => singleQuoted indent text
  | .doubleQuoted => doubleQuoted text
  | .literal => literal indent text

/-- A byte string as a scalar. -/
def scalar (indent : Nat) (text : Bytes) : Bytes :=
  if isValid text then write indent (style (isPlainText text) text) text
  else
    let encoded := Text.base64Lines text
    bytes "!!binary " ++ write indent (style true encoded) encoded

end Bracket.Document.Yaml
