import Bracket.Proofs.Document
import Bracket.Proofs.Utf8.Encoding

/-!
# Reading JSON

A reader for JSON texts, written from the grammar of the format and not from the writer:

* space, tabs and line breaks may stand around every value and every mark of punctuation;
* an array has a comma between any two items, and an object between any two members, and neither has
  one in front or behind. A member is a string, a colon and a value;
* a string ends at the first quotation mark that is not escaped, and holds no control character. An
  escape is a backslash and one of eight characters, or `u` and four hexadecimal digits, in either
  case, for a unit of UTF-16. Two escaped units stand for one code point if they are a surrogate
  pair, and a surrogate without its other half is refused;
* a text is one value, in valid UTF-8.

Members are kept in the order in which they stand. There is no limit to the depth of a value. Values
which are no document (null, numbers and truth values) are refused; every text that is read is a JSON
text.

`read_json` says that what is written can be read: it is a JSON text, and the document comes out as
it went in, if its texts and keys are valid.
-/

namespace Bracket.Document

namespace Json

/-! ## The grammar -/

/-- What stands at the front of a text, and the text behind it. -/
structure Part (α : Type) (text : Bytes) where
  value : α
  rest : Bytes
  shorter : rest.length < text.length

/-- A part of the text behind another part, seen from the front. -/
def Part.behind {α β γ : Type} {text : Bytes} (front : Part α text) (part : Part β front.rest)
    (value : γ) : Part γ text :=
  ⟨value, part.rest, Nat.lt_trans part.shorter front.shorter⟩

/-- Space, tab, line feed and carriage return. -/
def isSpace (b : UInt8) : Bool := b = 0x20 || b = 0x09 || b = 0x0A || b = 0x0D

/-- The next byte that is no space. -/
def readMark : (text : Bytes) → Option (Part UInt8 text)
  | [] => none
  | b :: rest =>
    if isSpace b then do
      let mark ← readMark rest
      return ⟨mark.value, mark.rest, Nat.lt_succ_of_lt mark.shorter⟩
    else some ⟨b, rest, Nat.lt_succ_self _⟩

/-- Four hexadecimal digits. -/
def readUnit : (text : Bytes) → Option (Part Nat text)
  | a :: b :: c :: d :: rest => do
    let a ← Bytes.hexValue? a
    let b ← Bytes.hexValue? b
    let c ← Bytes.hexValue? c
    let d ← Bytes.hexValue? d
    return ⟨((a.toNat * 16 + b.toNat) * 16 + c.toNat) * 16 + d.toNat, rest, by
      simp only [List.length_cons]; omega⟩
  | _ => none

/-- The second half of a surrogate pair, with the code point of both. -/
def readLow (high : Nat) : (text : Bytes) → Option (Part Nat text)
  | 0x5C :: 0x75 :: rest => do
    let low ← readUnit rest
    if 0xDC00 ≤ low.value ∧ low.value < 0xE000 then
      return ⟨0x10000 + (high - 0xD800) * 0x400 + (low.value - 0xDC00), low.rest,
        Nat.lt_succ_of_lt (Nat.lt_succ_of_lt low.shorter)⟩
    else none
  | _ => none

/-- The code point that is escaped by units of UTF-16. -/
def readPoint (text : Bytes) : Option (Part Nat text) := do
  let unit ← readUnit text
  if 0xD800 ≤ unit.value ∧ unit.value < 0xDC00 then do
    let low ← readLow unit.value unit.rest
    return unit.behind low low.value
  else if 0xDC00 ≤ unit.value ∧ unit.value < 0xE000 then none -- a second half without the first
  else return unit

/-- The characters with a short escape. -/
def unescape? : UInt8 → Option UInt8
  | 0x22 => some 0x22
  | 0x5C => some 0x5C
  | 0x2F => some 0x2F
  | 0x62 => some 0x08
  | 0x66 => some 0x0C
  | 0x6E => some 0x0A
  | 0x72 => some 0x0D
  | 0x74 => some 0x09
  | _ => none

/-- What stands behind the backslash of an escape. -/
def readEscape : (text : Bytes) → Option (Part Bytes text)
  | [] => none
  | b :: rest =>
    if b = 0x75 then do
      let point ← readPoint rest
      return ⟨Utf8.encode point.value, point.rest, Nat.lt_succ_of_lt point.shorter⟩
    else do
      let c ← unescape? b
      return ⟨[c], rest, Nat.lt_succ_self _⟩

/-- A string behind its first quotation mark. -/
def readString (text : Bytes) : Option (Part Bytes text) :=
  match text with
  | [] => none
  | b :: rest =>
    have hfront : rest.length < (b :: rest).length := Nat.lt_succ_self _
    if b = 0x22 then some ⟨[], rest, hfront⟩
    else if b = 0x5C then do
      let escape ← readEscape rest
      have hescape := escape.shorter
      let more ← readString escape.rest
      return ⟨escape.value ++ more.value, more.rest, by have := more.shorter; omega⟩
    else if b < 0x20 then none
    else do
      let more ← readString rest
      return ⟨b :: more.value, more.rest, Nat.lt_trans more.shorter hfront⟩
termination_by text.length

/-- The values that hold other values. -/
inductive Kind where
  | array
  | object

namespace Kind

def opening : Kind → UInt8
  | array => 0x5B
  | object => 0x7B

def closing : Kind → UInt8
  | array => 0x5D
  | object => 0x7D

/-- What stands between the commas. -/
def Element : Kind → Type
  | array => Document
  | object => Bytes × Document

/-- The document with the given elements. -/
def document : (kind : Kind) → List kind.Element → Document
  | array, items => .list items
  | object, members => .record members

end Kind

mutual

/-- A value, with the space in front of it. -/
def readValue (text : Bytes) : Option (Part Document text) := do
  let mark ← readMark text
  have _hmark := mark.shorter
  if mark.value = 0x22 then do
    let string ← readString mark.rest
    return mark.behind string (.text string.value)
  else if mark.value = Kind.array.opening then do
    let items ← readElements .array mark.rest
    return mark.behind items (Kind.array.document items.value)
  else if mark.value = Kind.object.opening then do
    let members ← readElements .object mark.rest
    return mark.behind members (Kind.object.document members.value)
  else none
termination_by (text.length, 0)

/-- The elements of an array or an object behind its opening mark, and its end. -/
def readElements (kind : Kind) (text : Bytes) : Option (Part (List kind.Element) text) := do
  let mark ← readMark text
  if mark.value = kind.closing then return ⟨[], mark.rest, mark.shorter⟩
  else do
    let first ← readElement kind text
    have _hfirst := first.shorter
    let others ← readOthers kind first.rest
    return first.behind others (first.value :: others.value)
termination_by (text.length, 2)

/-- An item of an array, or a member of an object: a string, a colon and a value. -/
def readElement (kind : Kind) (text : Bytes) : Option (Part kind.Element text) :=
  match kind with
  | .array => readValue text
  | .object => do
    let mark ← readMark text
    have _hmark := mark.shorter
    if mark.value = 0x22 then do
      let key ← readString mark.rest
      have _hkey := key.shorter
      let colon ← readMark key.rest
      have _hcolon := colon.shorter
      if colon.value = 0x3A then do
        let value ← readValue colon.rest
        return mark.behind (key.behind (colon.behind value ()) ()) (key.value, value.value)
      else none
    else none
termination_by (text.length, 1)

/-- The elements behind another one, and the end. -/
def readOthers (kind : Kind) (text : Bytes) : Option (Part (List kind.Element) text) := do
  let mark ← readMark text
  have hmark := mark.shorter
  if mark.value = kind.closing then return ⟨[], mark.rest, hmark⟩
  else if mark.value = 0x2C then do
    let element ← readElement kind mark.rest
    have _helement := element.shorter
    let others ← readOthers kind element.rest
    return mark.behind (element.behind others ()) (element.value :: others.value)
  else none
termination_by (text.length, 0)

end

/-- A JSON text: valid UTF-8, with nothing but space behind the value. -/
def read (text : Bytes) : Option Document := do
  let value ← readValue text
  if Utf8.isValid text && value.rest.all isSpace then return value.value else none

/-! ## Rules of the grammar -/

/-- A reader finds a value at the front of a text and leaves the rest. -/
def Reads {α : Type} (reader : (text : Bytes) → Option (Part α text)) (text : Bytes) (value : α)
    (rest : Bytes) : Prop :=
  ∃ h, reader text = some ⟨value, rest, h⟩

/-- White space in front of a mark is skipped. -/
theorem reads_mark {space : Bytes} (hspace : space.all isSpace = true) {mark : UInt8}
    (hmark : isSpace mark = false) (rest : Bytes) :
    Reads readMark (space ++ mark :: rest) mark rest := by
  induction space with
  | nil =>
    rw [List.nil_append]
    exact ⟨Nat.lt_succ_self _, by rw [readMark, if_neg (by simp [hmark])]⟩
  | cons b space ih =>
    obtain ⟨hb, hspace⟩ : isSpace b = true ∧ space.all isSpace = true := by simpa using hspace
    obtain ⟨hlt, hread⟩ := ih hspace
    rw [List.cons_append]
    refine ⟨Nat.lt_succ_of_lt hlt, ?_⟩
    rw [readMark, if_pos hb, hread]
    rfl

section Rules

variable {text string key opened closed behind rest : Bytes} {value : Document} {kind : Kind}
  {element : kind.Element} {elements : List kind.Element}

/-- A quotation mark begins a string, whatever the string holds. -/
theorem reads_text (hopen : Reads readMark text 0x22 opened)
    (hstring : Reads readString opened string rest) :
    Reads readValue text (.text string) rest := by
  obtain ⟨hlt, hopen⟩ := hopen
  obtain ⟨hlt', hstring⟩ := hstring
  refine ⟨Nat.lt_trans hlt' hlt, ?_⟩
  rw [readValue, hopen]
  simp [hstring, Part.behind]

/-- An opening bracket begins a list or a record, according to its kind. -/
theorem reads_document (kind : Kind) {elements : List kind.Element}
    (hopen : Reads readMark text kind.opening opened)
    (helements : Reads (readElements kind) opened elements rest) :
    Reads readValue text (kind.document elements) rest := by
  obtain ⟨hlt, hopen⟩ := hopen
  obtain ⟨hlt', helements⟩ := helements
  refine ⟨Nat.lt_trans hlt' hlt, ?_⟩
  rw [readValue, hopen]
  cases kind with
  | array => simp [Kind.opening, helements, Part.behind]
  | object => simp [Kind.opening, helements, Part.behind]

/-- A bracket that closes at once holds nothing. -/
theorem reads_elements_nil (hclose : Reads readMark text kind.closing rest) :
    Reads (readElements kind) text [] rest := by
  obtain ⟨hlt, hclose⟩ := hclose
  refine ⟨hlt, ?_⟩
  rw [readElements, hclose]
  simp

/-- No element begins with the mark at the end. -/
theorem exists_mark_of_readElement (h : Reads (readElement kind) text element rest) :
    ∃ mark, readMark text = some mark ∧ mark.value ≠ kind.closing := by
  obtain ⟨_, h⟩ := h
  cases kind with
  | array =>
    simp only [readElement] at h
    rw [readValue] at h
    obtain ⟨mark, hmark, h⟩ := Option.bind_eq_some_iff.mp h
    refine ⟨mark, hmark, fun hclose => ?_⟩
    simp [hclose, Kind.opening, Kind.closing] at h
  | object =>
    simp only [readElement] at h
    obtain ⟨mark, hmark, h⟩ := Option.bind_eq_some_iff.mp h
    refine ⟨mark, hmark, fun hclose => ?_⟩
    simp [hclose, Kind.closing] at h

/-- Otherwise there is a first element, and others behind it. -/
theorem reads_elements_cons (helement : Reads (readElement kind) text element behind)
    (hothers : Reads (readOthers kind) behind elements rest) :
    Reads (readElements kind) text (element :: elements) rest := by
  -- the element shows that the end is not there yet
  obtain ⟨mark, hmark, hne⟩ := exists_mark_of_readElement helement
  obtain ⟨hlt, helement⟩ := helement
  obtain ⟨hlt', hothers⟩ := hothers
  refine ⟨Nat.lt_trans hlt' hlt, ?_⟩
  rw [readElements, hmark]
  simp [hne, helement, hothers, Part.behind]

theorem reads_others_nil (hclose : Reads readMark text kind.closing rest) :
    Reads (readOthers kind) text [] rest := by
  obtain ⟨hlt, hclose⟩ := hclose
  refine ⟨hlt, ?_⟩
  rw [readOthers, hclose]
  simp

/-- Every other element stands behind a comma. -/
theorem reads_others_cons (hcomma : Reads readMark text 0x2C opened)
    (helement : Reads (readElement kind) opened element behind)
    (hothers : Reads (readOthers kind) behind elements rest) :
    Reads (readOthers kind) text (element :: elements) rest := by
  obtain ⟨hlt, hcomma⟩ := hcomma
  obtain ⟨hlt', helement⟩ := helement
  obtain ⟨hlt'', hothers⟩ := hothers
  have hne : (0x2C : UInt8) ≠ kind.closing := by cases kind <;> decide
  refine ⟨Nat.lt_trans hlt'' (Nat.lt_trans hlt' hlt), ?_⟩
  rw [readOthers, hcomma]
  simp [hne, helement, hothers, Part.behind]

theorem reads_item (hvalue : Reads readValue text value rest) :
    Reads (readElement .array) text value rest := by
  obtain ⟨hlt, hvalue⟩ := hvalue
  refine ⟨hlt, ?_⟩
  rw [readElement]
  exact hvalue

/-- A member of a record is a key, a colon and a value. -/
theorem reads_member (hopen : Reads readMark text 0x22 opened)
    (hkey : Reads readString opened key closed) (hcolon : Reads readMark closed 0x3A behind)
    (hvalue : Reads readValue behind value rest) :
    Reads (readElement .object) text (key, value) rest := by
  obtain ⟨hlt, hopen⟩ := hopen
  obtain ⟨hlt', hkey⟩ := hkey
  obtain ⟨hlt'', hcolon⟩ := hcolon
  obtain ⟨hlast, hvalue⟩ := hvalue
  refine ⟨Nat.lt_trans (Nat.lt_trans hlast hlt'') (Nat.lt_trans hlt' hlt), ?_⟩
  rw [readElement, hopen]
  simp [hkey, hcolon, hvalue, Part.behind]

end Rules

/-! ## Strings -/

section Strings

variable {text string char behind rest : Bytes}

theorem reads_string_nil (rest : Bytes) : Reads readString (0x22 :: rest) [] rest :=
  ⟨Nat.lt_succ_self _, by rw [readString, if_pos rfl]⟩

/-- A backslash in a string begins an escape. -/
theorem reads_string_escape (hescape : Reads readEscape text char behind)
    (hmore : Reads readString behind string rest) :
    Reads readString (0x5C :: text) (char ++ string) rest := by
  obtain ⟨hlt, hescape⟩ := hescape
  obtain ⟨hlt', hmore⟩ := hmore
  refine ⟨Nat.lt_succ_of_lt (Nat.lt_trans hlt' hlt), ?_⟩
  rw [readString, if_neg (by decide), if_pos rfl, hescape]
  simp [hmore]

/-- Any other byte from the space on stands for itself. -/
theorem reads_string_cons {b : UInt8} (hquote : b ≠ 0x22) (hescape : b ≠ 0x5C)
    (hcontrol : ¬ b < 0x20) (hmore : Reads readString text string rest) :
    Reads readString (b :: text) (b :: string) rest := by
  obtain ⟨hlt, hmore⟩ := hmore
  refine ⟨Nat.lt_succ_of_lt hlt, ?_⟩
  rw [readString, if_neg hquote, if_neg hescape, if_neg hcontrol, hmore]
  rfl

theorem reads_escape {b c : UInt8} (h : unescape? b = some c) (rest : Bytes) :
    Reads readEscape (b :: rest) [c] rest := by
  have hne : b ≠ 0x75 := by
    rintro rfl
    simp [unescape?] at h
  refine ⟨Nat.lt_succ_self _, ?_⟩
  rw [readEscape, if_neg hne, h]
  rfl

/-- The value of a digit that was written. -/
theorem hexValue?_hexDigit {n : Nat} (h : n < 16) :
    Bytes.hexValue? (Bytes.hexDigit n) = some n.toUInt8 := by
  have hall : ∀ n : Fin 16, Bytes.hexValue? (Bytes.hexDigit n) = some n.val.toUInt8 := by decide
  exact hall ⟨n, h⟩

/-- Four hexadecimal digits are read as the number that they were written for. -/
theorem reads_unit {n : Nat} (h : n < 0x10000) (rest : Bytes) :
    Reads readUnit (Bytes.hex Bytes.hexDigit 4 n ++ rest) n rest := by
  have hdigit : ∀ k, Bytes.hexValue? (Bytes.hexDigit (k % 16)) = some (k % 16).toUInt8 :=
    fun k => hexValue?_hexDigit (Nat.mod_lt k (by decide))
  have hvalue : ∀ k, (k % 16).toUInt8.toNat = k % 16 :=
    fun k => Utf8.toNat_toUInt8 (Nat.lt_trans (Nat.mod_lt k (by decide)) (by decide))
  have hsum : ((n / 16 / 16 / 16 % 16 * 16 + n / 16 / 16 % 16) * 16 + n / 16 % 16) * 16 + n % 16 =
      n := by omega
  simp only [Bytes.hex, List.nil_append, List.cons_append]
  refine ⟨by simp only [List.length_cons]; omega, ?_⟩
  simp only [readUnit, hdigit, bind, Option.bind, hvalue, hsum]
  rfl

/-- The escape of a control character. -/
theorem reads_escape_control {b : UInt8} (h : b < 0x20) (rest : Bytes) :
    Reads readEscape (0x75 :: (Bytes.hex Bytes.hexDigit 4 b.toNat ++ rest)) [b] rest := by
  have hlow : b.toNat < 32 := UInt8.lt_iff_toNat_lt.mp h
  obtain ⟨hlt, hunit⟩ := reads_unit (show b.toNat < 0x10000 by omega) rest
  have hencode : Utf8.encode b.toNat = [b] :=
    (Utf8.encode_ascii (UInt8.lt_iff_toNat_lt.mpr (Nat.lt_trans hlow (by decide)))).2
  refine ⟨Nat.lt_succ_of_lt hlt, ?_⟩
  rw [readEscape, if_pos rfl, readPoint, hunit]
  simp only [bind, Option.bind]
  -- it is no half of a surrogate pair
  rw [if_neg (by omega), if_neg (by omega)]
  simp [hencode]

/-- **A byte that was written is read**, escaped or not. -/
theorem reads_string_jsonByte (b : UInt8) (h : Reads readString text string rest) :
    Reads readString (jsonByte b ++ text) (b :: string) rest := by
  have hshort : ∀ {b c : UInt8}, unescape? c = some b →
      Reads readString (0x5C :: c :: text) (b :: string) rest :=
    fun hc => reads_string_escape (reads_escape hc text) h
  unfold jsonByte
  split
  · exact hshort (c := 0x22) rfl
  · exact hshort (c := 0x5C) rfl
  · exact hshort (c := 0x62) rfl
  · exact hshort (c := 0x66) rfl
  · exact hshort (c := 0x6E) rfl
  · exact hshort (c := 0x72) rfl
  · exact hshort (c := 0x74) rfl
  · next hquote hescape _ _ _ _ _ =>
    split
    · next hcontrol =>
      rw [List.append_assoc]
      exact reads_string_escape (reads_escape_control hcontrol text) h
    · next hcontrol => exact reads_string_cons hquote hescape hcontrol h

/-- **A string that was written is read.** -/
theorem reads_string_flatMap (text rest : Bytes) :
    Reads readString (text.flatMap jsonByte ++ 0x22 :: rest) text rest := by
  induction text with
  | nil => exact reads_string_nil rest
  | cons b text ih =>
    rw [List.flatMap_cons, List.append_assoc]
    exact reads_string_jsonByte b ih

end Strings

/-! ## Documents -/

theorem isSpace_jsonBreak (level : Nat) : (jsonBreak level).all isSpace = true := by
  rw [jsonBreak, List.all_cons, List.all_replicate]
  split <;> rfl

/-- A string that was written is read, with any space in front of it. -/
theorem reads_jsonString {space : Bytes} (hspace : space.all isSpace = true) (text rest : Bytes) :
    ∃ opened, Reads readMark (space ++ (jsonString text ++ rest)) 0x22 opened ∧
      Reads readString opened text rest := by
  have hquote : jsonString text ++ rest = 0x22 :: (text.flatMap jsonByte ++ 0x22 :: rest) := by
    simp only [jsonString, List.append_assoc]
    rfl
  rw [hquote]
  exact ⟨_, reads_mark hspace (by decide) _, reads_string_flatMap text rest⟩

/-- A member that was written is read, if its value is. -/
theorem reads_jsonField {space : Bytes} (hspace : space.all isSpace = true) (key : Bytes)
    {text rest : Bytes} {value : Document} (hvalue : Reads readValue ([0x20] ++ text) value rest) :
    Reads (readElement .object) (space ++ (jsonString key ++ (bytes ": " ++ text))) (key, value)
      rest := by
  obtain ⟨opened, hopen, hkey⟩ := reads_jsonString hspace key (bytes ": " ++ text)
  exact reads_member hopen hkey (reads_mark List.all_nil (by decide) _) hvalue

mutual

/-- A document that was written is read, with any space in front of it. -/
theorem reads_json (d : Document) (level : Nat) {space : Bytes}
    (hspace : space.all isSpace = true) (rest : Bytes) :
    Reads readValue (space ++ (d.json level ++ rest)) d rest := by
  match d with
  | .text value =>
    obtain ⟨opened, hopen, hstring⟩ := reads_jsonString hspace value rest
    exact reads_text hopen hstring
  | .list [] =>
    exact reads_document .array (reads_mark hspace (by decide) _)
      (reads_elements_nil (reads_mark List.all_nil (by decide) rest))
  | .list (item :: items) =>
    have hjson : (Document.list (item :: items)).json level ++ rest =
        0x5B :: (jsonBreak (level + 1) ++ (item.json (level + 1) ++
          (jsonItems (level + 1) items ++ (jsonBreak level ++ 0x5D :: rest)))) := by
      simp only [json, List.append_assoc]
      rfl
    rw [hjson]
    exact reads_document .array (reads_mark hspace (by decide) _)
      (reads_elements_cons (reads_item (reads_json item (level + 1) (isSpace_jsonBreak _) _))
        (reads_jsonItems items (level + 1) (isSpace_jsonBreak level) rest))
  | .record [] =>
    exact reads_document .object (reads_mark hspace (by decide) _)
      (reads_elements_nil (reads_mark List.all_nil (by decide) rest))
  | .record ((key, value) :: fields) =>
    have hjson : (Document.record ((key, value) :: fields)).json level ++ rest =
        0x7B :: (jsonBreak (level + 1) ++ (jsonString key ++ (bytes ": " ++
          (value.json (level + 1) ++
            (jsonFields (level + 1) fields ++ (jsonBreak level ++ 0x7D :: rest)))))) := by
      simp only [json, List.append_assoc]
      rfl
    rw [hjson]
    exact reads_document .object (reads_mark hspace (by decide) _)
      (reads_elements_cons
        (reads_jsonField (isSpace_jsonBreak _) key (reads_json value (level + 1) rfl _))
        (reads_jsonFields fields (level + 1) (isSpace_jsonBreak level) rest))

/-- The items of a list behind the first are read up to the end of the list. -/
theorem reads_jsonItems (items : List Document) (level : Nat) {space : Bytes}
    (hspace : space.all isSpace = true) (rest : Bytes) :
    Reads (readOthers .array) (jsonItems level items ++ (space ++ 0x5D :: rest)) items rest := by
  match items with
  | [] => exact reads_others_nil (reads_mark hspace (by decide) rest)
  | item :: items =>
    have hjson : jsonItems level (item :: items) ++ (space ++ 0x5D :: rest) =
        0x2C :: (jsonBreak level ++ (item.json level ++
          (jsonItems level items ++ (space ++ 0x5D :: rest)))) := by
      simp only [jsonItems, List.append_assoc]
      rfl
    rw [hjson]
    exact reads_others_cons (reads_mark List.all_nil (by decide) _)
      (reads_item (reads_json item level (isSpace_jsonBreak level) _))
      (reads_jsonItems items level hspace rest)

/-- The fields of a record behind the first are read up to the end of the record. -/
theorem reads_jsonFields (fields : List (Bytes × Document)) (level : Nat) {space : Bytes}
    (hspace : space.all isSpace = true) (rest : Bytes) :
    Reads (readOthers .object) (jsonFields level fields ++ (space ++ 0x7D :: rest)) fields
      rest := by
  match fields with
  | [] => exact reads_others_nil (reads_mark hspace (by decide) rest)
  | (key, value) :: fields =>
    have hjson : jsonFields level ((key, value) :: fields) ++ (space ++ 0x7D :: rest) =
        0x2C :: (jsonBreak level ++ (jsonString key ++ (bytes ": " ++ (value.json level ++
          (jsonFields level fields ++ (space ++ 0x7D :: rest)))))) := by
      simp only [jsonFields, List.append_assoc]
      rfl
    rw [hjson]
    exact reads_others_cons (reads_mark List.all_nil (by decide) _)
      (reads_jsonField (isSpace_jsonBreak level) key (reads_json value level rfl _))
      (reads_jsonFields fields level hspace rest)

end

/-! ## Valid texts -/

theorem ascii_hexDigit {n : Nat} (h : n < 16) : Bytes.hexDigit n < 0x80 := by
  have hall : ∀ n : Fin 16, Bytes.hexDigit n < 0x80 := by decide
  exact hall ⟨n, h⟩

theorem ascii_hex (width n : Nat) :
    (Bytes.hex Bytes.hexDigit width n).all (· < 0x80) = true := by
  induction width generalizing n with
  | zero => rfl
  | succ width ih =>
    rw [Bytes.hex, List.all_append, ih, Bool.true_and, List.all_cons, List.all_nil, Bool.and_true]
    exact decide_eq_true (ascii_hexDigit (Nat.mod_lt n (by decide)))

/-- An ASCII byte is written in ASCII. -/
theorem ascii_jsonByte {b : UInt8} (h : b < 0x80) : (jsonByte b).all (· < 0x80) = true := by
  unfold jsonByte
  split
  all_goals try decide
  split
  · rw [List.all_append, ascii_hex]
    decide
  · simpa using h

/-- Every other byte is written as it is. -/
theorem jsonByte_high {b : UInt8} (h : ¬ b < 0x80) : jsonByte b = [b] := by
  unfold jsonByte
  split
  all_goals try exact absurd (by decide) h
  rw [if_neg fun hcontrol => h (UInt8.lt_trans hcontrol (by decide))]

/-- The bytes of a code point are valid when they are escaped. -/
theorem isValid_flatMap_jsonByte {point : Nat} (h : Utf8.IsEncodable point) :
    Utf8.isValid ((Utf8.encode point).flatMap jsonByte) = true := by
  by_cases hascii : point < 0x80
  · have hb : point.toUInt8 < 0x80 := by
      rw [UInt8.lt_iff_toNat_lt, Utf8.toNat_toUInt8 (Nat.lt_trans hascii (by decide))]
      exact hascii
    rw [Utf8.encode, if_pos hascii, List.flatMap_singleton]
    exact Utf8.isValid_of_ascii (ascii_jsonByte hb)
  · have hhigh : ∀ c ∈ Utf8.encode point, jsonByte c = [c] := fun c hc =>
      jsonByte_high (Utf8.not_ascii (Utf8.encode_high h (Nat.not_lt.mp hascii) c hc))
    rw [List.flatMap_def, List.map_congr_left hhigh, ← List.flatMap_def, List.flatMap_singleton']
    exact Utf8.isValid_encode h

/-- Quoting a valid text gives a valid text. -/
theorem isValid_jsonString {text : Bytes} (h : Utf8.isValid text = true) :
    Utf8.isValid (jsonString text) = true := by
  obtain ⟨points, hpoints, rfl⟩ := Utf8.isValid_iff.mp h
  have hquote : Utf8.isValid (bytes "\"") = true := Utf8.isValid_of_ascii (by decide)
  have hpoints' := Utf8.isValid_flatMap fun p hp => isValid_flatMap_jsonByte (hpoints p hp)
  rw [jsonString, List.flatMap_assoc, List.append_assoc, Utf8.isValid_append hquote,
    Utf8.isValid_append hpoints', hquote]

theorem isValid_jsonBreak (level : Nat) : Utf8.isValid (jsonBreak level) = true := by
  refine Utf8.isValid_of_ascii ?_
  rw [jsonBreak, List.all_cons, List.all_replicate]
  split <;> decide

mutual

/-- What is written of a document with valid texts and keys is valid. -/
theorem isValid_json (d : Document) (level : Nat) (hvalid : d.invalidText? = none)
    (hkeys : d.WellKeyed) : Utf8.isValid (d.json level) = true := by
  match d with
  | .text value => exact isValid_jsonString (by simpa [invalidText?] using hvalid)
  | .list [] =>
    rw [json]
    exact Utf8.isValid_of_ascii (by decide)
  | .list (item :: items) =>
    obtain ⟨hitem, hitems⟩ : item.invalidText? = none ∧ invalidItem? items = none := by
      simpa [invalidText?, invalidItem?] using hvalid
    have hopen : Utf8.isValid (bytes "[") = true := Utf8.isValid_of_ascii (by decide)
    simp only [json, List.append_assoc]
    rw [Utf8.isValid_append hopen, Utf8.isValid_append (isValid_jsonBreak _),
      Utf8.isValid_append (isValid_json item _ hitem hkeys.1),
      Utf8.isValid_append (isValid_jsonItems items _ hitems hkeys.2),
      Utf8.isValid_append (isValid_jsonBreak _)]
    exact Utf8.isValid_of_ascii (by decide)
  | .record [] =>
    rw [json]
    exact Utf8.isValid_of_ascii (by decide)
  | .record ((key, value) :: fields) =>
    obtain ⟨hvalue, hfields⟩ : value.invalidText? = none ∧ invalidField? fields = none := by
      simpa [invalidText?, invalidField?] using hvalid
    obtain ⟨-, hkey, hvalueKeys, hfieldsKeys⟩ := hkeys
    have hopen : Utf8.isValid [0x7B] = true := Utf8.isValid_of_ascii (by decide)
    have hcolon : Utf8.isValid (bytes ": ") = true := Utf8.isValid_of_ascii (by decide)
    simp only [json, List.append_assoc]
    rw [Utf8.isValid_append hopen, Utf8.isValid_append (isValid_jsonBreak _),
      Utf8.isValid_append (isValid_jsonString hkey), Utf8.isValid_append hcolon,
      Utf8.isValid_append (isValid_json value _ hvalue hvalueKeys),
      Utf8.isValid_append (isValid_jsonFields fields _ hfields hfieldsKeys),
      Utf8.isValid_append (isValid_jsonBreak _)]
    exact Utf8.isValid_of_ascii (by decide)

theorem isValid_jsonItems (items : List Document) (level : Nat)
    (hvalid : invalidItem? items = none) (hkeys : ItemsWellKeyed items) :
    Utf8.isValid (jsonItems level items) = true := by
  match items with
  | [] =>
    rw [jsonItems]
    exact Utf8.isValid_of_ascii rfl
  | item :: items =>
    obtain ⟨hitem, hitems⟩ : item.invalidText? = none ∧ invalidItem? items = none := by
      simpa [invalidItem?] using hvalid
    have hcomma : Utf8.isValid (bytes ",") = true := Utf8.isValid_of_ascii (by decide)
    simp only [jsonItems, List.append_assoc]
    rw [Utf8.isValid_append hcomma, Utf8.isValid_append (isValid_jsonBreak _),
      Utf8.isValid_append (isValid_json item _ hitem hkeys.1)]
    exact isValid_jsonItems items _ hitems hkeys.2

theorem isValid_jsonFields (fields : List (Bytes × Document)) (level : Nat)
    (hvalid : invalidField? fields = none) (hkeys : FieldsWellKeyed fields) :
    Utf8.isValid (jsonFields level fields) = true := by
  match fields with
  | [] =>
    rw [jsonFields]
    exact Utf8.isValid_of_ascii rfl
  | (key, value) :: fields =>
    obtain ⟨hvalue, hfields⟩ : value.invalidText? = none ∧ invalidField? fields = none := by
      simpa [invalidField?] using hvalid
    obtain ⟨hkey, hvalueKeys, hfieldsKeys⟩ := hkeys
    have hcomma : Utf8.isValid (bytes ",") = true := Utf8.isValid_of_ascii (by decide)
    have hcolon : Utf8.isValid (bytes ": ") = true := Utf8.isValid_of_ascii (by decide)
    simp only [jsonFields, List.append_assoc]
    rw [Utf8.isValid_append hcomma, Utf8.isValid_append (isValid_jsonBreak _),
      Utf8.isValid_append (isValid_jsonString hkey), Utf8.isValid_append hcolon,
      Utf8.isValid_append (isValid_json value _ hvalue hvalueKeys)]
    exact isValid_jsonFields fields _ hfields hfieldsKeys

end

/-- **A document that was written is read**: it is a JSON text, and the document comes out again. -/
theorem read_json {d : Document} (hvalid : d.invalidText? = none) (hkeys : d.WellKeyed) :
    read (d.json 0) = some d := by
  have hreads := reads_json d 0 List.all_nil []
  rw [List.nil_append, List.append_nil] at hreads
  obtain ⟨_, hread⟩ := hreads
  rw [read, hread, isValid_json d 0 hvalid hkeys]
  rfl

/-- A spelling that is never written is read as well. -/
example : read (bytes " [\"\\u00e9\\uD83D\\ude00\" , []]\n") =
    some (.list [.text [0xC3, 0xA9, 0xF0, 0x9F, 0x98, 0x80], .list []]) := by
  cbv

/-- A comma behind the last item and half a surrogate pair are no JSON. -/
example : read (bytes "[\"a\",]") = none ∧ read (bytes "\"\\uD83D\"") = none := by
  cbv

end Json

end Bracket.Document

namespace Bracket.Image

/-! ## Images -/

/-- **The JSON form of an image loses nothing.** It is refused exactly if the name of some module is
not valid UTF-8. Otherwise it is a JSON text that is read as the document of the image, so two images
with valid names have the same JSON form only if they are equal. -/
theorem encode_json_lossless (image : Image) :
    ((∃ f, image.encode .json = .error f) ↔
      ∃ m ∈ image.modules, Utf8.isValid m.uri = false) ∧
    ((∀ m ∈ image.modules, Utf8.isValid m.uri = true) →
      ∃ encoded, image.encode .json = .ok encoded ∧
        Document.Json.read encoded = some image.document) ∧
    (∀ other : Image, (∀ m ∈ image.modules, Utf8.isValid m.uri = true) →
      (∀ m ∈ other.modules, Utf8.isValid m.uri = true) →
      image.encode .json = other.encode .json → image = other) := by
  have hencode : ∀ image : Image, (∀ m ∈ image.modules, Utf8.isValid m.uri = true) →
      image.encode .json = .ok (image.document.json 0) :=
    fun image hvalid => checked_eq_ok_iff.mpr ⟨hvalid, rfl⟩
  have hread : ∀ image : Image, (∀ m ∈ image.modules, Utf8.isValid m.uri = true) →
      Document.Json.read (image.document.json 0) = some image.document :=
    fun image hvalid => Document.Json.read_json (invalidText?_document_eq_none_iff.mpr hvalid)
      image.wellKeyed_document
  refine ⟨checked_eq_error_iff, fun hvalid => ⟨_, hencode image hvalid, hread image hvalid⟩,
    fun other hvalid hvalid' hsame => ?_⟩
  rw [hencode image hvalid, hencode other hvalid'] at hsame
  have hdocument := hread image hvalid
  rw [Except.ok.inj hsame, hread other hvalid'] at hdocument
  exact document_injective (Option.some.inj hdocument).symm

/-- Under a name with a quotation mark, a backslash, a tab, a control character without a short
escape and characters beyond ASCII: an empty loop and an unknown symbol. -/
def escaped : Image :=
  ⟨[⟨[0x2F, 0x22, 0x5C, 0x09, 0x1F, 0xC3, 0xA9, 0xF0, 0x9F, 0x98, 0x80],
    [.loop [.loop [], .operator (.unknown 200)]]⟩, ⟨[], []⟩]⟩

/-- The escaped image is read again, an empty loop is not lost, and a name that is no text is
refused. -/
theorem encode_json_lossless_escaped :
    (∃ encoded, escaped.encode .json = .ok encoded ∧
      Document.Json.read encoded = some escaped.document) ∧
    (⟨[⟨[0x22], [.loop []]⟩]⟩ : Image).encode .json ≠ (⟨[⟨[0x22], []⟩]⟩ : Image).encode .json ∧
    ∃ f, (⟨[⟨[0x2F], []⟩, ⟨[0xC3], []⟩]⟩ : Image).encode .json = .error f := by
  have hquote : Utf8.isValid [0x22] = true := Utf8.isValid_of_ascii (by decide)
  refine ⟨(encode_json_lossless _).2.1 ?_, fun hsame => ?_, (encode_json_lossless _).1.mpr ?_⟩
  · rintro m hm
    rcases List.mem_cons.mp hm with rfl | hm
    · cbv
    · obtain rfl := List.mem_singleton.mp hm
      cbv
  · have hequal :=
      (encode_json_lossless _).2.2 _ (by simpa using hquote) (by simpa using hquote) hsame
    simp at hequal
  · refine ⟨⟨[0xC3], []⟩, by simp, ?_⟩
    cbv

end Bracket.Image
