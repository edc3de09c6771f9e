import Bracket.Proofs.Document

/-!
# Reading the wire format

A reader for the wire format of structures of dynamic values, written from the rules of the format
and not from the writer:

* a message is a sequence of fields in any order. A field is a tag, which tells its number and the
  type of its payload, and the payload: a number, eight bytes, four bytes, or a length and as many
  bytes;
* a field with an unknown number, or with a payload of the wrong type, is skipped;
* a field which occurs twice counts as it stands last. If it holds a message, the two are joined;
* a record is a map, so an entry with a known key replaces the one before it;
* texts and keys are valid UTF-8.

There is no limit to the depth of a message or to the size of a number. Values which are no document
(null, numbers and truth values, and a value of no kind) are refused.

`read_wireEntries` says that what is written can be read: all bytes are used, and the document comes
out as it went in, if its texts are valid and no record has a key twice.
-/

namespace Bracket.Document

namespace Wire

/-! ## Fields -/

/-- A number in groups of seven bits, low groups first, and the bytes behind it. -/
def readNumber : Bytes → Option (Nat × Bytes)
  | [] => none
  | b :: rest =>
    if b.toNat < 128 then some (b.toNat, rest)
    else (readNumber rest).map fun (high, rest) => (b.toNat - 128 + 128 * high, rest)

/-- What a field holds, by the type of its payload. -/
inductive Payload where
  | number (value : Nat)
  | eight (content : Bytes)
  | bytes (content : Bytes)
  | four (content : Bytes)

/-- The number of bytes that may hold another message. -/
def Payload.size : Payload → Nat
  | .bytes content => content.length
  | _ => 0

/-- A field at the front of a message, and what stands behind it. -/
structure Field (message : Bytes) where
  number : Nat
  payload : Payload
  rest : Bytes
  shorter : payload.size + rest.length < message.length

/-- A number takes at least one byte. -/
theorem length_of_readNumber {text rest : Bytes} {n : Nat} (h : readNumber text = some (n, rest)) :
    rest.length < text.length := by
  induction text generalizing n with
  | nil => simp [readNumber] at h
  | cons b text ih =>
    rw [readNumber] at h
    split at h
    · obtain ⟨-, rfl⟩ : b.toNat = n ∧ text = rest := by simpa using h
      exact Nat.lt_succ_self _
    · obtain ⟨⟨high, rest'⟩, hhigh, hpair⟩ := Option.map_eq_some_iff.mp h
      obtain ⟨-, rfl⟩ := Prod.mk.inj hpair
      exact Nat.lt_succ_of_lt (ih hhigh)

/-- The first field of a message. The low three bits of a tag are the type of the payload, the
others the number of the field, which is not zero. -/
def readField (message : Bytes) : Option (Field message) :=
  match htag : readNumber message with
  | none => none
  | some (tag, rest) =>
    have hrest := length_of_readNumber htag
    if tag / 8 = 0 then none
    else
      match tag % 8 with
      | 0 =>
        match hvalue : readNumber rest with
        | none => none
        | some (value, rest') =>
          have hrest' := length_of_readNumber hvalue
          some ⟨tag / 8, .number value, rest', by simp only [Payload.size]; omega⟩
      | 1 =>
        if 8 ≤ rest.length then
          some ⟨tag / 8, .eight (rest.take 8), rest.drop 8, by
            simp only [Payload.size, List.length_drop]; omega⟩
        else none
      | 2 =>
        match hlength : readNumber rest with
        | none => none
        | some (length, rest') =>
          have hrest' := length_of_readNumber hlength
          if length ≤ rest'.length then
            some ⟨tag / 8, .bytes (rest'.take length), rest'.drop length, by
              simp only [Payload.size, List.length_take, List.length_drop]; omega⟩
          else none
      | 5 =>
        if 4 ≤ rest.length then
          some ⟨tag / 8, .four (rest.take 4), rest.drop 4, by
            simp only [Payload.size, List.length_drop]; omega⟩
        else none
      | _ => none

/-! ## Messages -/

/-- The items of a value that is a list. -/
def itemsOf : Option Document → List Document
  | some (.list items) => items
  | _ => []

/-- The fields of a value that is a record. -/
def fieldsOf : Option Document → List (Bytes × Document)
  | some (.record fields) => fields
  | _ => []

/-- A map with one more entry, which replaces the one with its key. -/
def setField (key : Bytes) (value : Document) : List (Bytes × Document) → List (Bytes × Document)
  | [] => [(key, value)]
  | (k, d) :: rest => if k = key then (key, value) :: rest else (k, d) :: setField key value rest

mutual

/-- A value; `before` is what was read of it so far. -/
def readValue (before : Option Document) (message : Bytes) : Option Document :=
  if message = [] then before
  else
    match readField message with
    | none => none
    | some field =>
      have _shorter := field.shorter
      match field.number, _payload : field.payload with
      | 3, .bytes content =>
        if Utf8.isValid content then readValue (some (.text content)) field.rest else none
      | 5, .bytes content =>
        match readRecord (fieldsOf before) content with
        | none => none
        | some fields => readValue (some (.record fields)) field.rest
      | 6, .bytes content =>
        match readList (itemsOf before) content with
        | none => none
        | some items => readValue (some (.list items)) field.rest
      | 1, .number _ | 2, .eight _ | 4, .number _ => none
      | _, _ => readValue before field.rest
termination_by message.length
decreasing_by all_goals (simp only [_payload, Payload.size] at _shorter; omega)

/-- The values of a list, behind those that were read before. -/
def readList (before : List Document) (message : Bytes) : Option (List Document) :=
  if message = [] then some before
  else
    match readField message with
    | none => none
    | some field =>
      have _shorter := field.shorter
      match field.number, _payload : field.payload with
      | 1, .bytes content =>
        match readValue none content with
        | none => none
        | some value => readList (before ++ [value]) field.rest
      | _, _ => readList before field.rest
termination_by message.length
decreasing_by all_goals (simp only [_payload, Payload.size] at _shorter; omega)

/-- The entries of a record, added to those that were read before. -/
def readRecord (before : List (Bytes × Document)) (message : Bytes) :
    Option (List (Bytes × Document)) :=
  if message = [] then some before
  else
    match readField message with
    | none => none
    | some field =>
      have _shorter := field.shorter
      match field.number, _payload : field.payload with
      | 1, .bytes content =>
        match readEntry [] none content with
        | none => none
        | some (key, value) => readRecord (setField key value before) field.rest
      | _, _ => readRecord before field.rest
termination_by message.length
decreasing_by all_goals (simp only [_payload, Payload.size] at _shorter; omega)

/-- An entry; `key` and `value` are what was read of it so far. -/
def readEntry (key : Bytes) (value : Option Document) (message : Bytes) :
    Option (Bytes × Document) :=
  if message = [] then value.map (key, ·)
  else
    match readField message with
    | none => none
    | some field =>
      have _shorter := field.shorter
      match field.number, _payload : field.payload with
      | 1, .bytes content =>
        if Utf8.isValid content then readEntry content value field.rest else none
      | 2, .bytes content =>
        match readValue value content with
        | none => none
        | some value => readEntry key (some value) field.rest
      | _, _ => readEntry key value field.rest
termination_by message.length
decreasing_by all_goals (simp only [_payload, Payload.size] at _shorter; omega)

end

/-- Reads a whole structure. -/
def read (message : Bytes) : Option Document := (readRecord [] message).map .record

/-! ## Reading what was written -/

/-- **A number is read as it was written**, whatever comes behind it. -/
theorem readNumber_varint (n : Nat) (rest : Bytes) :
    readNumber (varint n ++ rest) = some (n, rest) := by
  fun_induction varint n with
  | case1 n h =>
    have hn : n.toUInt8.toNat = n := by simp [Nat.mod_eq_of_lt (show n < 256 by omega)]
    rw [List.singleton_append, readNumber, hn, if_pos h]
  | case2 n h ih =>
    have hlow : (n % 128 + 128).toUInt8.toNat = n % 128 + 128 := by
      simp [Nat.mod_eq_of_lt (show n % 128 + 128 < 256 by omega)]
    have hvalue : n % 128 + 128 - 128 + 128 * (n / 128) = n := by omega
    simp only [List.cons_append, readNumber, hlow, ih, Option.map_some, hvalue]
    rw [if_neg (by omega)]

/-- The tag of a field that holds bytes. -/
def IsTag (tag : UInt8) (number : Nat) : Prop :=
  tag.toNat = 8 * number + 2 ∧ 0 < number ∧ tag.toNat < 128

instance (tag : UInt8) (number : Nat) : Decidable (IsTag tag number) :=
  inferInstanceAs (Decidable (_ ∧ _ ∧ _))

/-- **A field that was written is read**, and nothing behind it. -/
theorem readField_wireField {tag : UInt8} {number : Nat} (h : IsTag tag number)
    (payload rest : Bytes) :
    ∃ shorter, readField (wireField tag payload ++ rest) =
      some ⟨number, .bytes payload, rest, shorter⟩ := by
  obtain ⟨htag, hpos, hlt⟩ := h
  have hfield : wireField tag payload ++ rest =
      tag :: (varint payload.length ++ (payload ++ rest)) := by
    rw [wireField, List.cons_append, List.append_assoc]
  have hshorter : (Payload.bytes payload).size + rest.length <
      (wireField tag payload ++ rest).length := by
    simp only [hfield, Payload.size, List.length_cons, List.length_append]
    omega
  have hnumber : readNumber (wireField tag payload ++ rest) =
      some (8 * number + 2, varint payload.length ++ (payload ++ rest)) := by
    rw [hfield, readNumber, if_pos hlt, htag]
  have hlength := readNumber_varint payload.length (payload ++ rest)
  have htype : (8 * number + 2) % 8 = 2 := by omega
  have hquotient : (8 * number + 2) / 8 = number := by omega
  -- the two numbers of a field are its tag and its length
  refine ⟨hshorter, ?_⟩
  unfold readField
  split
  · next hnone => simp [hnumber] at hnone
  · next tag' rest' hsome =>
    obtain ⟨rfl, rfl⟩ : 8 * number + 2 = tag' ∧
        varint payload.length ++ (payload ++ rest) = rest' := by simpa [hnumber] using hsome
    simp only [hquotient, htype]
    rw [if_neg (by omega)]
    split
    · next hnone => simp [hlength] at hnone
    · next length rest'' hsome =>
      obtain ⟨rfl, rfl⟩ : payload.length = length ∧ payload ++ rest = rest'' := by
        simpa [hlength] using hsome
      simp

theorem wireField_append_ne_nil (tag : UInt8) (payload rest : Bytes) :
    wireField tag payload ++ rest ≠ [] := by
  simp [wireField]

section Fields

variable {payload : Bytes} (rest : Bytes)

/-- A field with the tag of texts makes the value a text. -/
theorem readValue_text (h : Utf8.isValid payload = true) (before : Option Document) :
    readValue before (wireField wireTags.text payload ++ rest) =
      readValue (some (.text payload)) rest := by
  obtain ⟨_, hfield⟩ :=
    readField_wireField (show IsTag wireTags.text 3 by decide) payload rest
  rw [readValue, if_neg (wireField_append_ne_nil _ _ _), hfield]
  simp only [h, if_true]

/-- A record goes on with the fields that the value already had. -/
theorem readValue_record (before : Option Document) {fields : List (Bytes × Document)}
    (h : readRecord (fieldsOf before) payload = some fields) :
    readValue before (wireField wireTags.record payload ++ rest) =
      readValue (some (.record fields)) rest := by
  obtain ⟨_, hfield⟩ :=
    readField_wireField (show IsTag wireTags.record 5 by decide) payload rest
  rw [readValue, if_neg (wireField_append_ne_nil _ _ _), hfield]
  simp only [h]

/-- A list goes on with the items that the value already had. -/
theorem readValue_list (before : Option Document) {items : List Document}
    (h : readList (itemsOf before) payload = some items) :
    readValue before (wireField wireTags.list payload ++ rest) =
      readValue (some (.list items)) rest := by
  obtain ⟨_, hfield⟩ :=
    readField_wireField (show IsTag wireTags.list 6 by decide) payload rest
  rw [readValue, if_neg (wireField_append_ne_nil _ _ _), hfield]
  simp only [h]

/-- An item is put behind those that were read before it. -/
theorem readList_item {value : Document} (h : readValue none payload = some value)
    (before : List Document) :
    readList before (wireField wireTags.item payload ++ rest) =
      readList (before ++ [value]) rest := by
  obtain ⟨_, hfield⟩ :=
    readField_wireField (show IsTag wireTags.item 1 by decide) payload rest
  rw [readList, if_neg (wireField_append_ne_nil _ _ _), hfield]
  simp only [h]

/-- An entry sets the field that it is about. -/
theorem readRecord_entry {key : Bytes} {value : Document}
    (h : readEntry [] none payload = some (key, value)) (before : List (Bytes × Document)) :
    readRecord before (wireField wireTags.entry payload ++ rest) =
      readRecord (setField key value before) rest := by
  obtain ⟨_, hfield⟩ :=
    readField_wireField (show IsTag wireTags.entry 1 by decide) payload rest
  rw [readRecord, if_neg (wireField_append_ne_nil _ _ _), hfield]
  simp only [h]

/-- The key of an entry is the last one that is given. -/
theorem readEntry_key (h : Utf8.isValid payload = true) (key : Bytes) (value : Option Document) :
    readEntry key value (wireField wireTags.entryKey payload ++ rest) =
      readEntry payload value rest := by
  obtain ⟨_, hfield⟩ :=
    readField_wireField (show IsTag wireTags.entryKey 1 by decide) payload rest
  rw [readEntry, if_neg (wireField_append_ne_nil _ _ _), hfield]
  simp only [h, if_true]

theorem readEntry_value {before : Option Document} {value : Document}
    (h : readValue before payload = some value) (key : Bytes) :
    readEntry key before (wireField wireTags.entryValue payload ++ rest) =
      readEntry key (some value) rest := by
  obtain ⟨_, hfield⟩ :=
    readField_wireField (show IsTag wireTags.entryValue 2 by decide) payload rest
  rw [readEntry, if_neg (wireField_append_ne_nil _ _ _), hfield]
  simp only [h]

end Fields

/-- An entry that was written is read, if its value is. -/
theorem readEntry_wireField {key payload : Bytes} {value : Document}
    (hkey : Utf8.isValid key = true) (hvalue : readValue none payload = some value) :
    readEntry [] none (wireField wireTags.entryKey key ++ wireField wireTags.entryValue payload) =
      some (key, value) := by
  have hread := readEntry_value [] hvalue key
  rw [List.append_nil] at hread
  rw [readEntry_key _ hkey, hread, readEntry, if_pos rfl, Option.map_some]

/-- A key that is new goes behind the others. -/
theorem setField_of_notMem {key : Bytes} {fields : List (Bytes × Document)}
    (h : key ∉ fields.map Prod.fst) (value : Document) :
    setField key value fields = fields ++ [(key, value)] := by
  induction fields with
  | nil => rfl
  | cons field rest ih =>
    obtain ⟨k, d⟩ := field
    obtain ⟨hne, hrest⟩ : key ≠ k ∧ key ∉ rest.map Prod.fst := by simpa using h
    rw [setField, if_neg fun hk => hne hk.symm, ih hrest, List.cons_append]

mutual

/-- A value that was written is read. -/
theorem readValue_wireValue (d : Document) (hvalid : d.invalidText? = none) (hkeys : d.WellKeyed) :
    readValue none d.wireValue = some d := by
  have hend : ∀ before, readValue before [] = before := by
    intro before
    rw [readValue, if_pos rfl]
  match d with
  | .text value =>
    have hvalue : Utf8.isValid value = true := by simpa [invalidText?] using hvalid
    have hread := readValue_text [] hvalue none
    rwa [List.append_nil, hend] at hread
  | .list items =>
    have hitems := readList_wireItems items hvalid hkeys []
    have hread := readValue_list [] none hitems
    rwa [List.append_nil, hend] at hread
  | .record fields =>
    have hfields := readRecord_wireEntries fields hvalid hkeys.2 [] hkeys.1
    have hread := readValue_record [] none hfields
    rwa [List.append_nil, hend] at hread

/-- The values of a list that was written are read behind those before them. -/
theorem readList_wireItems (items : List Document) (hvalid : invalidItem? items = none)
    (hkeys : ItemsWellKeyed items) (before : List Document) :
    readList before (wireItems items) = some (before ++ items) := by
  match items with
  | [] => rw [wireItems, readList, if_pos rfl, List.append_nil]
  | d :: rest =>
    obtain ⟨hd, hrest⟩ : d.invalidText? = none ∧ invalidItem? rest = none := by
      simpa [invalidItem?] using hvalid
    rw [wireItems, readList_item _ (readValue_wireValue d hd hkeys.1),
      readList_wireItems rest hrest hkeys.2, List.append_assoc, List.singleton_append]

/-- The entries of a record that was written are read behind those before them. -/
theorem readRecord_wireEntries (fields : List (Bytes × Document))
    (hvalid : invalidField? fields = none) (hkeys : FieldsWellKeyed fields)
    (before : List (Bytes × Document)) (hnodup : ((before ++ fields).map Prod.fst).Nodup) :
    readRecord before (wireEntries fields) = some (before ++ fields) := by
  match fields with
  | [] => rw [wireEntries, readRecord, if_pos rfl, List.append_nil]
  | (key, d) :: rest =>
    obtain ⟨hd, hrest⟩ : d.invalidText? = none ∧ invalidField? rest = none := by
      simpa [invalidField?] using hvalid
    obtain ⟨hkey, hkeys', hrestKeys⟩ := hkeys
    have hentry := readEntry_wireField hkey (readValue_wireValue d hd hkeys')
    have hnew : key ∉ before.map Prod.fst := by
      rw [List.map_append, List.nodup_append] at hnodup
      exact fun hmem => hnodup.2.2 key hmem key (by simp) rfl
    -- what is read so far has this entry behind it, and keys stay distinct
    have hshift : before ++ (key, d) :: rest = (before ++ [(key, d)]) ++ rest := by simp
    rw [hshift] at hnodup ⊢
    rw [wireEntries, readRecord_entry _ hentry, setField_of_notMem hnew,
      readRecord_wireEntries rest hrest hrestKeys _ hnodup]

end

/-- **A record that was written is read**: all bytes are used and the record comes out again. -/
theorem read_wireEntries {fields : List (Bytes × Document)}
    (hvalid : (Document.record fields).invalidText? = none)
    (hkeys : (Document.record fields).WellKeyed) :
    read (wireEntries fields) = some (.record fields) := by
  rw [read, readRecord_wireEntries fields hvalid hkeys.2 [] hkeys.1]
  rfl

end Wire

end Bracket.Document

namespace Bracket.Image

/-! ## Images -/

/-- An image is written iff its names are valid, and what is written is its document. -/
theorem encode_proto_eq_ok_iff {image : Image} {encoded : Bytes} :
    image.encode .proto = .ok encoded ↔
      (∀ m ∈ image.modules, Utf8.isValid m.uri = true) ∧
        encoded = Document.wireEntries image.fields :=
  checked_eq_ok_iff

/-- **The wire form of an image loses nothing.** It is refused exactly if the name of some module is
not valid UTF-8. Otherwise reading it uses all bytes and gives the document of the image, so two
images with valid names have the same wire form only if they are equal. -/
theorem encode_proto_lossless (image : Image) :
    ((∃ f, image.encode .proto = .error f) ↔
      ∃ m ∈ image.modules, Utf8.isValid m.uri = false) ∧
    ((∀ m ∈ image.modules, Utf8.isValid m.uri = true) →
      ∃ encoded, image.encode .proto = .ok encoded ∧
        Document.Wire.read encoded = some image.document) ∧
    (∀ other : Image, (∀ m ∈ image.modules, Utf8.isValid m.uri = true) →
      (∀ m ∈ other.modules, Utf8.isValid m.uri = true) →
      image.encode .proto = other.encode .proto → image = other) := by
  have hread : ∀ image : Image, (∀ m ∈ image.modules, Utf8.isValid m.uri = true) →
      Document.Wire.read (Document.wireEntries image.fields) = some image.document := by
    intro image hvalid
    exact Document.Wire.read_wireEntries (invalidText?_document_eq_none_iff.mpr hvalid)
      image.wellKeyed_document
  refine ⟨checked_eq_error_iff, fun hvalid => ?_, fun other hvalid hvalid' hsame => ?_⟩
  · exact ⟨_, encode_proto_eq_ok_iff.mpr ⟨hvalid, rfl⟩, hread image hvalid⟩
  -- read back, the common bytes are both documents
  · rw [encode_proto_eq_ok_iff.mpr ⟨hvalid, rfl⟩,
      encode_proto_eq_ok_iff.mpr ⟨hvalid', rfl⟩] at hsame
    have hdocument := hread image hvalid
    rw [Except.ok.inj hsame, hread other hvalid'] at hdocument
    exact document_injective (Option.some.inj hdocument).symm

/-- A loop of an empty loop and an unknown symbol, under a name that is not ASCII. -/
def nested : Image := ⟨[⟨[0x2F, 0xC3, 0xA9], [.loop [.loop [], .operator (.unknown 200)]]⟩]⟩

/-- The nested image is read again, an empty loop is not lost, and a name that is no text is
refused. -/
theorem encode_proto_lossless_nested :
    (∃ encoded, nested.encode .proto = .ok encoded ∧
      Document.Wire.read encoded = some nested.document) ∧
    (⟨[⟨[0x2F], [.loop []]⟩]⟩ : Image).encode .proto ≠ (⟨[⟨[0x2F], []⟩]⟩ : Image).encode .proto ∧
    ∃ f, (⟨[⟨[0x2F], []⟩, ⟨[0xC3], []⟩]⟩ : Image).encode .proto = .error f := by
  have hslash : Utf8.isValid [0x2F] = true := Utf8.isValid_of_ascii (by decide)
  refine ⟨(encode_proto_lossless _).2.1 ?_, fun hsame => ?_, (encode_proto_lossless _).1.mpr ?_⟩
  · intro m hm
    obtain rfl := List.mem_singleton.mp hm
    cbv
  · have hequal :=
      (encode_proto_lossless _).2.2 _ (by simpa using hslash) (by simpa using hslash) hsame
    simp at hequal
  · refine ⟨⟨[0xC3], []⟩, by simp, ?_⟩
    cbv

end Bracket.Image
