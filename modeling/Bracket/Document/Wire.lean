import Bracket.Document

/-!
# Wire format

The binary form of a document as a structure of dynamic values. Every part is a field (`wireField`):
a tag byte, the length of the payload as a base-128 number (`varint`), and the payload.

* a record is a sequence of entries, each with key and value;
* a list is a sequence of values;
* a value is a text, a record or a list, told apart by its tag.
-/

namespace Bracket.Document

/-- A number in groups of seven bits, low groups first; every byte but the last has its high bit
set. -/
def varint (n : Nat) : Bytes :=
  if n < 128 then [n.toUInt8] else (n % 128 + 128).toUInt8 :: varint (n / 128)

/-- A tag, the length of the payload, and the payload. -/
def wireField (tag : UInt8) (payload : Bytes) : Bytes :=
  tag :: (varint payload.length ++ payload)

structure WireTags where
  entry : UInt8
  entryKey : UInt8
  entryValue : UInt8
  item : UInt8
  text : UInt8
  record : UInt8
  list : UInt8

/-- Entries and items are field 1; in an entry the key is field 1 and the value field 2; a value is
field 3 for a text, field 5 for a record and field 6 for a list. -/
def wireTags : WireTags where
  entry := 0x0A
  entryKey := 0x0A
  entryValue := 0x12
  item := 0x0A
  text := 0x1A
  record := 0x2A
  list := 0x32

mutual

/-- A document as a value. -/
def wireValue : Document → Bytes
  | .text value => wireField wireTags.text value
  | .list items => wireField wireTags.list (wireItems items)
  | .record fields => wireField wireTags.record (wireEntries fields)

/-- The values of a list. -/
def wireItems : List Document → Bytes
  | [] => []
  | d :: rest => wireField wireTags.item d.wireValue ++ wireItems rest

/-- The entries of a record. -/
def wireEntries : List (Bytes × Document) → Bytes
  | [] => []
  | (key, d) :: rest =>
    wireField wireTags.entry
        (wireField wireTags.entryKey key ++ wireField wireTags.entryValue d.wireValue) ++
      wireEntries rest

end

end Bracket.Document
