import Bracket.Image.Encode
import Bracket.Proofs.Utf8

/-!
# The documents of images

The printed forms of an image show its document, so what they keep of an image is what its document
keeps. It keeps everything (`Image.document_injective`): the name of a symbol tells the symbol, also
an unknown one, and the one key of an expression tells instructions from loops. A name stands on
one line (`IsLine`), which matters to forms and messages that are read line by line.

A printed form has to be readable again, for which two things matter. Its texts have to be valid,
and in the document of an image only the names of modules can fail to be
(`Image.invalidText?_document_eq_none_iff`). And no record may have a key twice (`WellKeyed`), which
is always so (`Image.wellKeyed_document`).
-/

namespace Bracket

open Utf8

/-! ## Numerals and names -/

namespace Bytes

/-- The digits of a numeral are ASCII digits. -/
theorem toNat_of_mem_toDigits {n : Nat} {c : Char} (h : c ∈ Nat.toDigits 10 n) :
    48 ≤ c.toNat ∧ c.toNat ≤ 57 ∧ c.toNat.toUInt8.toNat = c.toNat := by
  have hdigit := Nat.isDigit_of_mem_toDigits (by omega) (by omega) h
  simp only [Char.isDigit, Bool.and_eq_true, decide_eq_true_eq] at hdigit
  have hlow : 48 ≤ c.toNat := hdigit.1
  have hhigh : c.toNat ≤ 57 := hdigit.2
  refine ⟨hlow, hhigh, ?_⟩
  simp
  omega

theorem ascii_ofNat (n : Nat) : (ofNat n).all (· < 0x80) = true := by
  rw [ofNat, List.all_map, List.all_eq_true]
  intro c hc
  obtain ⟨-, hhigh, hbyte⟩ := toNat_of_mem_toDigits hc
  rw [Function.comp_apply, decide_eq_true_eq, UInt8.lt_iff_toNat_lt, hbyte]
  exact Nat.lt_of_le_of_lt hhigh (by decide)

/-- A numeral tells its number. -/
theorem ofNat_injective {m n : Nat} (h : ofNat m = ofNat n) : m = n := by
  have hdigits : ∀ k, (ofNat k).map (fun b => Char.ofNat b.toNat) = Nat.toDigits 10 k := by
    intro k
    rw [ofNat, List.map_map]
    refine (List.map_congr_left fun c hc => ?_).trans (List.map_id _)
    rw [Function.comp_apply, (toNat_of_mem_toDigits hc).2.2, Char.ofNat_toNat, id]
  have hsame : Nat.toDigits 10 m = Nat.toDigits 10 n := by rw [← hdigits, ← hdigits, h]
  calc m = Nat.ofDigitChars 10 (Nat.toDigits 10 m) 0 := Nat.ofDigitChars_ten_toDigits.symm
    _ = Nat.ofDigitChars 10 (Nat.toDigits 10 n) 0 := by rw [hsame]
    _ = n := Nat.ofDigitChars_ten_toDigits

end Bytes

namespace Symbol

/-- The symbols that are not unknown. -/
def known : List Symbol :=
  [endOfInput, leftBracket, rightBracket, incrementPointer, decrementPointer, incrementValue,
    decrementValue, output, input]

/-- A symbol is one of the nine known ones, or it carries its code. -/
theorem mem_known_or_unknown (s : Symbol) : s ∈ known ∨ ∃ code, s = unknown code := by
  cases s <;> simp [known]

/-- The known symbols have different names. -/
theorem find?_name {s : Symbol} (h : s ∈ known) : known.find? (·.name = s.name) = some s := by
  revert s
  decide

/-- Only the names of unknown symbols begin with an `S`. -/
theorem head?_name_of_known {s : Symbol} (h : s ∈ known) : s.name.head? ≠ some 0x53 := by
  revert s
  decide

/-- The name of an unknown symbol begins with a letter that no other name begins with. -/
theorem head?_name_unknown (code : UInt8) : (unknown code).name.head? = some 0x53 := rfl

/-- **The name of a symbol tells the symbol.** -/
theorem name_injective {s t : Symbol} (h : s.name = t.name) : s = t := by
  rcases mem_known_or_unknown s with hs | ⟨c, rfl⟩ <;>
    rcases mem_known_or_unknown t with ht | ⟨c', rfl⟩
  · have hfound := find?_name hs
    rw [h, find?_name ht] at hfound
    exact (Option.some.inj hfound).symm
  · exact absurd (h ▸ head?_name_unknown c') (head?_name_of_known hs)
  · exact absurd (h ▸ head?_name_unknown c) (head?_name_of_known ht)
  · have hnumeral : Bytes.ofNat c.toNat = Bytes.ofNat c'.toNat := by simpa [name] using h
    rw [UInt8.toNat_inj.mp (Bytes.ofNat_injective hnumeral)]

/-- The names of symbols are ASCII. -/
theorem ascii_name (s : Symbol) : s.name.all (· < 0x80) = true := by
  rcases mem_known_or_unknown s with hs | ⟨code, rfl⟩
  · have hknown : known.all (fun s => s.name.all (· < 0x80)) = true := by decide
    exact List.all_eq_true.mp hknown s hs
  · rw [name, List.all_append, List.all_append, Bytes.ascii_ofNat]
    decide

theorem isValid_name (s : Symbol) : isValid s.name = true := isValid_of_ascii s.ascii_name

end Symbol

/-! ## One line -/

/-- A text without line breaks. -/
def IsLine (text : Bytes) : Prop := 0x0A ∉ text

instance (text : Bytes) : Decidable (IsLine text) := inferInstanceAs (Decidable (0x0A ∉ text))

theorem isLine_append {a b : Bytes} : IsLine (a ++ b) ↔ IsLine a ∧ IsLine b := by
  simp [IsLine]

theorem isLine_ofNat (n : Nat) : IsLine (Bytes.ofNat n) := by
  intro hmem
  obtain ⟨c, hc, hbreak⟩ := List.mem_map.mp hmem
  obtain ⟨hlow, -, hbyte⟩ := Bytes.toNat_of_mem_toDigits hc
  rw [hbreak] at hbyte
  have hvalue : (0x0A : UInt8).toNat = 10 := rfl
  omega

theorem isLine_ofInt (n : Int) : IsLine (Bytes.ofInt n) := by
  cases n with
  | ofNat n => exact isLine_ofNat n
  | negSucc n =>
    rw [Bytes.ofInt, ← List.singleton_append, isLine_append]
    exact ⟨by decide, isLine_ofNat _⟩

theorem Symbol.isLine_name (s : Symbol) : IsLine s.name := by
  rcases mem_known_or_unknown s with hs | ⟨code, rfl⟩
  · revert s
    decide
  · rw [name, isLine_append, isLine_append]
    exact ⟨⟨by decide, isLine_ofNat _⟩, by decide⟩

/-! ## Documents tell images -/

mutual

/-- The document of an expression tells the expression. -/
theorem Expression.document_injective {e e' : Expression} (h : e.document = e'.document) :
    e = e' := by
  match e, e' with
  | .operator s, .operator s' =>
    have hname : s.name = s'.name := by simpa [Expression.document] using h
    rw [Symbol.name_injective hname]
  | .loop body, .loop body' =>
    have hbody : Program.documents body = Program.documents body' := by
      simpa [Expression.document] using h
    rw [Program.documents_injective hbody]
  | .operator _, .loop _ => simp [Expression.document] at h
  | .loop _, .operator _ => simp [Expression.document] at h

/-- The documents of a program tell the program. -/
theorem Program.documents_injective {es es' : List Expression}
    (h : Program.documents es = Program.documents es') : es = es' := by
  match es, es' with
  | [], [] => rfl
  | e :: rest, e' :: rest' =>
    obtain ⟨hfirst, hrest⟩ : e.document = e'.document ∧
        Program.documents rest = Program.documents rest' := by
      simpa [Program.documents] using h
    rw [Expression.document_injective hfirst, Program.documents_injective hrest]
  | [], _ :: _ => simp [Program.documents] at h
  | _ :: _, [] => simp [Program.documents] at h

end

/-- The document of a module gives its name and its program. -/
theorem Module.document_injective {m m' : Module} (h : m.document = m'.document) : m = m' := by
  obtain ⟨uri, program⟩ := m
  obtain ⟨uri', program'⟩ := m'
  obtain ⟨hprogram, rfl⟩ : Program.documents program = Program.documents program' ∧ uri = uri' := by
    simpa [Module.document] using h
  rw [Program.documents_injective hprogram]

/-- **The document of an image tells the image.** -/
theorem Image.document_injective {a b : Image} (h : a.document = b.document) : a = b := by
  obtain ⟨modules⟩ := a
  obtain ⟨modules'⟩ := b
  have hmodules : modules.map Module.document = modules'.map Module.document := by
    simpa [Image.document, Image.fields] using h
  rw [(List.map_inj_right fun _ _ => Module.document_injective).mp hmodules]

/-! ## Valid texts -/

mutual

/-- The texts of an expression are names of symbols, so they are valid. -/
theorem Expression.invalidText?_document (e : Expression) : e.document.invalidText? = none := by
  match e with
  | .operator s =>
    simp [Expression.document, Document.invalidText?, Document.invalidField?, Symbol.isValid_name]
  | .loop body =>
    simp [Expression.document, Document.invalidText?, Document.invalidField?,
      Program.invalidItem?_documents body]

/-- The same for the expressions of a program. -/
theorem Program.invalidItem?_documents (es : List Expression) :
    Document.invalidItem? (Program.documents es) = none := by
  match es with
  | [] => rfl
  | e :: rest =>
    simp [Program.documents, Document.invalidItem?, Expression.invalidText?_document e,
      Program.invalidItem?_documents rest]

end

/-- In the document of a module only the name can be invalid. -/
theorem Module.invalidText?_document_eq_none_iff {m : Module} :
    m.document.invalidText? = none ↔ isValid m.uri = true := by
  simp [Module.document, Document.invalidText?, Document.invalidField?,
    Program.invalidItem?_documents]

/-- **Only the names of modules can be invalid** in the document of an image. -/
theorem Image.invalidText?_document_eq_none_iff {image : Image} :
    image.document.invalidText? = none ↔ ∀ m ∈ image.modules, isValid m.uri = true := by
  obtain ⟨modules⟩ := image
  have hitems : Document.invalidItem? (modules.map Module.document) = none ↔
      ∀ m ∈ modules, isValid m.uri = true := by
    induction modules with
    | nil => simp [Document.invalidItem?]
    | cons m rest ih =>
      rw [List.map_cons, Document.invalidItem?, Option.or_eq_none_iff, ih,
        Module.invalidText?_document_eq_none_iff, List.forall_mem_cons]
  simpa [Image.document, Image.fields, Document.invalidText?, Document.invalidField?] using hitems

/-- **A form of an image that holds text only is written iff its names are valid.** -/
theorem Image.checked_eq_ok_iff {image : Image} {printed encoded : Bytes} :
    (do checkText image.document; return printed : Except Failure Bytes) = .ok encoded ↔
      (∀ m ∈ image.modules, isValid m.uri = true) ∧ encoded = printed := by
  rw [← invalidText?_document_eq_none_iff]
  unfold checkText
  cases h : image.document.invalidText? with
  | none => simp [bind, Except.bind, pure, Except.pure, eq_comm]
  | some text => simp [bind, Except.bind]

/-- Otherwise it is refused. -/
theorem Image.checked_eq_error_iff {image : Image} {printed : Bytes} :
    (∃ f, (do checkText image.document; return printed : Except Failure Bytes) = .error f) ↔
      ∃ m ∈ image.modules, isValid m.uri = false := by
  constructor
  · rintro ⟨f, hf⟩
    by_cases hvalid : ∀ m ∈ image.modules, isValid m.uri = true
    · rw [checked_eq_ok_iff.mpr ⟨hvalid, rfl⟩] at hf
      simp at hf
    · simpa using hvalid
  -- the other way round, nothing is printed of an image with an invalid name
  · rintro ⟨m, hm, hinvalid⟩
    cases hchecked : (do checkText image.document; return printed : Except Failure Bytes) with
    | error f => exact ⟨f, rfl⟩
    | ok encoded =>
      have hvalid := (checked_eq_ok_iff.mp hchecked).1 m hm
      simp [hinvalid] at hvalid

/-! ## Keys -/

namespace Document

mutual

/-- The keys of every record are valid texts, and no record has a key twice. -/
def WellKeyed : Document → Prop
  | .text _ => True
  | .list items => ItemsWellKeyed items
  | .record fields => (fields.map Prod.fst).Nodup ∧ FieldsWellKeyed fields

/-- The same for several documents. -/
def ItemsWellKeyed : List Document → Prop
  | [] => True
  | d :: rest => d.WellKeyed ∧ ItemsWellKeyed rest

/-- The keys are valid texts, and the documents behind them are well-keyed. -/
def FieldsWellKeyed : List (Bytes × Document) → Prop
  | [] => True
  | (key, d) :: rest => isValid key = true ∧ d.WellKeyed ∧ FieldsWellKeyed rest

end

end Document

mutual

/-- A node of the tree is a record with one key, which is ASCII. -/
theorem Expression.wellKeyed_document (e : Expression) : e.document.WellKeyed := by
  match e with
  | .operator s =>
    exact ⟨by simp, isValid_of_ascii (by decide), trivial, trivial⟩
  | .loop body =>
    exact ⟨by simp, isValid_of_ascii (by decide), Program.wellKeyed_documents body, trivial⟩

theorem Program.wellKeyed_documents (es : List Expression) :
    Document.ItemsWellKeyed (Program.documents es) := by
  match es with
  | [] => trivial
  | e :: rest => exact ⟨Expression.wellKeyed_document e, Program.wellKeyed_documents rest⟩

end

theorem Module.wellKeyed_document (m : Module) : m.document.WellKeyed :=
  ⟨show [bytes "program", bytes "uri"].Nodup by decide, isValid_of_ascii (by decide),
    Program.wellKeyed_documents m.program, isValid_of_ascii (by decide), trivial, trivial⟩

/-- **No record of an image has a key twice.** -/
theorem Image.wellKeyed_document (image : Image) : image.document.WellKeyed := by
  have hitems : ∀ modules : List Module,
      Document.ItemsWellKeyed (modules.map Module.document) := by
    intro modules
    induction modules with
    | nil => trivial
    | cons m rest ih => exact ⟨m.wellKeyed_document, ih⟩
  exact ⟨by simp [fields], isValid_of_ascii (by decide), hitems image.modules, trivial⟩

end Bracket
