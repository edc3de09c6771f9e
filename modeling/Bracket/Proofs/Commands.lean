import Bracket.Proofs.Lexing

/-!
# The commands of a text

The lexer sees code points, and a text is bytes. All eight commands are ASCII, and in a sequence of
several bytes, well-formed or not, no byte is ASCII. So the symbols of a text can be read off its
bytes: `symbols_scan_decodeAll` says that decoding and scanning finds exactly the command bytes
before the first zero byte, in order.

Commands and their spellings are two directions of one table (`ofCodePoint?_toNat_eq_some_iff`), and
that is all the last section uses.
-/

namespace Bracket

open Utf8

/-- The eight characters which are commands, `[]><+-.,`. -/
def commands : Bytes := [0x5B, 0x5D, 0x3E, 0x3C, 0x2B, 0x2D, 0x2E, 0x2C]

/-- The bytes before the first zero byte. -/
def beforeZero (content : Bytes) : Bytes := content.takeWhile (· ≠ 0)

/-- The commands before the first zero byte. -/
def commandBytes (content : Bytes) : Bytes := (beforeZero content).filter (· ∈ commands)

example : commands = bytes "[]><+-.," := by decide

/-- The symbol that a byte spells. -/
def Symbol.ofByte? (b : UInt8) : Option Symbol := ofCodePoint? b.toNat

namespace Symbol

/-- The table of commands reads the same in both directions. -/
theorem ofByte?_eq_some_iff {b : UInt8} {s : Symbol} :
    ofByte? b = some s ↔ s.spelling? = some b := by
  constructor
  · intro h
    unfold ofByte? ofCodePoint? at h
    split at h <;> rename_i hb <;> simp only [Option.some.injEq, reduceCtorEq] at h <;> subst h <;>
      rw [spelling?, Option.some.injEq, ← UInt8.toNat_inj, hb] <;> rfl
  · exact ofCodePoint?_spelling

/-- A byte spells a symbol iff it is one of the eight commands. -/
theorem ofByte?_isSome_iff {b : UInt8} : (ofByte? b).isSome = true ↔ b ∈ commands := by
  constructor
  · intro h
    obtain ⟨s, hs⟩ := Option.isSome_iff_exists.mp h
    have hb := ofByte?_eq_some_iff.mp hs
    cases s <;> simp [spelling?] at hb <;> subst hb <;> decide
  · intro h
    simp only [commands, List.mem_cons, List.not_mem_nil, or_false] at h
    rcases h with rfl | rfl | rfl | rfl | rfl | rfl | rfl | rfl <;> rfl

/-- No command is outside ASCII. -/
theorem ofCodePoint?_high {n : Nat} (h : 128 ≤ n) : ofCodePoint? n = none := by
  unfold ofCodePoint?
  split <;> first | omega | rfl

theorem ofByte?_ne_endOfInput {b : UInt8} : ofByte? b ≠ some endOfInput := by
  rw [ne_eq, ofByte?_eq_some_iff]
  simp [spelling?]

/-- A byte that spells a command is one of the eight. -/
theorem mem_commands {b : UInt8} {s : Symbol} (h : ofByte? b = some s) : b ∈ commands := by
  rw [← ofByte?_isSome_iff, h]
  rfl

theorem notMem_commands {b : UInt8} (h : ofByte? b = none) : b ∉ commands := by
  rw [← ofByte?_isSome_iff, h]
  simp

/-- A zero byte is no command. -/
theorem ne_zero_of_ofByte? {b : UInt8} {s : Symbol} (h : ofByte? b = some s) : b ≠ 0 := by
  rintro rfl
  simp [ofByte?, ofCodePoint?] at h

/-- The text of a symbol that a byte spells is that byte. -/
theorem text_of_ofByte? {b : UInt8} {s : Symbol} (h : ofByte? b = some s) : s.text = [b] := by
  rw [text, ofByte?_eq_some_iff.mp h]
  rfl

end Symbol

/-! ## From code points to bytes -/

/-- A scan finds the commands among the code points before the first zero. -/
theorem symbols_scan (m : Mark) (xs : List Scalar) :
    (Token.scan m xs).map (·.symbol) =
      ((xs.map (·.point)).takeWhile (· ≠ 0)).filterMap Symbol.ofCodePoint? := by
  fun_induction Token.scan m xs with
  | case1 m => rfl
  | case2 m s rest hz => simp [hz]
  | case3 m s rest hz hb ih =>
    -- a byte order mark is no command
    have hmark : Symbol.ofCodePoint? s.point = none :=
      Symbol.ofCodePoint?_high (by simp [hb.1, Lexer.byteOrderMark])
    simp [hz, hmark, ih]
  | case4 m s rest hz hb behind hs ih => simp [hz, hs, ih]
  | case5 m s rest hz hb behind symbol hs ih => simp [hz, hs, ih]

/-- A byte that is not ASCII is neither zero nor a command. -/
theorem comment_of_high {c : UInt8} (h : 128 ≤ c.toNat) : c ≠ 0 ∧ Symbol.ofByte? c = none := by
  refine ⟨?_, Symbol.ofCodePoint?_high h⟩
  rintro rfl
  simp at h

/-- Decoding hides nothing from a probe that knows ASCII only, and shows it nothing else. -/
theorem filterMap_decodeAll {β : Type} {probe : Nat → Option β}
    (hprobe : ∀ n, 128 ≤ n → probe n = none) (content : Bytes) :
    (decodeAll content).filterMap (fun s => probe s.point) =
      content.filterMap (fun b => probe b.toNat) := by
  fun_induction decodeAll content with
  | case1 => rfl
  | case2 b rest s ih =>
    by_cases hb : b < 0x80
    · have hs : s = ⟨b.toNat, 1⟩ := decode_ascii hb rest
      rw [hs] at ih ⊢
      rw [List.filterMap_cons, List.filterMap_cons, ih]
      rfl
    · -- the sequence is skipped as a whole on one side, and byte by byte on the other
      have hpoint : probe s.point = none := hprobe _ (decode_high hb rest).1
      have hbytes : ∀ c ∈ b :: rest.take (s.width - 1), probe c.toNat = none :=
        fun c hc => hprobe _ (decode_high_bytes hb rest c hc)
      have hsplit : b :: rest =
          (b :: rest.take (s.width - 1)) ++ rest.drop (s.width - 1) := by simp
      rw [List.filterMap_cons, hpoint, ih, hsplit, List.filterMap_append,
        List.filterMap_eq_nil_iff.mpr hbytes, List.nil_append]

/-- What a lexer makes of a code point: a zero ends its call with nothing, a command is answered
with its symbol, and all else is passed over. -/
def Symbol.answer? (point : Nat) : Option (Option Symbol) :=
  if point = 0 then some none else (ofCodePoint? point).map some

/-- No code point outside ASCII is answered. -/
theorem Symbol.answer?_high (n : Nat) (h : 128 ≤ n) : answer? n = none := by
  rw [answer?, if_neg (by omega), ofCodePoint?_high h, Option.map_none]

/-- The symbols before the first zero are the answers before the first empty one. -/
theorem Symbol.filterMap_takeWhile (points : List Nat) :
    (points.takeWhile (· ≠ 0)).filterMap ofCodePoint? =
      ((points.filterMap answer?).takeWhile Option.isSome).filterMap id := by
  induction points with
  | nil => rfl
  | cons n rest ih =>
    by_cases hn : n = 0
    · simp [hn, answer?]
    · cases hs : ofCodePoint? n with
      | none => simpa [hn, hs, answer?] using ih
      | some s => simpa [hn, hs, answer?] using ih

/-- **Decoding neither hides nor invents a command**, and it does not move the first zero. -/
theorem symbols_decodeAll (content : Bytes) :
    (((decodeAll content).map (·.point)).takeWhile (· ≠ 0)).filterMap Symbol.ofCodePoint? =
      (beforeZero content).filterMap Symbol.ofByte? := by
  have hzero : (fun b : UInt8 => decide (b ≠ 0)) =
      (fun n : Nat => decide (n ≠ 0)) ∘ UInt8.toNat := by
    funext b
    simp [← UInt8.toNat_inj]
  have hbytes : (beforeZero content).filterMap Symbol.ofByte? =
      ((content.map UInt8.toNat).takeWhile (· ≠ 0)).filterMap Symbol.ofCodePoint? := by
    rw [List.takeWhile_map, List.filterMap_map, ← hzero]
    rfl
  have hanswers : ((decodeAll content).map (·.point)).filterMap Symbol.answer? =
      (content.map UInt8.toNat).filterMap Symbol.answer? := by
    rw [List.filterMap_map, List.filterMap_map]
    exact filterMap_decodeAll Symbol.answer?_high content
  rw [hbytes, Symbol.filterMap_takeWhile, Symbol.filterMap_takeWhile, hanswers]

/-- **Lexing finds exactly the command bytes** before the first zero byte, in order. -/
theorem symbols_scan_decodeAll (m : Mark) (content : Bytes) :
    (Token.scan m (decodeAll content)).map (·.symbol) =
      (beforeZero content).filterMap Symbol.ofByte? := by
  rw [symbols_scan, symbols_decodeAll]

/-- The bytes that spell a symbol are the commands, and each is the spelling of its symbol. -/
theorem spelling_filterMap_ofByte? (text : Bytes) :
    (text.filterMap Symbol.ofByte?).map Symbol.spelling? =
      (text.filter (· ∈ commands)).map some := by
  induction text with
  | nil => rfl
  | cons b rest ih =>
    cases hb : Symbol.ofByte? b with
    | none =>
      have hmem := Symbol.notMem_commands hb
      rw [List.filterMap_cons_none hb, List.filter_cons_of_neg (by simpa using hmem), ih]
    | some s =>
      have hmem := Symbol.mem_commands hb
      rw [List.filterMap_cons_some hb, List.filter_cons_of_pos (by simpa using hmem),
        List.map_cons, List.map_cons, ih, Symbol.ofByte?_eq_some_iff.mp hb]

/-- **Lexing finds exactly the commands of a file.** The tokens up to the first absent one spell, in
order, the command bytes before the first zero byte, whatever stands between them: valid code points
or malformed, truncated and overlong sequences. -/
theorem spelling_read_eq_commandBytes (uri content : Bytes) :
    (Lexer.read uri content).map (·.symbol.spelling?) = (commandBytes content).map some := by
  rw [Lexer.read_eq, commandBytes, ← spelling_filterMap_ofByte?, ← symbols_scan_decodeAll .start,
    List.map_map]
  rfl

/-! ## From symbols to text -/

/-- The command bytes are the texts of the symbols that the bytes spell. -/
theorem flatMap_text_filterMap (content : Bytes) :
    ((beforeZero content).filterMap Symbol.ofByte?).flatMap Symbol.text = commandBytes content := by
  have htexts : ∀ symbols : List Symbol,
      symbols.flatMap Symbol.text = (symbols.map Symbol.spelling?).flatMap Option.toList := by
    intro symbols
    rw [List.flatMap_map]
    rfl
  rw [htexts, spelling_filterMap_ofByte?, List.flatMap_map]
  simp [commandBytes]

/-- A byte other than zero at the front. -/
private theorem beforeZero_cons {b : UInt8} (h : b ≠ 0) (rest : Bytes) :
    beforeZero (b :: rest) = b :: beforeZero rest := by
  simp [beforeZero, h]

/-- Symbols that have a spelling are found again in their text. -/
theorem filterMap_flatMap_text {symbols : List Symbol}
    (h : ∀ s ∈ symbols, ∃ b, s.spelling? = some b) :
    (beforeZero (symbols.flatMap Symbol.text)).filterMap Symbol.ofByte? = symbols := by
  induction symbols with
  | nil => rfl
  | cons s rest ih =>
    obtain ⟨b, hb⟩ := h s (by simp)
    have hbyte : Symbol.ofByte? b = some s := Symbol.ofByte?_eq_some_iff.mpr hb
    rw [List.flatMap_cons, Symbol.text_of_ofByte? hbyte, List.singleton_append,
      beforeZero_cons (Symbol.ne_zero_of_ofByte? hbyte), List.filterMap_cons_some hbyte,
      ih fun x hx => h x (List.mem_cons_of_mem s hx)]

end Bracket
