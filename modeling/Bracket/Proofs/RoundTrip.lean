import Bracket.Proofs.Commands
import Bracket.Proofs.Grammar.Recognition

/-!
# Printing and parsing

The text of a program has no comments, so a file that holds it is lexed to the symbols of the
program and parsed to the program itself. The other way round, parsing forgets the comments of a
file and nothing else: the text of the parsed program is what remains of the file when only the
commands before its first zero byte are kept.

Both directions compose three facts, each proved in its own place: lexing finds the command bytes,
the texts of symbols are their spellings, and parsing inverts the flattening of well-formed programs
(`Grammar.parse_eq_ok_iff`).
-/

namespace Bracket

/-! ## The text of a program -/

mutual

/-- The text of an expression is the text of its symbols. -/
theorem Expression.text_eq (e : Expression) : e.text = e.symbols.flatMap Symbol.text := by
  match e with
  | .operator s => simp [Expression.text, Expression.symbols]
  | .loop body => simp [Expression.text, Expression.symbols, Program.text_eq body]

/-- The text of a program is the text of its symbols. -/
theorem Program.text_eq (es : List Expression) :
    Program.text es = (Program.symbols es).flatMap Symbol.text := by
  match es with
  | [] => rfl
  | e :: rest =>
    simp [Program.text, Program.symbols, Expression.text_eq e, Program.text_eq rest]

end

/-- Every operator has a spelling. -/
theorem Symbol.spelling_of_isOperator {s : Symbol} (h : s.isOperator = true) :
    ∃ b, s.spelling? = some b := by
  cases s <;> simp_all [Symbol.isOperator, Symbol.spelling?]

mutual

/-- Every symbol of a well-formed expression has a spelling. -/
theorem Expression.spelling_of_mem {e : Expression} (h : e.isWellFormed = true) {s : Symbol}
    (hs : s ∈ e.symbols) : ∃ b, s.spelling? = some b := by
  match e with
  | .operator s' =>
    obtain rfl : s = s' := by simpa [Expression.symbols] using hs
    exact Symbol.spelling_of_isOperator (by simpa [Expression.isWellFormed] using h)
  | .loop body =>
    simp only [Expression.isWellFormed, Bool.and_eq_true] at h
    simp only [Expression.symbols, List.mem_cons, List.mem_append, List.not_mem_nil,
      or_false] at hs
    rcases hs with rfl | hs | rfl
    · exact ⟨_, rfl⟩
    · exact Program.spelling_of_mem h.2 hs
    · exact ⟨_, rfl⟩

/-- Every symbol of a well-formed program has a spelling. -/
theorem Program.spelling_of_mem {es : List Expression} (h : Program.isWellFormed es = true)
    {s : Symbol} (hs : s ∈ Program.symbols es) : ∃ b, s.spelling? = some b := by
  match es with
  | [] => simp [Program.symbols] at hs
  | e :: rest =>
    simp only [Program.isWellFormed, Bool.and_eq_true] at h
    rcases List.mem_append.mp hs with hs | hs
    · exact Expression.spelling_of_mem h.1 hs
    · exact Program.spelling_of_mem h.2 hs

end

/-! ## Files that hold a text -/

namespace Module

/-- What parsing a file without faults gives. -/
def ofContent (path : Bytes) (report : Report) (content : Bytes) : Parsed :=
  (ofBody false path report (.ok (.ofDevice path (.ofContent content)))).1

/-- A file is parsed by its tokens. -/
theorem ofContent_eq (path : Bytes) (report : Report) (content : Bytes) :
    ofContent path report content =
      ofTokens path report (Token.scan .start (Utf8.decodeAll content)) := by
  simp only [ofContent, ofBody, tokens_ofContent]

/-- Parsing the tokens of a text is parsing the symbols that its bytes spell; none of them is the
end of input. -/
theorem parse_symbols_eq_ok_iff {content : Bytes} {program : Program} :
    Grammar.parse ((Token.scan .start (Utf8.decodeAll content)).map (·.symbol)) = .ok program ↔
      Program.isWellFormed program = true ∧
        Program.symbols program = (beforeZero content).filterMap Symbol.ofByte? := by
  have hend : Symbol.endOfInput ∉ (beforeZero content).filterMap Symbol.ofByte? := by
    rw [List.mem_filterMap]
    rintro ⟨b, -, hb⟩
    exact Symbol.ofByte?_ne_endOfInput hb
  rw [Grammar.parse_eq_ok_iff, symbols_scan_decodeAll, beforeEnd_eq_self hend]

/-- A file whose commands are those of a well-formed program is parsed without any report. -/
theorem ofContent_of_symbols {path : Bytes} {report : Report} {content : Bytes} {program : Program}
    (hwf : Program.isWellFormed program = true)
    (hsymbols : Program.symbols program = (beforeZero content).filterMap Symbol.ofByte?) :
    ofContent path report content = ⟨some ⟨path, program⟩, none, report⟩ := by
  rw [ofContent_eq, ofTokens, parse_symbols_eq_ok_iff.mpr ⟨hwf, hsymbols⟩]

/-- A file that gives a module has the commands of a well-formed program. -/
theorem symbols_of_ofContent {path : Bytes} {report : Report} {content : Bytes} {m : Module}
    (h : (ofContent path report content).module? = some m) :
    Program.isWellFormed m.program = true ∧
      Program.symbols m.program = (beforeZero content).filterMap Symbol.ofByte? := by
  rw [ofContent_eq, ofTokens] at h
  cases hparse : Grammar.parse ((Token.scan .start (Utf8.decodeAll content)).map (·.symbol)) with
  | error d => simp [hparse] at h
  | ok program =>
    obtain rfl : ⟨path, program⟩ = m := by simpa [hparse] using h
    exact parse_symbols_eq_ok_iff.mp hparse

/-- The text of a well-formed program is parsed as that program. -/
theorem ofContent_text {program : Program} (hwf : Program.isWellFormed program = true)
    (path : Bytes) (report : Report) :
    ofContent path report (Program.text program) = ⟨some ⟨path, program⟩, none, report⟩ := by
  refine ofContent_of_symbols hwf ?_
  -- every symbol of a well-formed program is spelled by one byte and found again
  rw [Program.text_eq]
  exact (filterMap_flatMap_text fun s hs => Program.spelling_of_mem hwf hs).symm

/-- **Printing and parsing are inverse.** The text of a well-formed program is parsed as that
program, without any report. For any content that gives a module, the text of its program is the
sequence of command bytes before the first zero byte, and it is parsed as the same program. -/
theorem text_ofContent_inverse (path : Bytes) (report : Report) :
    (∀ program : Program, Program.isWellFormed program = true →
      ofContent path report (Program.text program) = ⟨some ⟨path, program⟩, none, report⟩) ∧
    (∀ content m, (ofContent path report content).module? = some m →
      Program.text m.program = commandBytes content ∧
        ofContent path report (Program.text m.program) =
          ⟨some ⟨path, m.program⟩, none, report⟩) := by
  refine ⟨fun program hwf => ofContent_text hwf path report, fun content m hm => ?_⟩
  obtain ⟨hwf, hsymbols⟩ := symbols_of_ofContent hm
  refine ⟨?_, ofContent_text hwf path report⟩
  rw [Program.text_eq, hsymbols, flatMap_text_filterMap]

/-- A byte order mark, a lone lead byte and a comment are dropped, and so is everything behind a
zero byte: the content is `+`, `[`, `-`, `a`, `]`, zero and `.` among such bytes. -/
theorem text_ofContent_inverse_mixed :
    (ofContent [] (.empty [])
      [0xEF, 0xBB, 0xBF, 0x2B, 0xC3, 0x5B, 0x2D, 0x61, 0x5D, 0x00, 0x2E]).module? =
        some ⟨[], [.operator .incrementValue, .loop [.operator .decrementValue]]⟩ ∧
    Program.text [.operator .incrementValue, .loop [.operator .decrementValue]] =
      commandBytes [0xEF, 0xBB, 0xBF, 0x2B, 0xC3, 0x5B, 0x2D, 0x61, 0x5D, 0x00, 0x2E] := by
  have hwf : Program.isWellFormed
      [.operator .incrementValue, .loop [.operator .decrementValue]] = true := rfl
  have hsymbols : Program.symbols [.operator .incrementValue, .loop [.operator .decrementValue]] =
      (beforeZero [0xEF, 0xBB, 0xBF, 0x2B, 0xC3, 0x5B, 0x2D, 0x61, 0x5D, 0x00, 0x2E]).filterMap
        Symbol.ofByte? := by decide
  have hparsed : ofContent [] (.empty []) _ = _ := ofContent_of_symbols hwf hsymbols
  have hmodule := congrArg Parsed.module? hparsed
  exact ⟨hmodule, ((text_ofContent_inverse [] (.empty [])).2 _ _ hmodule).1⟩

end Module

end Bracket
