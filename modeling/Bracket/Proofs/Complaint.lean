import Mathlib.Data.List.Basic
import Mathlib.Data.List.TakeWhile
import Bracket.Proofs.Compilation.Verdicts
import Bracket.Proofs.Document
import Bracket.Proofs.FailurePlace

/-!
# What is said about a text that cannot be parsed

A text is a program if its commands are those of a well-formed one (`IsProgramText`), whatever else
stands between them. A text that is none has a longest beginning that is one, and behind it a
command which no program can go on with (`StopsAt`). That command is what a diagnosis of the text is
about.

Parsing finds it as the index of a symbol, and that index is the one of a token. So it remains to
find the byte: the symbols in front of the token are the commands in front of its byte
(`exists_command`), and the beginnings of a text are its beginnings as symbols with comments behind
them. The diagnosis is told on one line, for nothing in its wording breaks a line.
-/

namespace Bracket

/-! ## Texts of programs -/

/-- The commands of the text are those of a well-formed program. -/
def IsProgramText (text : Bytes) : Prop :=
  ∃ program : Program, Program.isWellFormed program = true ∧
    Program.text program = text.filter (· ∈ commands)

/-- The longest beginning of the text that is a program ends at byte `k`, where a command stands. -/
structure StopsAt (text : Bytes) (k : Nat) : Prop where
  command : ∃ b ∈ commands, text[k]? = some b
  program : IsProgramText (text.take k)
  longest : ∀ j, k < j → j ≤ text.length → ¬ IsProgramText (text.take j)

theorem beforeZero_eq_self {text : Bytes} (h : 0 ∉ text) : beforeZero text = text := by
  refine List.takeWhile_eq_self_iff.mpr fun b hb => ?_
  have hne : b ≠ 0 := fun hzero => h (hzero ▸ hb)
  simpa using hne

/-- A well-formed program has the symbols of a text iff it has its commands. -/
theorem Program.symbols_eq_iff {program : Program} (hwf : Program.isWellFormed program = true)
    {text : Bytes} (h : 0 ∉ text) :
    Program.symbols program = text.filterMap Symbol.ofByte? ↔
      Program.text program = text.filter (· ∈ commands) := by
  constructor
  · intro hsymbols
    rw [Program.text_eq, hsymbols]
    simpa only [commandBytes, beforeZero_eq_self h] using flatMap_text_filterMap text
  · intro htext
    have hzero : 0 ∉ text.filter (· ∈ commands) := fun hmem => h (List.mem_of_mem_filter hmem)
    have hfound := filterMap_flatMap_text fun s hs => Program.spelling_of_mem hwf hs
    rw [← Program.text_eq, htext, beforeZero_eq_self hzero, List.filterMap_filter] at hfound
    rw [← hfound]
    refine List.filterMap_congr fun b _ => ?_
    cases hb : Symbol.ofByte? b with
    | none => simp
    | some s => simp [Symbol.mem_commands hb]

/-- No byte stands for the end of the input. -/
theorem endOfInput_notMem (text : Bytes) : Symbol.endOfInput ∉ text.filterMap Symbol.ofByte? := by
  rw [List.mem_filterMap]
  rintro ⟨b, -, hb⟩
  exact Symbol.ofByte?_ne_endOfInput hb

/-- Parsing the tokens of a text without zero bytes. -/
theorem parse_text_eq_ok_iff {text : Bytes} (h : 0 ∉ text) {program : Program} :
    Grammar.parse (text.filterMap Symbol.ofByte?) = .ok program ↔
      Program.isWellFormed program = true ∧
        Program.text program = text.filter (· ∈ commands) := by
  rw [Grammar.parse_eq_ok_iff, beforeEnd_eq_self (endOfInput_notMem text)]
  exact and_congr_right fun hwf => Program.symbols_eq_iff hwf h

/-- Parsing tells whether a text is a program. -/
theorem isProgramText_iff {text : Bytes} (h : 0 ∉ text) :
    IsProgramText text ↔ (Grammar.parse (text.filterMap Symbol.ofByte?)).isOk = true := by
  simp only [IsProgramText, ← parse_text_eq_ok_iff h]
  cases Grammar.parse (text.filterMap Symbol.ofByte?) <;> simp [Except.isOk, Except.toBool]

/-! ## From symbols to bytes -/

/-- Every symbol of a text is a command at some byte, and the symbols in front of it are the
commands in front of that byte. -/
theorem exists_command {text : Bytes} (hzero : 0 ∉ text) (n : Nat) {k : Nat}
    (hk : k < (text.filterMap Symbol.ofByte?).length) :
    ∃ b j, (commandsFrom n text)[k]? = some (b, n + j) ∧ text[j]? = some b ∧ b ∈ commands ∧
      ((text.take j).filterMap Symbol.ofByte?).length = k := by
  induction text generalizing n k with
  | nil => simp at hk
  | cons c rest ih =>
    obtain ⟨hc, hrest⟩ := not_or.mp (mt List.mem_cons.mpr hzero)
    cases hsymbol : Symbol.ofByte? c with
    | none =>
      rw [List.filterMap_cons_none hsymbol] at hk
      obtain ⟨b, j, hcommand, hbyte, hmem, hlength⟩ := ih hrest (n + 1) hk
      refine ⟨b, j + 1, ?_, hbyte, hmem, ?_⟩
      · rw [commandsFrom_comment (Ne.symm hc) (Symbol.notMem_commands hsymbol), hcommand,
          Nat.add_right_comm, Nat.add_assoc]
      · rw [List.take_succ_cons, List.filterMap_cons_none hsymbol, hlength]
    | some s =>
      have hcommands := Symbol.mem_commands hsymbol
      rw [commandsFrom_command (Ne.symm hc) hcommands]
      rw [List.filterMap_cons_some hsymbol, List.length_cons] at hk
      cases k with
      | zero => exact ⟨c, 0, rfl, rfl, hcommands, rfl⟩
      | succ k =>
        obtain ⟨b, j, hcommand, hbyte, hmem, hlength⟩ :=
          ih hrest (n + 1) (Nat.lt_of_succ_lt_succ hk)
        refine ⟨b, j + 1, ?_, hbyte, hmem, ?_⟩
        · rw [List.getElem?_cons_succ, hcommand, Nat.add_right_comm, Nat.add_assoc]
        · rw [List.take_succ_cons, List.filterMap_cons_some hsymbol, List.length_cons, hlength]

/-- The beginnings of a text, as symbols. -/
theorem filterMap_take (text : Bytes) (j : Nat) :
    (text.take j).filterMap Symbol.ofByte? = (text.filterMap Symbol.ofByte?).take
      ((text.take j).filterMap Symbol.ofByte?).length :=
  List.prefix_iff_eq_take.mp ((List.take_prefix j text).filterMap _)

/-- **A text that cannot be parsed stops at the byte of the symbol that the diagnosis is about.** -/
theorem exists_stopsAt {text : Bytes} (hzero : 0 ∉ text) {d : Diagnosis}
    (h : Grammar.parse (text.filterMap Symbol.ofByte?) = .error d) :
    ∃ k b j, d.location = .ofSymbolIndex k ∧ d.code = .trailingInput ∧ k < text.length ∧
      (commandsFrom 0 text)[k]? = some (b, j) ∧ StopsAt text j := by
  obtain ⟨k, cause, hk, hlongest, -, rfl⟩ := Grammar.parse_eq_error_longest h
  rw [beforeEnd_eq_self (endOfInput_notMem text)] at hk hlongest
  obtain ⟨program, hprogram⟩ := hlongest.parsed
  obtain ⟨b, j, hcommand, hbyte, hmem, hlength⟩ := exists_command hzero 0 hk
  rw [Nat.zero_add] at hcommand
  have hzeros : ∀ i, 0 ∉ text.take i := fun i hi => hzero (List.mem_of_mem_take hi)
  have hk' : k < text.length := Nat.lt_of_lt_of_le hk (List.length_filterMap_le _ _)
  refine ⟨k, b, j, rfl, rfl, hk', hcommand, ⟨b, hmem, hbyte⟩, ?_, ?_⟩
  · rw [← hlength, ← filterMap_take, parse_text_eq_ok_iff (hzeros j)] at hprogram
    exact ⟨program, hprogram⟩
  · rintro i hi hi' ⟨longer, hlonger⟩
    rw [← parse_text_eq_ok_iff (hzeros i), filterMap_take] at hlonger
    have hle := hlongest.le_of_parse_eq_ok
      (List.Sublist.filterMap _ (List.take_sublist i text)).length_le hlonger
    -- the command at byte `j` is one symbol more
    obtain ⟨s, hs⟩ := Option.isSome_iff_exists.mp (Symbol.ofByte?_isSome_iff.mpr hmem)
    have hmore : ((text.take (j + 1)).filterMap Symbol.ofByte?).length = k + 1 := by
      rw [List.take_add_one, hbyte, List.filterMap_append, List.length_append, hlength,
        Option.toList_some, List.filterMap_cons_some hs, List.filterMap_nil,
        List.length_singleton]
    have hsub : (text.take (j + 1)).Sublist (text.take i) := List.take_sublist_take_left hi
    have hsymbols := (hsub.filterMap Symbol.ofByte?).length_le
    omega

/-! ## The place of a complaint -/

/-- The diagnosis of a text is moved to the place of the byte that the text stops at. -/
theorem Module.location_relocate {path text : Bytes} (hlength : text.length < 2 ^ 63)
    {d : Diagnosis} {k j : Nat} {b : UInt8} (hk : k < text.length)
    (hlocation : d.location = .ofSymbolIndex k)
    (hcommand : (commandsFrom 0 text)[k]? = some (b, j)) :
    (relocate path (Lexer.read path text) d).location = ⟨path, place text j⟩ := by
  have hview := congrArg (·[k]?) (Lexer.view_read path hlength)
  rw [List.getElem?_map, List.getElem?_map, hcommand] at hview
  obtain ⟨t, ht, htview⟩ := Option.map_eq_some_iff.mp hview
  have hstart : t.start = place text j := congrArg (·.2.1) htview
  have hoffset : d.location.position.offset.toInt = k := by
    rw [hlocation]
    exact Int64.toInt_ofNat_of_lt (by omega)
  rw [relocate_of_getElem? hoffset ht, hstart]

/-- Lines and columns have 32 bits. -/
theorem place_line (text : Bytes) (k : Nat) :
    (place text k).line = Int32.ofNat (1 + lineBreaks text k) := by
  rw [Nat.add_comm]
  rfl

theorem place_column (text : Bytes) (k : Nat) :
    (place text k).column = Int32.ofNat (1 + columnsBefore text k) := by
  rw [Nat.add_comm, Int32.ofNat_add]
  rfl

/-! ## One line -/

namespace Grammar

variable {c : Cursor} {d : Diagnosis}

/-- The message about a symbol that is not the wanted one has no line break. -/
theorem isLine_unexpected (code : Code) {wanted : String} (h : IsLine (bytes wanted)) :
    IsLine (unexpected c code wanted).message := by
  have hmessage : (unexpected c code wanted).message =
      bytes "expected " ++ bytes wanted ++ bytes " but got " ++ c.symbol.name := rfl
  rw [hmessage, isLine_append, isLine_append, isLine_append]
  exact ⟨⟨⟨by decide, h⟩, by decide⟩, c.symbol.isLine_name⟩

/-- Why there is no loop is told on one line. -/
theorem isLine_of_loop_refuses (h : (loop c).Refuses d) : IsLine d.message := by
  rcases loop_refuses_iff.mp h with ⟨-, rfl⟩ | ⟨-, hlist⟩ | ⟨-, body, last, -, -, rfl⟩
  · exact isLine_unexpected _ (by decide)
  · obtain ⟨-, rfl⟩ := list_refuses_iff.mp hlist
    show IsLine (bytes "expected at least one expression")
    decide
  · exact isLine_unexpected _ (by decide)

/-- Why there is no expression is told on one line. -/
theorem isLine_of_expression_refuses (h : (expression c).Refuses d) : IsLine d.message := by
  obtain ⟨noLoop, noOperator, hloop, hoperator, rfl⟩ := expression_refuses_iff.mp h
  obtain ⟨-, rfl⟩ := operator_refuses_iff.mp hoperator
  have hmessage : ∀ a b : Diagnosis, (noAlternative c a b).message =
      bytes "parse error" ++ (bytes " (" ++ a.message ++ bytes ")" ++
        (bytes " (" ++ b.message ++ bytes ")" ++ [])) := fun _ _ => rfl
  simp only [hmessage, isLine_append]
  exact ⟨by decide, ⟨⟨by decide, isLine_of_loop_refuses hloop⟩, by decide⟩,
    ⟨⟨by decide, isLine_unexpected _ (by decide)⟩, by decide⟩, by decide⟩

/-- **A parse failure is told on one line.** -/
theorem isLine_of_parse_eq_error {symbols : List Symbol} (h : parse symbols = .error d) :
    IsLine d.message := by
  obtain ⟨es, last, cause, hstops, rfl⟩ := parseFrom_eq_error h
  have hmessage : (trailing last cause).message =
      bytes "unparsable input at symbol " ++ Bytes.ofNat last.position ++
        (bytes " (" ++ cause.message ++ bytes ")" ++ []) := rfl
  simp only [hmessage, isLine_append]
  exact ⟨⟨by decide, isLine_ofNat _⟩,
    ⟨⟨by decide, isLine_of_expression_refuses hstops.refuses⟩, by decide⟩, by decide⟩

end Grammar

/-- A diagnosis is told on one line if its name and its message have no line breaks, and neither has
its code. -/
theorem Diagnosis.isLine_text {d : Diagnosis} (huri : IsLine d.location.uri) (hcode : IsLine d.code)
    (hmessage : IsLine d.message) : IsLine d.text := by
  simp only [text, Failure.diagnosisText, isLine_append]
  exact ⟨⟨⟨⟨⟨⟨⟨⟨huri, by decide⟩, isLine_ofInt _⟩, by decide⟩, isLine_ofInt _⟩, by decide⟩, hcode⟩,
    by decide⟩, hmessage⟩

/-! ## The verdict on a text -/

/-- The line about a text which is no program: it names the line and the column of the byte that the
text stops at. Both have 32 bits, which is enough for a text of fewer than `2 ^ 31` bytes. -/
structure Complains (uri text line : Bytes) : Prop where
  isLine : IsLine line
  place : ∃ k message, StopsAt text k ∧
    (text.length < 2 ^ 63 →
      line = uri ++ bytes ":" ++ Bytes.ofInt (Int32.ofNat (1 + lineBreaks text k)).toInt ++
        bytes ":" ++ Bytes.ofInt (Int32.ofNat (1 + columnsBefore text k)).toInt ++
        bytes " -- M0105: " ++ message) ∧
    (text.length < 2 ^ 31 →
      line = uri ++ bytes ":" ++ Bytes.ofNat (1 + lineBreaks text k) ++
        bytes ":" ++ Bytes.ofNat (1 + columnsBefore text k) ++
        bytes " -- M0105: " ++ message)

namespace Compilation

variable {path text : Bytes} {d : Diagnosis}

/-- The tokens of a text without zero bytes are the commands among its bytes. -/
theorem map_symbol_read (hzero : 0 ∉ text) (path : Bytes) :
    (Lexer.read path text).map (·.symbol) = text.filterMap Symbol.ofByte? := by
  rw [Lexer.read_eq, symbols_scan_decodeAll, beforeZero_eq_self hzero]

/-- A text is parsed to the program whose commands it has. -/
theorem judge_read_eq_parsed_iff (hzero : 0 ∉ text) {m : Module} :
    judge path (Lexer.read path text) = .parsed m ↔
      m.uri = path ∧ Program.isWellFormed m.program = true ∧
        Program.text m.program = text.filter (· ∈ commands) := by
  rw [judge, map_symbol_read hzero, ← parse_text_eq_ok_iff hzero]
  obtain ⟨uri, program⟩ := m
  cases Grammar.parse (text.filterMap Symbol.ofByte?) with
  | ok program' => simp [eq_comm]
  | error d => simp

/-- A text which is no program is diagnosed. -/
theorem exists_diagnosed_iff (hzero : 0 ∉ text) :
    (∃ d, judge path (Lexer.read path text) = .diagnosed d) ↔ ¬ IsProgramText text := by
  rw [isProgramText_iff hzero, judge, map_symbol_read hzero]
  cases Grammar.parse (text.filterMap Symbol.ofByte?) <;> simp [Except.isOk, Except.toBool]

/-- **The diagnosis of a text names the place that the text stops at**, on one line. -/
theorem complains_of_diagnosed (hzero : 0 ∉ text) (hpath : IsLine path)
    (h : judge path (Lexer.read path text) = .diagnosed d) : Complains path text d.text := by
  rw [judge, map_symbol_read hzero] at h
  cases hparse : Grammar.parse (text.filterMap Symbol.ofByte?) with
  | ok program => simp [hparse] at h
  | error d' =>
    obtain rfl : Module.relocate path (Lexer.read path text) d' = d := by simpa [hparse] using h
    obtain ⟨k, b, j, hlocation, hcode, hk, hcommand, hstops⟩ := exists_stopsAt hzero hparse
    have hline : IsLine (Module.relocate path (Lexer.read path text) d').text := by
      have hmessage : IsLine d'.message := Grammar.isLine_of_parse_eq_error hparse
      refine Diagnosis.isLine_text hpath ?_ hmessage
      show IsLine d'.code
      rw [hcode]
      decide
    have hmark : bytes " -- M0105: " = bytes " -- " ++ d'.code ++ bytes ": " := by
      rw [hcode]
      decide
    have htext : text.length < 2 ^ 63 → (Module.relocate path (Lexer.read path text) d').text =
        path ++ bytes ":" ++ Bytes.ofInt (Int32.ofNat (1 + lineBreaks text j)).toInt ++
          bytes ":" ++ Bytes.ofInt (Int32.ofNat (1 + columnsBefore text j)).toInt ++
          bytes " -- M0105: " ++ d'.message := by
      intro hlength
      rw [Diagnosis.text, Failure.diagnosisText, Module.location_relocate hlength hk hlocation
        hcommand, place_line, place_column, hmark]
      simp only [List.append_assoc]
      rfl
    refine ⟨hline, j, d'.message, hstops, htext, fun hlength => ?_⟩
    obtain ⟨hbound, -⟩ := List.getElem?_eq_some_iff.mp hstops.command.choose_spec.2
    have hbreaks := lineBreaks_le text j
    have hcolumns := columnsBefore_le text j
    rw [htext (by omega), Int32.toInt_ofNat_of_lt (by omega), Int32.toInt_ofNat_of_lt (by omega)]
    rfl

end Compilation

end Bracket
