import Bracket.Proofs.Grammar.Refusal
import Bracket.Proofs.Positions
import Bracket.Proofs.RoundTrip

/-!
# The place of a parse failure

Parsing a file (`Module.ofTokens`) works on symbols, and its diagnosis carries the index of the
symbol that could not be parsed. A reader wants a line and a column. The index is always that of a
token of the file (`exists_token_of_error`), so the diagnosis can be moved to where that token
starts, and there stands the character in question. It is reported once, as it was made but for its
location, and handed back if its code is fatal (`ofContent_locates_failure`).
-/

namespace Bracket

/-- An index of a token is located where the token starts. -/
theorem Token.locate_of_getElem? {tokens : List Token} {k : Nat} {t : Token}
    (h : tokens[k]? = some t) : locate tokens k = t.start := by
  simp only [locate, h]

/-- A token that stands at a byte spells the byte at its offset. -/
theorem Token.StandsAt.getElem?_offset {content : Bytes} {k : Nat} {t : Token}
    (h : t.StandsAt content k) :
    ∃ b, content[t.start.offset.toInt.toNat]? = some b ∧ t.symbol.text = [b] := by
  obtain ⟨b, hb, htext⟩ := h.spelled
  refine ⟨b, ?_, htext⟩
  rw [h.offset, Int.toNat_natCast, hb]

/-- There are no more tokens than bytes. -/
theorem Lexer.length_read_le (uri content : Bytes) :
    (read uri content).length ≤ content.length := by
  have hsymbols := congrArg List.length (symbols_scan_decodeAll .start content)
  rw [List.length_map, ← read_eq uri] at hsymbols
  rw [hsymbols]
  exact Nat.le_trans (List.length_filterMap_le _ _) (List.takeWhile_sublist _).length_le

namespace Module

/-- A fresh report of a file holds the diagnosis of a failed parse and nothing else, and the
diagnosis is handed back if its code is fatal. -/
theorem ofTokens_of_error {tokens : List Token} {d : Diagnosis}
    (h : Grammar.parse (tokens.map (·.symbol)) = .error d) (path : Bytes) (nonFatal : List Code) :
    ofTokens path (.empty nonFatal) tokens =
      ⟨none, if d.code ∈ nonFatal then none else some (relocate path tokens d).toFailure,
        ⟨nonFatal, [relocate path tokens d]⟩⟩ := by
  have hcode : (relocate path tokens d).code = d.code := rfl
  rw [ofTokens, h]
  simp only [Report.submit, Report.isFatal, Report.empty, Report.add, List.nil_append, hcode]
  by_cases hmem : d.code ∈ nonFatal
  · simp [hmem]
  · simp [hmem]

/-- The diagnosis of a failed parse is moved to the token with the index that it carries. -/
theorem relocate_of_getElem? {tokens : List Token} {d : Diagnosis} {k : Nat} {t : Token}
    (hk : d.location.position.offset.toInt = k) (ht : tokens[k]? = some t) (path : Bytes) :
    relocate path tokens d = { d with location := ⟨path, t.start⟩ } := by
  rw [relocate, hk, Int.toNat_natCast, Token.locate_of_getElem? ht]
  rfl

/-- The index that the diagnosis of a failed parse carries is that of a token. -/
theorem exists_token_of_error {path content : Bytes} (hlength : content.length < 2 ^ 31)
    {d : Diagnosis}
    (h : Grammar.parse ((Lexer.read path content).map (·.symbol)) = .error d) :
    ∃ (k : Nat) (t : Token), d.location.position.offset.toInt = k ∧
      (Lexer.read path content)[k]? = some t ∧ d.code = .trailingInput := by
  obtain ⟨k, hk, hlocation, hcode⟩ := Grammar.parse_eq_error h
  rw [List.length_map] at hk
  have hle := Lexer.length_read_le path content
  refine ⟨k, (Lexer.read path content)[k], ?_, List.getElem?_eq_getElem hk, hcode⟩
  rw [hlocation]
  exact Int64.toInt_ofNat_of_lt (by omega)

/-- **A parse failure is reported once and points at the offending character.** The diagnosis of a
failed parse carries the index of a token; the report of the file holds that diagnosis at the start
of the token, where the content has the character of its symbol, and no other; no module comes out,
and the diagnosis is handed back unless its code is not fatal. A file that is parsed gives its
module and reports nothing. -/
theorem ofContent_locates_failure (path : Bytes) (nonFatal : List Code) {content : Bytes}
    (hlength : content.length < 2 ^ 31) :
    (∀ d, Grammar.parse ((Lexer.read path content).map (·.symbol)) = .error d →
      ∃ (k : Nat) (t : Token) (reported : Diagnosis),
        d.location.position.offset.toInt = k ∧
        k < (Lexer.read path content).length ∧ (Lexer.read path content)[k]? = some t ∧
        (∃ b, content[t.start.offset.toInt.toNat]? = some b ∧ t.symbol.text = [b]) ∧
        reported.location = ⟨path, t.start⟩ ∧ reported.code = d.code ∧
        reported.message = d.message ∧ reported.causes = d.causes ∧
        (ofContent path (.empty nonFatal) content).report.listed = [reported] ∧
        ofContent path (.empty nonFatal) content =
          ⟨none, if Code.trailingInput ∈ nonFatal then none else some reported.toFailure,
            ⟨nonFatal, [reported]⟩⟩) ∧
    (∀ program, Grammar.parse ((Lexer.read path content).map (·.symbol)) = .ok program →
      ofContent path (.empty nonFatal) content =
        ⟨some ⟨path, program⟩, none, .empty nonFatal⟩) := by
  have hofTokens : ofContent path (.empty nonFatal) content =
      ofTokens path (.empty nonFatal) (Lexer.read path content) := by
    rw [ofContent_eq, Lexer.read_eq]
  constructor
  · intro d hd
    obtain ⟨k, t, hk, ht, hcode⟩ := exists_token_of_error hlength hd
    obtain ⟨j, hstands⟩ := Lexer.standsAt_of_mem_read path hlength (List.mem_of_getElem? ht)
    -- the diagnosis is moved from the index of a symbol to the place of its token
    have hparsed := ofTokens_of_error hd path nonFatal
    rw [hcode, relocate_of_getElem? hk ht, ← hofTokens] at hparsed
    refine ⟨k, t, { d with location := ⟨path, t.start⟩ }, hk, ?_, ht, hstands.getElem?_offset, rfl,
      rfl, rfl, rfl, ?_, hparsed⟩
    · exact (List.getElem?_eq_some_iff.mp ht).1
    · rw [hparsed]
      exact List.mergeSort_singleton _
  · intro program hprogram
    rw [hofTokens, ofTokens, hprogram]

/-- The right bracket on the second line closes nothing. -/
theorem ofContent_locates_failure_unopened :
    ∃ reported : Diagnosis,
      (ofContent [0x61] (.empty [.trailingInput]) [0x2B, 0x0A, 0x5D]).report.listed = [reported] ∧
        reported.location = ⟨[0x61], ⟨2, 1, 2⟩⟩ ∧
        (ofContent [0x61] (.empty [.trailingInput]) [0x2B, 0x0A, 0x5D]).failure? = none := by
  have htokens : Lexer.read [0x61] [0x2B, 0x0A, 0x5D] =
      [⟨⟨1, 1, 0⟩, ⟨1, 2, 1⟩, .incrementValue, [0x2B]⟩,
        ⟨⟨2, 1, 2⟩, ⟨2, 2, 3⟩, .rightBracket, [0x5D]⟩] := by
    have hscalars : Utf8.decodeAll [0x2B, 0x0A, 0x5D] = [⟨0x2B, 1⟩, ⟨0x0A, 1⟩, ⟨0x5D, 1⟩] := by
      simp [Utf8.decodeAll_cons, Utf8.decode_ascii, Utf8.decodeAll]
    rw [Lexer.read_eq, hscalars]
    rfl
  have htakes : (Grammar.expression (.start [.incrementValue, .rightBracket])).Takes
      (.operator .incrementValue) ⟨1, [.rightBracket]⟩ :=
    (Grammar.expression_takes_iff _ _ _).mpr ⟨rfl, rfl, rfl⟩
  obtain ⟨cause, hcause⟩ :=
    Grammar.expression_refuses_of_rightBracket (c := ⟨1, [.rightBracket]⟩) rfl
  have hparse : Grammar.parse ((Lexer.read [0x61] [0x2B, 0x0A, 0x5D]).map (·.symbol)) =
      .error (Grammar.trailing ⟨1, [.rightBracket]⟩ cause) := by
    rw [htokens]
    refine (Grammar.parseFrom_of_takes htakes).trans ?_
    rw [Grammar.parseFrom_of_refuses hcause]
    rfl
  obtain ⟨k, t, reported, hk, -, ht, -, hlocation, -, -, -, hlisted, hparsed⟩ :=
    (ofContent_locates_failure [0x61] [.trailingInput] (by decide)).1 _ hparse
  obtain rfl : 1 = k := Int.ofNat_inj.mp hk
  obtain rfl : _ = t := by simpa [htokens] using ht
  exact ⟨reported, hlisted, hlocation, by rw [hparsed]; rfl⟩

end Module

end Bracket
