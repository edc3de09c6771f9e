import Bracket.Grammar.Parse
import Bracket.Proofs.Grammar.Rules

/-!
# The language that is parsed

Parsing succeeds on exactly the sequences which are the symbols of some well-formed program, up to
the first end-of-input symbol, and it gives that program. `parseFrom_eq_ok_iff` says so from any
cursor; since parsing is a function, the program is the only one with these symbols.

What stands behind an end-of-input symbol is never looked at. A rule that refuses does look at the
symbol where it stops, but there the end of input and the end of the sequence read the same, so even
the diagnosis of a failure is the one of the sequence without what stands behind
(`parseFrom_upToEnd`).
-/

namespace Bracket

/-- The symbols before the first end of input, all of them if there is none. -/
def beforeEnd (symbols : List Symbol) : List Symbol := symbols.takeWhile (· ≠ .endOfInput)

/-- Symbols in front that are not the end of input stay. -/
theorem beforeEnd_append {xs : List Symbol} (h : .endOfInput ∉ xs) (ys : List Symbol) :
    beforeEnd (xs ++ ys) = xs ++ beforeEnd ys := by
  refine List.takeWhile_append_of_pos fun s hs => ?_
  have hne : s ≠ .endOfInput := fun he => h (he ▸ hs)
  simpa using hne

theorem beforeEnd_eq_self {symbols : List Symbol} (h : .endOfInput ∉ symbols) :
    beforeEnd symbols = symbols := by
  have hnil : beforeEnd [] = [] := rfl
  simpa [hnil] using beforeEnd_append h []

/-- What can be split off before the end of input can be split off in front of all symbols. -/
theorem eq_append_of_beforeEnd_eq {symbols xs ys : List Symbol}
    (h : beforeEnd symbols = xs ++ ys) :
    ∃ zs, symbols = xs ++ zs ∧ ys = beforeEnd zs := by
  induction xs generalizing symbols with
  | nil => exact ⟨symbols, rfl, h.symm⟩
  | cons x xs ih =>
    cases symbols with
    | nil => simp [beforeEnd] at h
    | cons s rest =>
      by_cases hs : s = .endOfInput
      · simp [beforeEnd, hs] at h
      · obtain ⟨rfl, hrest⟩ : s = x ∧ beforeEnd rest = xs ++ ys := by
          simpa [beforeEnd, hs] using h
        obtain ⟨zs, hzs, hys⟩ := ih hrest
        exact ⟨zs, by rw [hzs, List.cons_append], hys⟩

/-! ## Cursors up to the end of input -/

namespace Cursor

/-- The same cursor without what stands behind the end of input. -/
def upToEnd (c : Cursor) : Cursor := ⟨c.position, beforeEnd c.rest⟩

@[simp] theorem upToEnd_position (c : Cursor) : c.upToEnd.position = c.position := rfl

@[simp] theorem upToEnd_symbol (c : Cursor) : c.upToEnd.symbol = c.symbol := by
  cases hc : c.rest with
  | nil => simp [symbol, upToEnd, beforeEnd, hc]
  | cons s rest => by_cases hs : s = .endOfInput <;> simp [symbol, upToEnd, beforeEnd, hc, hs]

/-- Cutting off and reading a symbol can be exchanged in front of the end. -/
theorem upToEnd_advance {c : Cursor} (h : c.symbol ≠ .endOfInput) :
    c.upToEnd.advance = c.advance.upToEnd := by
  cases hc : c.rest with
  | nil => simp [symbol, hc] at h
  | cons s rest =>
    have hs : s ≠ .endOfInput := by simpa [symbol, hc] using h
    simp [advance, upToEnd, beforeEnd, hc, hs]

/-- Nothing is left before the end of input iff the cursor is there. -/
theorem upToEnd_rest_eq_nil_iff {c : Cursor} : c.upToEnd.rest = [] ↔ c.symbol = .endOfInput := by
  cases hc : c.rest with
  | nil => simp [symbol, upToEnd, beforeEnd, hc]
  | cons s rest => by_cases hs : s = .endOfInput <;> simp [symbol, upToEnd, beforeEnd, hc, hs]

/-- Reading symbols other than the end of input is the same in front of it. -/
theorem upToEnd_spans_iff {c stop : Cursor} {symbols : List Symbol}
    (h : .endOfInput ∉ symbols) :
    c.upToEnd.Spans symbols stop ↔ ∃ after, c.Spans symbols after ∧ stop = after.upToEnd := by
  constructor
  · rintro ⟨hrest, hpos⟩
    obtain ⟨zs, hzs, hstop⟩ := eq_append_of_beforeEnd_eq hrest
    refine ⟨⟨stop.position, zs⟩, ⟨hzs, hpos⟩, ?_⟩
    rw [upToEnd, ← hstop]
  · rintro ⟨after, ⟨hrest, hpos⟩, rfl⟩
    refine ⟨?_, hpos⟩
    show beforeEnd c.rest = _
    rw [hrest, beforeEnd_append h]
    rfl

end Cursor

mutual

/-- The end of input is no symbol of a well-formed expression. -/
theorem Expression.endOfInput_notMem {e : Expression} (h : e.isWellFormed = true) :
    .endOfInput ∉ e.symbols := by
  match e with
  | .operator s =>
    have hs := Symbol.ne_endOfInput_of_isOperator (by simpa [Expression.isWellFormed] using h)
    simpa [Expression.symbols] using hs.symm
  | .loop body =>
    have hbody : Program.isWellFormed body = true := by
      simp only [Expression.isWellFormed, Bool.and_eq_true] at h
      exact h.2
    simpa [Expression.symbols] using Program.endOfInput_notMem hbody

/-- The end of input is no symbol of a well-formed program. -/
theorem Program.endOfInput_notMem {es : List Expression} (h : Program.isWellFormed es = true) :
    .endOfInput ∉ Program.symbols es := by
  match es with
  | [] => simp [Program.symbols]
  | e :: rest =>
    simp only [Program.isWellFormed, Bool.and_eq_true] at h
    simpa [Program.symbols] using
      ⟨Expression.endOfInput_notMem h.1, Program.endOfInput_notMem h.2⟩

end

namespace Grammar

/-! ## The rules do not look behind the end of input -/

/-- An expression is taken before the end of input iff it is taken at all. -/
theorem expression_upToEnd_takes_iff {c stop : Cursor} {e : Expression} :
    (expression c.upToEnd).Takes e stop ↔
      ∃ after, (expression c).Takes e after ∧ stop = after.upToEnd := by
  simp only [expression_takes_iff]
  constructor
  · rintro ⟨hwf, hspan⟩
    obtain ⟨after, hspan', rfl⟩ :=
      (Cursor.upToEnd_spans_iff (Expression.endOfInput_notMem hwf)).mp hspan
    exact ⟨after, ⟨hwf, hspan'⟩, rfl⟩
  · rintro ⟨after, ⟨hwf, hspan⟩, rfl⟩
    exact ⟨hwf,
      (Cursor.upToEnd_spans_iff (Expression.endOfInput_notMem hwf)).mpr ⟨after, hspan, rfl⟩⟩

/-- So the rule refuses in both sequences or in none. -/
theorem expression_upToEnd_refuses {c : Cursor} :
    (∃ d, (expression c.upToEnd).Refuses d) ↔ ∃ d, (expression c).Refuses d := by
  simp only [Outcome.exists_refuses_iff, expression_upToEnd_takes_iff]
  constructor
  · intro h e after ht
    exact h e after.upToEnd ⟨after, ht, rfl⟩
  · rintro h e stop ⟨after, ht, -⟩
    exact h e after ht

theorem list_upToEnd_takes_iff {c stop : Cursor} {es : List Expression} :
    (list c.upToEnd).Takes es stop ↔
      ∃ after, (list c).Takes es after ∧ stop = after.upToEnd := by
  simp only [list_takes_iff]
  constructor
  · rintro ⟨hne, hwf, hspan, hstop⟩
    obtain ⟨after, hspan', rfl⟩ :=
      (Cursor.upToEnd_spans_iff (Program.endOfInput_notMem hwf)).mp hspan
    exact ⟨after, ⟨hne, hwf, hspan', expression_upToEnd_refuses.mp hstop⟩, rfl⟩
  · rintro ⟨after, ⟨hne, hwf, hspan, hstop⟩, rfl⟩
    exact ⟨hne, hwf,
      (Cursor.upToEnd_spans_iff (Program.endOfInput_notMem hwf)).mpr ⟨after, hspan, rfl⟩,
      expression_upToEnd_refuses.mpr hstop⟩

/-- A diagnosis names the symbol at the cursor and its position, which are the same. -/
theorem unexpected_upToEnd (c : Cursor) (code : Code) (wanted : String) :
    unexpected c.upToEnd code wanted = unexpected c code wanted := by
  rw [unexpected, unexpected, Cursor.upToEnd_symbol, Cursor.upToEnd_position]

theorem list_upToEnd_refuses_iff {c : Cursor} {d : Diagnosis} :
    (list c.upToEnd).Refuses d ↔ (list c).Refuses d := by
  rw [list_refuses_iff, list_refuses_iff, expression_upToEnd_refuses]
  rfl

/-- A loop is refused with the same diagnosis in both. -/
theorem loop_upToEnd_refuses_iff {c : Cursor} {d : Diagnosis} :
    (loop c.upToEnd).Refuses d ↔ (loop c).Refuses d := by
  by_cases hc : c.symbol = .leftBracket
  · have hadvance : c.upToEnd.advance = c.advance.upToEnd :=
      Cursor.upToEnd_advance (by simp [hc])
    -- the outcome of the list rule carries its cursor in the type, so all of it moves at once
    rw [loop_refuses_iff, loop_refuses_iff, hadvance]
    simp only [Cursor.upToEnd_symbol, hc, list_upToEnd_refuses_iff, list_upToEnd_takes_iff, ne_eq,
      not_true_eq_false, false_and, false_or, true_and]
    constructor
    · rintro (h | ⟨body, stop, ⟨last, hbody, rfl⟩, hclose, rfl⟩)
      · exact .inl h
      · rw [Cursor.upToEnd_symbol] at hclose
        exact .inr ⟨body, last, hbody, hclose, unexpected_upToEnd _ _ _⟩
    · rintro (h | ⟨body, last, hbody, hclose, rfl⟩)
      · exact .inl h
      · exact .inr ⟨body, last.upToEnd, ⟨last, hbody, rfl⟩, by rwa [Cursor.upToEnd_symbol],
          (unexpected_upToEnd _ _ _).symm⟩
  · simp only [loop_refuses_iff, Cursor.upToEnd_symbol, hc, unexpected_upToEnd, false_and]

theorem expression_upToEnd_refuses_iff {c : Cursor} {d : Diagnosis} :
    (expression c.upToEnd).Refuses d ↔ (expression c).Refuses d := by
  simp only [expression_refuses_iff, loop_upToEnd_refuses_iff, operator_refuses_iff,
    Cursor.upToEnd_symbol, unexpected_upToEnd]
  rfl

/-! ## Parsing -/

/-- One accepted expression, and then the rest. -/
theorem parseFrom_of_takes {c after : Cursor} {e : Expression}
    (h : (expression c).Takes e after) : parseFrom c = (parseFrom after).map (e :: ·) := by
  rw [parseFrom]
  cases he : expression c with
  | refused d last => simp [he] at h
  | accepted value last shorter =>
    obtain ⟨rfl, rfl⟩ : e = value ∧ after = last := by simpa [he] using h
    simp only [Outcome.attempt]
    cases parseFrom after <;> rfl

/-- No further expression: the sequence ends here, or it cannot be parsed. -/
theorem parseFrom_of_refuses {c : Cursor} {d : Diagnosis} (h : (expression c).Refuses d) :
    parseFrom c = if c.symbol = .endOfInput then .ok [] else .error (trailing c d) := by
  rw [parseFrom]
  cases he : expression c with
  | accepted value last shorter => simp [he] at h
  | refused d' last =>
    obtain rfl : d = d' := by simpa [he] using h
    simp only [Outcome.attempt]

/-- Induction along the expressions that parsing accepts. -/
theorem parseFrom_cases {motive : Cursor → Prop}
    (takes : ∀ c e after, (expression c).Takes e after → motive after → motive c)
    (refuses : ∀ c d, (expression c).Refuses d → motive c) (c : Cursor) : motive c := by
  obtain ⟨e, after, ht, hlt⟩ | ⟨d, hd⟩ := (expression c).takes_or_refuses
  · exact takes c e after ht (parseFrom_cases takes refuses after)
  · exact refuses c d hd
termination_by c.rest.length

/-- **What stands behind the end of input does not matter**, neither to the program nor to the
diagnosis. -/
theorem parseFrom_upToEnd (c : Cursor) : parseFrom c.upToEnd = parseFrom c := by
  induction c using parseFrom_cases with
  | takes c e after ht ih =>
    have ht' : (expression c.upToEnd).Takes e after.upToEnd :=
      expression_upToEnd_takes_iff.mpr ⟨after, ht, rfl⟩
    rw [parseFrom_of_takes ht', parseFrom_of_takes ht, ih]
  | refuses c d hd =>
    rw [parseFrom_of_refuses (expression_upToEnd_refuses_iff.mpr hd), parseFrom_of_refuses hd,
      Cursor.upToEnd_symbol]
    rfl

/-- A parsed program is well-formed, and its symbols are the ones before the end of input. -/
theorem parseFrom_sound (c : Cursor) (es : List Expression) (h : parseFrom c = .ok es) :
    Program.isWellFormed es = true ∧ Program.symbols es = c.upToEnd.rest := by
  induction c using parseFrom_cases generalizing es with
  | takes c e after ht ih =>
    rw [parseFrom_of_takes ht] at h
    cases hmore : parseFrom after with
    | error d => simp [hmore, Except.map] at h
    | ok more =>
      obtain rfl : e :: more = es := by simpa [hmore, Except.map] using h
      obtain ⟨hwf, hspan⟩ := (expression_takes_iff e c after).mp ht
      obtain ⟨hwf', hrest⟩ := ih more hmore
      refine ⟨by simp [Program.isWellFormed, hwf, hwf'], ?_⟩
      rw [Program.symbols, hrest, Cursor.upToEnd, Cursor.upToEnd, hspan.1,
        beforeEnd_append (Expression.endOfInput_notMem hwf)]
  | refuses c d hd =>
    rw [parseFrom_of_refuses hd] at h
    split at h
    · next hend =>
      obtain rfl : [] = es := by simpa using h
      exact ⟨rfl, (Cursor.upToEnd_rest_eq_nil_iff.mpr hend).symm⟩
    · simp at h

/-- The symbols of a well-formed program are parsed as that program. -/
theorem parseFrom_complete (es : List Expression) (c : Cursor)
    (hwf : Program.isWellFormed es = true) (hrest : Program.symbols es = c.upToEnd.rest) :
    parseFrom c = .ok es := by
  induction es generalizing c with
  | nil =>
    have hend : c.symbol = .endOfInput := Cursor.upToEnd_rest_eq_nil_iff.mp hrest.symm
    obtain ⟨d, hd⟩ := expression_refuses_of_endOfInput hend
    rw [parseFrom_of_refuses hd, if_pos hend]
  | cons e more ih =>
    simp only [Program.isWellFormed, Bool.and_eq_true] at hwf
    -- the first expression spans its symbols in the cut sequence, hence in the whole one
    have hspan : c.upToEnd.Spans e.symbols
        ⟨c.position + e.symbols.length, Program.symbols more⟩ := ⟨hrest.symm, rfl⟩
    obtain ⟨after, hspan', hafter⟩ :=
      (Cursor.upToEnd_spans_iff (Expression.endOfInput_notMem hwf.1)).mp hspan
    have ht : (expression c).Takes e after := (expression_takes_iff e c after).mpr ⟨hwf.1, hspan'⟩
    rw [parseFrom_of_takes ht, ih after hwf.2 (congrArg Cursor.rest hafter)]
    rfl

/-- **Parsing accepts exactly the grammar**, from any cursor. -/
theorem parseFrom_eq_ok_iff {c : Cursor} {es : List Expression} :
    parseFrom c = .ok es ↔
      Program.isWellFormed es = true ∧ Program.symbols es = c.upToEnd.rest :=
  ⟨parseFrom_sound c es, fun h => parseFrom_complete es c h.1 h.2⟩

/-- Parsing a sequence accepts exactly the symbols of a well-formed program before the end of
input. -/
theorem parse_eq_ok_iff {symbols : List Symbol} {program : Program} :
    parse symbols = .ok program ↔
      Program.isWellFormed program = true ∧ Program.symbols program = beforeEnd symbols :=
  parseFrom_eq_ok_iff

/-- **Parsing recognises the grammar.** It succeeds iff the symbols before the first end of input
are those of a well-formed program; the answer is such a program and the only one; and the whole
outcome, a diagnosis with its causes included, is that of the symbols before the end of input. -/
theorem parse_recognises_grammar (symbols : List Symbol) :
    ((∃ program, parse symbols = .ok program) ↔
      ∃ program, Program.isWellFormed program = true ∧
        Program.symbols program = beforeEnd symbols) ∧
    (∀ program, parse symbols = .ok program →
      Program.isWellFormed program = true ∧ Program.symbols program = beforeEnd symbols ∧
        ∀ other, Program.isWellFormed other = true →
          Program.symbols other = beforeEnd symbols → other = program) ∧
    parse symbols = parse (beforeEnd symbols) := by
  refine ⟨exists_congr fun program => parse_eq_ok_iff, fun program h => ?_, ?_⟩
  · obtain ⟨hwf, hsymbols⟩ := parse_eq_ok_iff.mp h
    refine ⟨hwf, hsymbols, fun other hwf' hsymbols' => ?_⟩
    -- parsing is a function, so completeness gives uniqueness
    have hother : parse symbols = .ok other := parse_eq_ok_iff.mpr ⟨hwf', hsymbols'⟩
    exact Except.ok.inj (hother.symm.trans h)
  · exact (parseFrom_upToEnd (.start symbols)).symm

/-- A loop in a loop is parsed, whatever stands behind the end of input, and no other program has
these symbols. -/
theorem parse_recognises_grammar_nested :
    parse [.leftBracket, .leftBracket, .input, .rightBracket, .rightBracket, .endOfInput,
        .rightBracket] = .ok [.loop [.loop [.operator .input]]] ∧
      ∀ other, Program.isWellFormed other = true →
        Program.symbols other =
          [.leftBracket, .leftBracket, .input, .rightBracket, .rightBracket] →
        other = [.loop [.loop [.operator .input]]] := by
  have hparse : parse [.leftBracket, .leftBracket, .input, .rightBracket, .rightBracket,
      .endOfInput, .rightBracket] = .ok [.loop [.loop [.operator .input]]] :=
    parse_eq_ok_iff.mpr ⟨rfl, rfl⟩
  exact ⟨hparse, ((parse_recognises_grammar _).2.1 _ hparse).2.2⟩

end Grammar

end Bracket
