import Bracket.Proofs.Grammar.Recognition

/-!
# Where parsing fails

Parsing takes expressions as long as there are any. If it fails, it has taken the symbols of a
well-formed program and stands at a symbol where no expression begins and the sequence does not end
(`Stops`), and the diagnosis is made there.

The index of that symbol is as far as any parser could get: the symbols in front of it are a
program, and no longer beginning of the sequence is one (`LongestProgram`). For a program that
begins with these symbols begins with these very expressions (`parseFrom_of_spans`), and the next
one would have to begin where none does (`longestProgram_append`).
-/

namespace Bracket.Grammar

/-- From `c` the expressions `es` can be taken, but none begins at `last`, which is not the end. -/
structure Stops (c : Cursor) (es : List Expression) (last : Cursor) (cause : Diagnosis) : Prop where
  wellFormed : Program.isWellFormed es = true
  spans : c.Spans (Program.symbols es) last
  refuses : (expression last).Refuses cause
  notEnd : last.symbol ≠ .endOfInput

/-- Another expression in front. -/
theorem Stops.cons {c mid last : Cursor} {e : Expression} {es : List Expression} {cause : Diagnosis}
    (ht : (expression c).Takes e mid) (h : Stops mid es last cause) :
    Stops c (e :: es) last cause := by
  obtain ⟨hwf, hspan⟩ := (expression_takes_iff e c mid).mp ht
  refine ⟨?_, ?_, h.refuses, h.notEnd⟩
  · rw [Program.isWellFormed, hwf, h.wellFormed]
    rfl
  · rw [Program.symbols]
    exact Cursor.spans_append_iff.mpr ⟨mid, hspan, h.spans⟩

/-- A diagnosis of parsing is made where parsing stops. -/
theorem parseFrom_eq_error {c : Cursor} {d : Diagnosis} (h : parseFrom c = .error d) :
    ∃ es last cause, Stops c es last cause ∧ d = trailing last cause := by
  induction c using parseFrom_cases with
  | takes c e after ht ih =>
    rw [parseFrom_of_takes ht] at h
    cases hmore : parseFrom after with
    | ok more => simp [hmore, Except.map] at h
    | error d' =>
      obtain rfl : d' = d := by simpa [hmore, Except.map] using h
      obtain ⟨es, last, cause, hstops, hd⟩ := ih hmore
      exact ⟨e :: es, last, cause, hstops.cons ht, hd⟩
  | refuses c cause hc =>
    rw [parseFrom_of_refuses hc] at h
    split at h
    · simp at h
    · next hend =>
      obtain rfl : trailing c cause = d := by simpa using h
      exact ⟨[], c, cause, ⟨rfl, Cursor.spans_nil_iff.mpr rfl, hc, hend⟩, rfl⟩

/-! ## The longest program in front -/

/-- The first `k` symbols are a program, and no longer beginning of the sequence is one. -/
structure LongestProgram (symbols : List Symbol) (k : Nat) : Prop where
  le : k ≤ symbols.length
  parsed : ∃ program, parse (symbols.take k) = .ok program
  longer : ∀ j, k < j → j ≤ symbols.length → ∃ d, parse (symbols.take j) = .error d

/-- Expressions in front are taken one by one, whatever comes behind them. -/
theorem parseFrom_of_spans {es : List Expression} {c last : Cursor}
    (hwf : Program.isWellFormed es = true) (hspan : c.Spans (Program.symbols es) last) :
    parseFrom c = (parseFrom last).map (es ++ ·) := by
  induction es generalizing c with
  | nil =>
    obtain rfl : last = c := Cursor.spans_nil_iff.mp hspan
    cases parseFrom last <;> rfl
  | cons e rest ih =>
    simp only [Program.isWellFormed, Bool.and_eq_true] at hwf
    obtain ⟨mid, hfirst, hrest⟩ := Cursor.spans_append_iff.mp hspan
    have htakes : (expression c).Takes e mid := (expression_takes_iff e c mid).mpr ⟨hwf.1, hfirst⟩
    rw [parseFrom_of_takes htakes, ih hwf.2 hrest]
    cases parseFrom last <;> rfl

/-- No expression begins where none begins with more symbols at hand. -/
theorem expression_refuses_of_shorter {c last : Cursor} (hrest : c.rest <+: last.rest)
    (h : ∃ d, (expression last).Refuses d) : ∃ d, (expression c).Refuses d := by
  rw [Outcome.exists_refuses_iff] at h ⊢
  intro e after htakes
  obtain ⟨hwf, hspan, -⟩ := (expression_takes_iff e c after).mp htakes
  obtain ⟨tail, htail⟩ := hrest
  refine h e ⟨last.position + e.symbols.length, after.rest ++ tail⟩ ?_
  refine (expression_takes_iff e last _).mpr ⟨hwf, ?_, rfl⟩
  rw [← htail, hspan, List.append_assoc]

/-- No program goes on where no expression begins. -/
theorem exists_parse_append_eq_error {es : List Expression} {more : List Symbol}
    (hwf : Program.isWellFormed es = true) (hmore : more ≠ []) (hend : .endOfInput ∉ more)
    (h : ∃ d, (expression ⟨(Program.symbols es).length, more⟩).Refuses d) :
    ∃ d, parse (Program.symbols es ++ more) = .error d := by
  obtain ⟨cause, hcause⟩ := h
  have hspan : (Cursor.start (Program.symbols es ++ more)).Spans (Program.symbols es)
      ⟨(Program.symbols es).length, more⟩ := ⟨rfl, (Nat.zero_add _).symm⟩
  have hsymbol : Cursor.symbol ⟨(Program.symbols es).length, more⟩ ≠ .endOfInput := by
    obtain ⟨s, rest, rfl⟩ := List.exists_cons_of_ne_nil hmore
    intro hs
    exact hend (hs ▸ List.mem_cons_self)
  rw [parse, parseFrom_of_spans hwf hspan, parseFrom_of_refuses hcause, if_neg hsymbol]
  exact ⟨_, rfl⟩

/-- No program goes on where parsing stops. -/
theorem Stops.not_ok {c last : Cursor} {es : List Expression} {cause : Diagnosis}
    (h : Stops c es last cause) {more : List Symbol} (hmore : more ≠ []) (hrest : more <+: last.rest)
    (hend : .endOfInput ∉ more) (program : Program) :
    parse (Program.symbols es ++ more) ≠ .ok program := by
  intro hparse
  obtain ⟨d, hd⟩ := exists_parse_append_eq_error h.wellFormed hmore hend
    (expression_refuses_of_shorter hrest ⟨cause, h.refuses⟩)
  rw [hparse] at hd
  cases hd

/-- **The expressions that are taken are the longest program in front**, if none begins behind
them. -/
theorem longestProgram_append {es : List Expression} {last : Cursor}
    (hwf : Program.isWellFormed es = true) (hend : .endOfInput ∉ last.rest)
    (h : ∃ d, (expression last).Refuses d) :
    LongestProgram (Program.symbols es ++ last.rest) (Program.symbols es).length where
  le := by
    rw [List.length_append]
    exact Nat.le_add_right _ _
  parsed := by
    have hself := beforeEnd_eq_self (Program.endOfInput_notMem hwf)
    rw [List.take_left]
    exact ⟨es, parse_eq_ok_iff.mpr ⟨hwf, hself.symm⟩⟩
  longer := by
    intro j hj hj'
    obtain ⟨n, rfl⟩ : ∃ n, j = (Program.symbols es).length + n :=
      ⟨_, (Nat.add_sub_of_le (Nat.le_of_lt hj)).symm⟩
    rw [List.take_length_add_append]
    rw [List.length_append] at hj'
    refine exists_parse_append_eq_error hwf ?_ (fun hmem => hend (List.mem_of_mem_take hmem)) ?_
    · rw [← List.length_pos_iff, List.length_take]
      omega
    · exact expression_refuses_of_shorter (List.take_prefix _ _) h

/-- No beginning that is a program is longer. -/
theorem LongestProgram.le_of_parse_eq_ok {symbols : List Symbol} {k j : Nat} {program : Program}
    (h : LongestProgram symbols k) (hj : j ≤ symbols.length)
    (hprogram : parse (symbols.take j) = .ok program) : j ≤ k := by
  refine Nat.le_of_not_lt fun hlt => ?_
  obtain ⟨d, hd⟩ := h.longer j hlt hj
  rw [hprogram] at hd
  cases hd

/-- There is only one longest program in front. -/
theorem LongestProgram.unique {symbols : List Symbol} {k k' : Nat} (h : LongestProgram symbols k)
    (h' : LongestProgram symbols k') : k = k' := by
  obtain ⟨program, hprogram⟩ := h.parsed
  obtain ⟨program', hprogram'⟩ := h'.parsed
  exact Nat.le_antisymm (h'.le_of_parse_eq_ok h.le hprogram) (h.le_of_parse_eq_ok h'.le hprogram')

/-- It is also the longest program in front of a shorter sequence that holds it. -/
theorem LongestProgram.take {symbols : List Symbol} {k j : Nat} (h : LongestProgram symbols k)
    (hk : k ≤ j) (hj : j ≤ symbols.length) : LongestProgram (symbols.take j) k where
  le := by
    rw [List.length_take]
    omega
  parsed := by
    rw [List.take_take, Nat.min_eq_left hk]
    exact h.parsed
  longer := by
    intro i hi hi'
    rw [List.length_take] at hi'
    rw [List.take_take, Nat.min_eq_left (by omega)]
    exact h.longer i hi (by omega)

/-! ## Parse failures -/

/-- There is no end of input before the end of input. -/
theorem endOfInput_notMem_beforeEnd (symbols : List Symbol) : .endOfInput ∉ beforeEnd symbols := by
  intro hmem
  have hne := List.all_eq_true.mp List.all_takeWhile _ hmem
  simp at hne

/-- **A parse failure points behind the longest program in front**, at a symbol where no expression
begins. -/
theorem parse_eq_error_longest {symbols : List Symbol} {d : Diagnosis}
    (h : parse symbols = .error d) :
    ∃ k cause, k < (beforeEnd symbols).length ∧ LongestProgram (beforeEnd symbols) k ∧
      (expression (.seek (beforeEnd symbols) k)).Refuses cause ∧
      d = trailing (.seek (beforeEnd symbols) k) cause := by
  have hend := endOfInput_notMem_beforeEnd symbols
  -- what stands behind the end of input does not matter
  have hbefore : parse (beforeEnd symbols) = .error d :=
    (parseFrom_upToEnd (.start symbols)).trans h
  obtain ⟨es, ⟨k, rest⟩, cause, hstops, rfl⟩ := parseFrom_eq_error hbefore
  obtain ⟨hrest, hposition⟩ := hstops.spans
  replace hrest : beforeEnd symbols = Program.symbols es ++ rest := hrest
  obtain rfl : k = (Program.symbols es).length := hposition.trans (Nat.zero_add _)
  rw [hrest] at hend ⊢
  have hrest' : .endOfInput ∉ rest := fun hmem => hend (List.mem_append_right _ hmem)
  refine ⟨_, cause, ?_, longestProgram_append hstops.wellFormed hrest' ⟨cause, hstops.refuses⟩, ?_⟩
  · have hne : rest ≠ [] := by
      rintro rfl
      exact hstops.notEnd rfl
    rw [List.length_append]
    have := List.length_pos_iff.mpr hne
    omega
  · rw [Cursor.seek, List.drop_left]
    exact ⟨hstops.refuses, rfl⟩

/-- A parse failure points at a symbol of the sequence. -/
theorem parse_eq_error {symbols : List Symbol} {d : Diagnosis} (h : parse symbols = .error d) :
    ∃ k, k < symbols.length ∧ d.location = .ofSymbolIndex k ∧ d.code = .trailingInput := by
  obtain ⟨k, cause, hk, -, -, rfl⟩ := parse_eq_error_longest h
  exact ⟨k, Nat.lt_of_lt_of_le hk (List.takeWhile_sublist _).length_le, rfl, rfl⟩

end Bracket.Grammar
