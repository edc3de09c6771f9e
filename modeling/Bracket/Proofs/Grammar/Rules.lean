import Bracket.Grammar.Rules

/-!
# What the grammar rules take

Each rule is described by what it takes: `Outcome.Takes o value after` says that a rule accepts
`value` and ends at `after`, and `Outcome.Refuses o d` that it refuses with the diagnosis `d`. The
first half of the module opens every rule once in these terms, and says where a refusal leaves the
cursor, so that nothing later unfolds one.

## Shape of the argument

The expressions of the grammar are prefix-free: where one begins, it is settled where it ends. So
what the rules take can be said without any rule at all:

* `expression_takes_iff`: the expression rule takes `e` iff `e` is well-formed and its symbols are
  the next ones;
* `list_takes_iff`: the list rule takes the same for a non-empty sequence, and no expression begins
  behind it.

Both are proved at once by induction on the tree that is taken, not on the symbols: a loop leads to
its body and a list to its tail.
-/

namespace Bracket

namespace Cursor

/-- Reading exactly `symbols` from `c` leads to `after`. -/
def Spans (c : Cursor) (symbols : List Symbol) (after : Cursor) : Prop :=
  c.rest = symbols ++ after.rest ∧ after.position = c.position + symbols.length

theorem spans_nil_iff {c after : Cursor} : c.Spans [] after ↔ after = c := by
  constructor
  · rintro ⟨hrest, hpos⟩
    cases c
    cases after
    simp_all
  · rintro rfl
    exact ⟨rfl, rfl⟩

/-- A symbol other than the end of input is read iff it stands at the cursor. -/
theorem spans_cons_iff {c after : Cursor} {s : Symbol} {symbols : List Symbol}
    (hs : s ≠ .endOfInput) :
    c.Spans (s :: symbols) after ↔ c.symbol = s ∧ c.advance.Spans symbols after := by
  cases hc : c.rest with
  | nil =>
    simp only [Spans, symbol, advance, hc]
    constructor
    · rintro ⟨h, -⟩
      simp at h
    · rintro ⟨h, -⟩
      exact absurd h.symm hs
  | cons r rest =>
    simp only [Spans, symbol, advance, hc, List.headD_cons, List.tail_cons, List.cons_append,
      List.cons.injEq, List.length_cons, and_assoc]
    constructor
    · rintro ⟨hr, hrest, hpos⟩
      exact ⟨hr, hrest, by omega⟩
    · rintro ⟨hr, hrest, hpos⟩
      exact ⟨hr, hrest, by omega⟩

/-- Reading two sequences in a row leads over a cursor between them. -/
theorem spans_append_iff {c after : Cursor} {xs ys : List Symbol} :
    c.Spans (xs ++ ys) after ↔ ∃ mid, c.Spans xs mid ∧ mid.Spans ys after := by
  constructor
  · rintro ⟨hrest, hpos⟩
    refine ⟨⟨c.position + xs.length, ys ++ after.rest⟩, ⟨?_, rfl⟩, rfl, ?_⟩
    · rw [hrest, List.append_assoc]
    · rw [hpos, List.length_append, Nat.add_assoc]
  · rintro ⟨mid, ⟨hx, hxp⟩, hy, hyp⟩
    refine ⟨?_, ?_⟩
    · rw [hx, hy, List.append_assoc]
    · rw [hyp, hxp, List.length_append, Nat.add_assoc]

/-- One symbol other than the end of input is read iff it stands at the cursor. -/
theorem spans_singleton_iff {c after : Cursor} {s : Symbol} (hs : s ≠ .endOfInput) :
    c.Spans [s] after ↔ c.symbol = s ∧ after = c.advance := by
  rw [spans_cons_iff hs, spans_nil_iff]

end Cursor

/-- An operator is not the end of input. -/
theorem Symbol.ne_endOfInput_of_isOperator {s : Symbol} (h : s.isOperator = true) :
    s ≠ .endOfInput := by
  rintro rfl
  simp [Symbol.isOperator] at h

namespace Grammar

/-! ## Outcomes -/

namespace Outcome

variable {start : Cursor} {α : Type}

/-- The rule accepts `value` and ends at `after`. -/
def Takes (o : Outcome start α) (value : α) (after : Cursor) : Prop :=
  o.value? = some value ∧ o.after = after

/-- The rule refuses with the diagnosis `d`. -/
def Refuses (o : Outcome start α) (d : Diagnosis) : Prop := o.diagnosis? = some d

@[simp] theorem takes_accepted {v value : α} {a after : Cursor}
    {h : a.rest.length < start.rest.length} :
    (accepted v a h : Outcome start α).Takes value after ↔ value = v ∧ after = a := by
  simp [Takes, value?, Outcome.after, eq_comm]

@[simp] theorem takes_refused {d : Diagnosis} {a after : Cursor} {value : α} :
    (refused d a : Outcome start α).Takes value after ↔ False := by
  simp [Takes, value?]

@[simp] theorem refuses_accepted {v : α} {a : Cursor} {h : a.rest.length < start.rest.length}
    {d : Diagnosis} : (accepted v a h : Outcome start α).Refuses d ↔ False := by
  simp [Refuses, diagnosis?]

@[simp] theorem refuses_refused {d d' : Diagnosis} {a : Cursor} :
    (refused d' a : Outcome start α).Refuses d ↔ d = d' := by
  simp [Refuses, diagnosis?, eq_comm]

/-- A rule takes something that is not empty, or it refuses. -/
theorem takes_or_refuses (o : Outcome start α) :
    (∃ value after, o.Takes value after ∧ after.rest.length < start.rest.length) ∨
      ∃ d, o.Refuses d := by
  cases o with
  | accepted value after shorter => exact .inl ⟨value, after, by simp, shorter⟩
  | refused d after => exact .inr ⟨d, by simp⟩

/-- A rule refuses iff there is nothing that it takes. -/
theorem exists_refuses_iff {o : Outcome start α} :
    (∃ d, o.Refuses d) ↔ ∀ value after, ¬ o.Takes value after := by
  cases o with
  | accepted value after shorter => simp
  | refused d after => simp

/-- A rule takes one value at most, and ends at one cursor. -/
theorem Takes.unique {o : Outcome start α} {v w : α} {a b : Cursor} (h : o.Takes v a)
    (h' : o.Takes w b) : w = v ∧ b = a := by
  obtain ⟨hv, rfl⟩ := h
  obtain ⟨hw, rfl⟩ := h'
  exact ⟨Option.some.inj (hw.symm.trans hv), rfl⟩

theorem Takes.not_refuses {o : Outcome start α} {value : α} {after : Cursor} {d : Diagnosis}
    (h : o.Takes value after) : ¬ o.Refuses d :=
  fun hd => exists_refuses_iff.mp ⟨d, hd⟩ value after h

theorem attempt_takes_iff {o : Outcome start α} {value : α} {after : Cursor} :
    o.attempt.Takes value after ↔ o.Takes value after := by
  cases o with
  | accepted v a shorter => rfl
  | refused d a => simp [attempt]

/-- An attempt refuses what the rule refuses, and is back where the rule started. -/
theorem Refuses.attempt {o : Outcome start α} {d : Diagnosis} (h : o.Refuses d) :
    o.attempt.Refuses d ∧ o.attempt.after = start := by
  cases o with
  | accepted v a shorter => simp at h
  | refused d' a => exact ⟨h, rfl⟩

end Outcome

/-! ## The rules, opened once -/

section Rules

variable {c after : Cursor} {e : Expression} {es : List Expression} {d : Diagnosis}

theorem operator_takes_iff :
    (operator c).Takes e after ↔
      c.symbol.isOperator = true ∧ e = .operator c.symbol ∧ after = c.advance := by
  unfold operator
  split
  · next h => simp [h]
  · next h => simp [h]

theorem operator_refuses_iff :
    (operator c).Refuses d ↔
      c.symbol.isOperator = false ∧ d = unexpected c .unexpectedSymbol "an operator" := by
  unfold operator
  split
  · next h => simp [h]
  · next h => simp [h]

/-- The operator rule reads one symbol, whether it takes it or not. -/
theorem after_operator (c : Cursor) : (operator c).after = c.advance := by
  unfold operator
  split <;> rfl

/-- A loop is a list between a left and a right bracket. -/
theorem loop_takes_iff :
    (loop c).Takes e after ↔
      c.symbol = .leftBracket ∧ ∃ body last, (list c.advance).Takes body last ∧
        last.symbol = .rightBracket ∧ e = .loop body ∧ after = last.advance := by
  rw [loop]
  by_cases hc : c.symbol = .leftBracket
  · rw [dif_pos hc]
    cases hl : list c.advance with
    | refused d last => simp [Outcome.attempt]
    | accepted body last shorter =>
      by_cases hr : last.symbol = .rightBracket
      · simp [Outcome.attempt, hc, hr, and_assoc]
      · simp [Outcome.attempt, hr, and_assoc]
  · simp [hc]

/-- A loop is refused at the symbol that does not open it, by what refuses its body, or at the
symbol that does not close it. -/
theorem loop_refuses_iff :
    (loop c).Refuses d ↔
      (c.symbol ≠ .leftBracket ∧ d = unexpected c .missingLeftBracket "left bracket") ∨
      (c.symbol = .leftBracket ∧ (list c.advance).Refuses d) ∨
      (c.symbol = .leftBracket ∧ ∃ body last, (list c.advance).Takes body last ∧
        last.symbol ≠ .rightBracket ∧
        d = unexpected last .missingRightBracket "right bracket") := by
  rw [loop]
  by_cases hc : c.symbol = .leftBracket
  · rw [dif_pos hc]
    cases hl : list c.advance with
    | refused d last => simp [Outcome.attempt, hc]
    | accepted body last shorter =>
      by_cases hr : last.symbol = .rightBracket
      · simp [Outcome.attempt, hc, hr, and_assoc]
      · simp [Outcome.attempt, hc, hr, and_assoc]
  · simp [hc]

/-- The loop rule stops behind the symbol that should open the loop, or behind the one that should
close it. -/
theorem after_loop (c : Cursor) :
    (loop c).after = c.advance ∨
      ∃ body last, (list c.advance).Takes body last ∧ (loop c).after = last.advance := by
  rw [loop]
  by_cases hc : c.symbol = .leftBracket
  · rw [dif_pos hc]
    cases hl : list c.advance with
    | refused d last => exact .inl rfl
    | accepted body last shorter =>
      refine .inr ⟨body, last, by simp, ?_⟩
      simp only [Outcome.attempt]
      split <;> rfl
  · rw [dif_neg hc]
    exact .inl rfl

/-- A loop and an operator never begin with the same symbol, so the order of the two alternatives
does not matter. -/
theorem expression_takes_iff_rules :
    (expression c).Takes e after ↔ (loop c).Takes e after ∨ (operator c).Takes e after := by
  rw [expression]
  cases hl : loop c with
  | accepted value last shorter =>
    have hopen : (loop c).Takes value last := by simp [hl]
    -- what opens a loop is no operator
    have hop : ¬ (operator c).Takes e after := by
      rw [operator_takes_iff, (loop_takes_iff.mp hopen).1]
      simp [Symbol.isOperator]
    simp [Outcome.attempt, hop]
  | refused d last => cases operator c <;> simp [Outcome.attempt]

/-- An expression is refused if both alternatives are, and both refusals are told. -/
theorem expression_refuses_iff :
    (expression c).Refuses d ↔
      ∃ noLoop noOperator, (loop c).Refuses noLoop ∧ (operator c).Refuses noOperator ∧
        d = noAlternative c noLoop noOperator := by
  rw [expression]
  cases loop c with
  | accepted value last shorter => simp [Outcome.attempt]
  | refused d last => cases operator c <;> simp [Outcome.attempt]

/-- The expression rule gives back what its alternatives read in vain. -/
theorem after_expression_of_refuses (h : (expression c).Refuses d) : (expression c).after = c := by
  rw [expression] at h ⊢
  cases hl : loop c with
  | accepted value last shorter => simp [hl, Outcome.attempt] at h
  | refused noLoop last =>
    cases ho : operator c with
    | accepted value last shorter => simp [hl, ho, Outcome.attempt] at h
    | refused noOperator last => rfl

theorem list_takes_nil : ¬ (list c).Takes [] after := by
  rw [list]
  cases expression c with
  | refused d last => simp [Outcome.attempt]
  | accepted first last shorter => cases hl : list last <;> simp [Outcome.attempt, hl]

/-- A list is an expression, and behind it either another list or no expression. -/
theorem list_takes_cons_iff :
    (list c).Takes (e :: es) after ↔
      ∃ mid, (expression c).Takes e mid ∧
        ((es = [] ∧ after = mid ∧ ∃ d, (list mid).Refuses d) ∨ (list mid).Takes es after) := by
  rw [list]
  cases expression c with
  | refused d last => simp [Outcome.attempt]
  | accepted first last shorter =>
    cases hl : list last with
    | refused d _ =>
      simp only [Outcome.attempt, hl, Outcome.takes_accepted, List.cons.injEq]
      constructor
      · rintro ⟨⟨rfl, rfl⟩, rfl⟩
        exact ⟨_, ⟨rfl, rfl⟩, .inl ⟨rfl, rfl, by simp [hl]⟩⟩
      · rintro ⟨mid, ⟨rfl, rfl⟩, ⟨rfl, rfl, -⟩ | h⟩
        · exact ⟨⟨rfl, rfl⟩, rfl⟩
        · simp [hl] at h
    | accepted more stop shorter' =>
      simp only [Outcome.attempt, hl, Outcome.takes_accepted, List.cons.injEq]
      constructor
      · rintro ⟨⟨rfl, rfl⟩, rfl⟩
        exact ⟨_, ⟨rfl, rfl⟩, .inr (by simp [hl])⟩
      · rintro ⟨mid, ⟨rfl, rfl⟩, ⟨-, -, d, h⟩ | h⟩
        · simp [hl] at h
        · obtain ⟨rfl, rfl⟩ : es = more ∧ after = stop := by simpa [hl] using h
          exact ⟨⟨rfl, rfl⟩, rfl⟩

/-- A list is refused where no expression begins, and why none begins there is not told. -/
theorem list_refuses_iff :
    (list c).Refuses d ↔ (∃ d', (expression c).Refuses d') ∧ d = emptyList c := by
  rw [list]
  cases expression c with
  | refused d' last => simp [Outcome.attempt]
  | accepted first last shorter => cases hl : list last <;> simp [Outcome.attempt, hl]

/-- A list that is refused has read nothing. -/
theorem after_list_of_refuses (h : (list c).Refuses d) : (list c).after = c := by
  rw [list] at h ⊢
  cases he : expression c with
  | refused d' last => rfl
  | accepted first last shorter => cases hl : list last <;> simp [he, hl, Outcome.attempt] at h

end Rules

/-! ## What begins where -/

/-- No expression begins with a symbol that neither opens a loop nor is an operator. -/
theorem expression_refuses_of_symbol {c : Cursor} (hopen : c.symbol ≠ .leftBracket)
    (hoperator : c.symbol.isOperator = false) : ∃ d, (expression c).Refuses d := by
  rw [Outcome.exists_refuses_iff]
  intro e after
  rw [expression_takes_iff_rules, loop_takes_iff, operator_takes_iff]
  simp [hopen, hoperator]

/-- No expression begins with a right bracket. -/
theorem expression_refuses_of_rightBracket {c : Cursor} (h : c.symbol = .rightBracket) :
    ∃ d, (expression c).Refuses d :=
  expression_refuses_of_symbol (by simp [h]) (by simp [h, Symbol.isOperator])

/-- No expression begins with the end of input. -/
theorem expression_refuses_of_endOfInput {c : Cursor} (h : c.symbol = .endOfInput) :
    ∃ d, (expression c).Refuses d :=
  expression_refuses_of_symbol (by simp [h]) (by simp [h, Symbol.isOperator])

mutual

/-- **The expression rule takes exactly the well-formed expressions**, with the symbols of the
expression and nothing else. -/
theorem expression_takes_iff (e : Expression) (c after : Cursor) :
    (expression c).Takes e after ↔ e.isWellFormed = true ∧ c.Spans e.symbols after := by
  rw [expression_takes_iff_rules, loop_takes_iff, operator_takes_iff]
  match e with
  | .operator s =>
    simp only [Expression.isWellFormed, Expression.symbols, reduceCtorEq, false_and, and_false,
      exists_const, false_or, Expression.operator.injEq]
    constructor
    · rintro ⟨hs, rfl, rfl⟩
      have hend := Symbol.ne_endOfInput_of_isOperator hs
      exact ⟨hs, (Cursor.spans_singleton_iff hend).mpr ⟨rfl, rfl⟩⟩
    · rintro ⟨hs, hspan⟩
      have hend := Symbol.ne_endOfInput_of_isOperator hs
      obtain ⟨rfl, rfl⟩ := (Cursor.spans_singleton_iff hend).mp hspan
      exact ⟨hs, rfl, rfl⟩
  | .loop body =>
    simp only [Expression.isWellFormed, Expression.symbols, reduceCtorEq, false_and, and_false,
      or_false, Expression.loop.injEq, Bool.and_eq_true, Bool.not_eq_true',
      Cursor.spans_cons_iff (show Symbol.leftBracket ≠ .endOfInput by simp),
      Cursor.spans_append_iff,
      Cursor.spans_singleton_iff (show Symbol.rightBracket ≠ .endOfInput by simp)]
    constructor
    · rintro ⟨hopen, body', last, hbody, hclose, rfl, rfl⟩
      obtain ⟨hne, hwf, hspan, -⟩ := (list_takes_iff body c.advance last).mp hbody
      exact ⟨⟨by simpa using hne, hwf⟩, hopen, last, hspan, hclose, rfl⟩
    · rintro ⟨⟨hne, hwf⟩, hopen, last, hspan, hclose, rfl⟩
      -- the body ends at its bracket, where no further expression begins
      have hstop := expression_refuses_of_rightBracket hclose
      have hbody := (list_takes_iff body c.advance last).mpr
        ⟨by simpa using hne, hwf, hspan, hstop⟩
      exact ⟨hopen, body, last, hbody, hclose, rfl, rfl⟩

/-- **The list rule takes exactly the longest sequence**: at least one well-formed expression, up to
where no expression begins. -/
theorem list_takes_iff (es : List Expression) (c after : Cursor) :
    (list c).Takes es after ↔
      es ≠ [] ∧ Program.isWellFormed es = true ∧ c.Spans (Program.symbols es) after ∧
        ∃ d, (expression after).Refuses d := by
  match es with
  | [] => simp [list_takes_nil]
  | e :: more =>
    simp only [list_takes_cons_iff, ne_eq, reduceCtorEq, not_false_eq_true, true_and,
      Program.isWellFormed, Program.symbols, Bool.and_eq_true, Cursor.spans_append_iff]
    constructor
    · rintro ⟨mid, hfirst, ⟨rfl, rfl, d, hstop⟩ | hmore⟩
      · -- the sequence ends behind its first expression
        obtain ⟨hwf, hspan⟩ := (expression_takes_iff e c after).mp hfirst
        exact ⟨⟨hwf, rfl⟩, ⟨after, hspan, Cursor.spans_nil_iff.mpr rfl⟩,
          (list_refuses_iff.mp hstop).1⟩
      · obtain ⟨hwf, hspan⟩ := (expression_takes_iff e c mid).mp hfirst
        obtain ⟨-, hwf', hspan', hstop⟩ := (list_takes_iff more mid after).mp hmore
        exact ⟨⟨hwf, hwf'⟩, ⟨mid, hspan, hspan'⟩, hstop⟩
    · rintro ⟨⟨hwf, hwf'⟩, ⟨mid, hspan, hspan'⟩, hstop⟩
      refine ⟨mid, (expression_takes_iff e c mid).mpr ⟨hwf, hspan⟩, ?_⟩
      by_cases hmore : more = []
      · subst hmore
        obtain rfl := Cursor.spans_nil_iff.mp hspan'
        exact .inl ⟨rfl, rfl, emptyList after, list_refuses_iff.mpr ⟨hstop, rfl⟩⟩
      · exact .inr ((list_takes_iff more mid after).mpr ⟨hmore, hwf', hspan', hstop⟩)

end

end Grammar

end Bracket
