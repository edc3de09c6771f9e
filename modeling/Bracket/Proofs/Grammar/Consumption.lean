import Bracket.Proofs.Grammar.Diagnostics

/-!
# How far the rules read

The rules share one cursor, and each of them leaves it elsewhere when it refuses: the expression and
the list rule where they started, the operator rule one symbol further, the loop rule wherever it
got to. When a rule takes something, all of them agree: the cursor moves over the symbols of what is
taken and over nothing else (`Outcome.Consumes`), so it gets further by at least one symbol and
stays inside the sequence.

This is what ends the two repetitions of the parser, the one of the list rule and the one of a whole
sequence. Both attempt an expression again and again until one is refused (`Repeats`). Every round
moves the cursor, so there are no more rounds than symbols left (`Repeats.bounded`).
-/

namespace Bracket

/-- From the `k`-th symbol on, up to the one in front of the `k'`-th, stands `read`, and that is at
least one symbol. -/
structure Covers (symbols : List Symbol) (k k' : Nat) (read : List Symbol) : Prop where
  lt : k < k'
  le : k' ≤ symbols.length
  extract_eq : symbols.extract k k' = read

/-- Reading some symbols of a sequence leads to a later place of the same sequence. -/
theorem Cursor.seek_spans_iff {symbols read : List Symbol} {k : Nat} {after : Cursor}
    (hread : read ≠ []) :
    (Cursor.seek symbols k).Spans read after ↔
      ∃ k', after = .seek symbols k' ∧ Covers symbols k k' read := by
  have hpos := List.length_pos_iff.mpr hread
  constructor
  · rintro ⟨hrest, hposition⟩
    replace hrest : symbols.drop k = read ++ after.rest := hrest
    replace hposition : after.position = k + read.length := hposition
    -- something is read, so the sequence goes on at least as far
    have hlength := congrArg List.length hrest
    rw [List.length_drop, List.length_append] at hlength
    refine ⟨after.position, ?_, by omega, by omega, ?_⟩
    · rw [Cursor.seek, hposition, ← List.drop_drop, hrest, List.drop_left, ← hposition]
    · rw [List.extract_eq_take_drop, hposition, Nat.add_sub_cancel_left, hrest, List.take_left]
  · rintro ⟨k', rfl, hlt, hle, rfl⟩
    rw [List.extract_eq_take_drop]
    constructor
    · show symbols.drop k = (symbols.drop k).take (k' - k) ++ symbols.drop k'
      have hsplit := List.take_append_drop (k' - k) (symbols.drop k)
      rwa [List.drop_drop, Nat.add_sub_of_le (Nat.le_of_lt hlt), eq_comm] at hsplit
    · show k' = k + ((symbols.drop k).take (k' - k)).length
      rw [List.length_take, List.length_drop]
      omega

namespace Grammar

/-! ## What a rule consumes -/

/-- How a rule that starts at the `k`-th symbol moves the cursor. The rule takes a value iff its
symbols are the next ones and `valid` holds of it and of the cursor behind it. If the rule refuses,
it leaves the cursor at a place of which `left` holds, and an attempt puts it back. -/
structure Outcome.Consumes {symbols : List Symbol} {k : Nat} {α : Type}
    (o : Outcome (.seek symbols k) α) (flatten : α → List Symbol) (valid : α → Cursor → Prop)
    (left : Nat → Prop) : Prop where
  takes_iff : ∀ value after, o.Takes value after ↔
    ∃ k', after = .seek symbols k' ∧ Covers symbols k k' (flatten value) ∧ valid value after
  refuses : ∀ d, o.Refuses d → ∃ k', o.after = .seek symbols k' ∧ left k'
  attempt_takes_iff : ∀ value after, o.attempt.Takes value after ↔ o.Takes value after
  attempt_refuses : ∀ d, o.Refuses d →
    o.attempt.Refuses d ∧ o.attempt.after = .seek symbols k

section Rules

variable {symbols : List Symbol} {k : Nat}

/-- A rule consumes what it takes if it takes what the cursor spans. -/
theorem Outcome.Consumes.of_spans {α : Type} {o : Outcome (.seek symbols k) α}
    {flatten : α → List Symbol} {valid : α → Cursor → Prop} {left : Nat → Prop}
    (htakes : ∀ value after, o.Takes value after ↔
      valid value after ∧ (Cursor.seek symbols k).Spans (flatten value) after)
    (hflatten : ∀ value after, valid value after → flatten value ≠ [])
    (hleft : ∀ d, o.Refuses d → ∃ k', o.after = .seek symbols k' ∧ left k') :
    o.Consumes flatten valid left where
  takes_iff := by
    intro value after
    rw [htakes]
    constructor
    · rintro ⟨hvalid, hspan⟩
      obtain ⟨k', rfl, hcovers⟩ := (Cursor.seek_spans_iff (hflatten _ _ hvalid)).mp hspan
      exact ⟨k', rfl, hcovers, hvalid⟩
    · rintro ⟨k', rfl, hcovers, hvalid⟩
      exact ⟨hvalid, (Cursor.seek_spans_iff (hflatten _ _ hvalid)).mpr ⟨k', rfl, hcovers⟩⟩
  refuses := hleft
  attempt_takes_iff := fun _ _ => Outcome.attempt_takes_iff
  attempt_refuses := fun _ hd => hd.attempt

/-- The operator rule takes those expressions that are operators. -/
theorem operator_takes_iff_expression {c after : Cursor} {e : Expression} :
    (operator c).Takes e after ↔ (∃ s, e = .operator s) ∧ (expression c).Takes e after := by
  rw [expression_takes_iff_rules]
  constructor
  · intro h
    exact ⟨⟨_, (operator_takes_iff.mp h).2.1⟩, .inr h⟩
  · rintro ⟨⟨s, rfl⟩, h | h⟩
    · obtain ⟨-, body, last, -, -, he, -⟩ := loop_takes_iff.mp h
      cases he
    · exact h

/-- The loop rule takes those expressions that are loops. -/
theorem loop_takes_iff_expression {c after : Cursor} {e : Expression} :
    (loop c).Takes e after ↔ (∃ body, e = .loop body) ∧ (expression c).Takes e after := by
  rw [expression_takes_iff_rules]
  constructor
  · intro h
    obtain ⟨-, body, last, -, -, he, -⟩ := loop_takes_iff.mp h
    exact ⟨⟨body, he⟩, .inl h⟩
  · rintro ⟨⟨body, rfl⟩, h | h⟩
    · exact h
    · cases (operator_takes_iff.mp h).2.1

/-- An expression that is refused costs nothing. -/
theorem expression_consumes :
    (expression (.seek symbols k)).Consumes Expression.symbols
      (fun e _ => e.isWellFormed = true) (· = k) := by
  apply Outcome.Consumes.of_spans
  · intro e after
    exact expression_takes_iff e _ after
  · intro e _ _
    exact e.symbols_ne_nil
  · intro d hd
    exact ⟨k, after_expression_of_refuses hd, rfl⟩

/-- An operator that is refused costs the one symbol that was read. -/
theorem operator_consumes :
    (operator (.seek symbols k)).Consumes Expression.symbols
      (fun e _ => (∃ s, e = .operator s) ∧ e.isWellFormed = true) (· = k + 1) := by
  apply Outcome.Consumes.of_spans
  · intro e after
    rw [operator_takes_iff_expression, expression_takes_iff, and_assoc]
  · intro e _ _
    exact e.symbols_ne_nil
  · intro d _
    exact ⟨k + 1, (after_operator _).trans (advance_seek symbols k), rfl⟩

/-- A list is as long as possible, and one that is refused costs nothing. -/
theorem list_consumes :
    (list (.seek symbols k)).Consumes Program.symbols
      (fun es after => es ≠ [] ∧ Program.isWellFormed es = true ∧
        ∃ d, (expression after).Refuses d) (· = k) := by
  apply Outcome.Consumes.of_spans
  · intro es after
    rw [list_takes_iff]
    constructor
    · rintro ⟨hne, hwf, hspan, hstop⟩
      exact ⟨⟨hne, hwf, hstop⟩, hspan⟩
    · rintro ⟨⟨hne, hwf, hstop⟩, hspan⟩
      exact ⟨hne, hwf, hspan, hstop⟩
  · rintro es after ⟨hne, -, -⟩
    exact List.length_pos_iff.mp (Program.length_symbols_pos hne)
  · intro d hd
    exact ⟨k, after_list_of_refuses hd, rfl⟩

/-- A loop that is refused costs at least one symbol. -/
theorem loop_consumes :
    (loop (.seek symbols k)).Consumes Expression.symbols
      (fun e _ => (∃ body, e = .loop body) ∧ e.isWellFormed = true) (k < ·) := by
  apply Outcome.Consumes.of_spans
  · intro e after
    rw [loop_takes_iff_expression, expression_takes_iff, and_assoc]
  · intro e _ _
    exact e.symbols_ne_nil
  · intro d _
    rcases after_loop (.seek symbols k) with hafter | ⟨body, last, hbody, hafter⟩
    · exact ⟨k + 1, hafter.trans (advance_seek symbols k), Nat.lt_succ_self k⟩
    · -- the body was read behind the first symbol, and one more symbol behind it
      rw [advance_seek] at hbody
      obtain ⟨k', rfl, hcovers, -⟩ := (list_consumes.takes_iff body last).mp hbody
      have hlt := hcovers.lt
      exact ⟨k' + 1, hafter.trans (advance_seek symbols k'), by omega⟩

end Rules

/-! ## The repetitions of the parser -/

/-- Round after round an expression is attempted at `c` and behind it, and those taken so far are
`es`. -/
inductive Repeats : Cursor → List Expression → Cursor → Prop
  | start (c : Cursor) : Repeats c [] c
  | round {c mid after : Cursor} {e : Expression} {es : List Expression}
      (taken : (expression c).attempt.Takes e mid) (more : Repeats mid es after) :
      Repeats c (e :: es) after

/-- The rounds take the expressions of a program, with their symbols and nothing else. -/
theorem repeats_iff {c after : Cursor} {es : List Expression} :
    Repeats c es after ↔
      Program.isWellFormed es = true ∧ c.Spans (Program.symbols es) after := by
  constructor
  · intro h
    induction h with
    | start c => exact ⟨rfl, Cursor.spans_nil_iff.mpr rfl⟩
    | round taken _ ih =>
      obtain ⟨hwf, hspan⟩ := (expression_takes_iff _ _ _).mp (Outcome.attempt_takes_iff.mp taken)
      exact ⟨by simp [Program.isWellFormed, hwf, ih.1],
        Cursor.spans_append_iff.mpr ⟨_, hspan, ih.2⟩⟩
  · rintro ⟨hwf, hspan⟩
    induction es generalizing c with
    | nil =>
      obtain rfl := Cursor.spans_nil_iff.mp hspan
      exact .start after
    | cons e more ih =>
      simp only [Program.isWellFormed, Bool.and_eq_true] at hwf
      obtain ⟨mid, hfirst, hmore⟩ := Cursor.spans_append_iff.mp hspan
      have htaken := (expression_takes_iff e c mid).mpr ⟨hwf.1, hfirst⟩
      exact .round (Outcome.attempt_takes_iff.mpr htaken) (ih hwf.2 hmore)

/-- **There are no more rounds than symbols left**, since every round moves the cursor. -/
theorem Repeats.bounded {symbols : List Symbol} {c after : Cursor} {es : List Expression}
    (h : Repeats c es after) (k : Nat) (hc : c = .seek symbols k) :
    ∃ k', after = .seek symbols k' ∧ k + es.length ≤ k' ∧ k' ≤ max k symbols.length := by
  induction h generalizing k with
  | start c => exact ⟨k, hc, Nat.le_refl k, Nat.le_max_left _ _⟩
  | round taken _ ih =>
    subst hc
    obtain ⟨mid, hmid, hcovers, -⟩ :=
      (expression_consumes.takes_iff _ _).mp (Outcome.attempt_takes_iff.mp taken)
    obtain ⟨k', hafter, hrounds, hbound⟩ := ih mid hmid
    have hlt := hcovers.lt
    have hle := hcovers.le
    refine ⟨k', hafter, ?_, ?_⟩
    · rw [List.length_cons]
      omega
    · rw [Nat.max_eq_right hle] at hbound
      exact Nat.le_trans hbound (Nat.le_max_right _ _)

/-- The rounds go on until an expression is refused. -/
theorem exists_repeats (c : Cursor) :
    ∃ es last cause, Repeats c es last ∧ (expression last).Refuses cause := by
  induction c using parseFrom_cases with
  | takes c e after ht ih =>
    obtain ⟨es, last, cause, hmore, hcause⟩ := ih
    exact ⟨e :: es, last, cause, .round (Outcome.attempt_takes_iff.mpr ht) hmore, hcause⟩
  | refuses c d hd => exact ⟨[], c, d, .start c, hd⟩

/-- The refusal that ends the rounds is always the same one. -/
theorem Repeats.unique {c last stop : Cursor} {es fs : List Expression} {d d' : Diagnosis}
    (h : Repeats c es last) (hd : (expression last).Refuses d) (h' : Repeats c fs stop)
    (hd' : (expression stop).Refuses d') : fs = es ∧ stop = last := by
  -- one of the two cannot stop where the other one takes an expression
  induction h generalizing fs with
  | start c =>
    cases h' with
    | start => exact ⟨rfl, rfl⟩
    | round taken _ => exact absurd hd (Outcome.attempt_takes_iff.mp taken).not_refuses
  | round taken _ ih =>
    cases h' with
    | start => exact absurd hd' (Outcome.attempt_takes_iff.mp taken).not_refuses
    | round taken' more' =>
      obtain ⟨rfl, rfl⟩ := taken.unique taken'
      obtain ⟨rfl, rfl⟩ := ih hd more'
      exact ⟨rfl, rfl⟩

/-- The list rule takes what the rounds take, unless it is nothing. -/
theorem list_takes_iff_repeats {c last : Cursor} {es : List Expression} {cause : Diagnosis}
    (h : Repeats c es last) (hcause : (expression last).Refuses cause) (value : List Expression)
    (after : Cursor) : (list c).Takes value after ↔ es ≠ [] ∧ value = es ∧ after = last := by
  have hrepeats : (list c).Takes value after ↔
      value ≠ [] ∧ Repeats c value after ∧ ∃ d, (expression after).Refuses d := by
    rw [list_takes_iff, repeats_iff, and_assoc]
  rw [hrepeats]
  constructor
  · rintro ⟨hne, hrun, d, hd⟩
    obtain ⟨rfl, rfl⟩ := h.unique hcause hrun hd
    exact ⟨hne, rfl, rfl⟩
  · rintro ⟨hne, rfl, rfl⟩
    exact ⟨hne, h, cause, hcause⟩

/-- Parsing takes what the rounds take, and fails unless they end at the end of input. -/
theorem parseFrom_of_repeats {c last : Cursor} {es : List Expression} {cause : Diagnosis}
    (h : Repeats c es last) (hcause : (expression last).Refuses cause) :
    parseFrom c =
      if last.symbol = .endOfInput then .ok es else .error (trailing last cause) := by
  obtain ⟨hwf, hspan⟩ := repeats_iff.mp h
  rw [parseFrom_of_spans hwf hspan, parseFrom_of_refuses hcause]
  split
  · simp [Except.map]
  · rfl

/-- The repetition that starts at the `k`-th symbol ends, and what it has taken until then decides
what the list rule and what parsing answers. -/
structure RepetitionEnds (symbols : List Symbol) (k : Nat) : Prop where
  bounded : ∀ es after, Repeats (.seek symbols k) es after →
    ∃ k', after = .seek symbols k' ∧ k + es.length ≤ k' ∧ k' ≤ max k symbols.length
  ends : ∃ es last cause, Repeats (.seek symbols k) es last ∧ (expression last).Refuses cause ∧
    (∀ value after, (list (.seek symbols k)).Takes value after ↔
      es ≠ [] ∧ value = es ∧ after = last) ∧
    parseFrom (.seek symbols k) =
      if last.symbol = .endOfInput then .ok es else .error (trailing last cause)

theorem repetitionEnds (symbols : List Symbol) (k : Nat) : RepetitionEnds symbols k where
  bounded := fun _ _ h => h.bounded k rfl
  ends := by
    obtain ⟨es, last, cause, hrun, hcause⟩ := exists_repeats (.seek symbols k)
    exact ⟨es, last, cause, hrun, hcause, list_takes_iff_repeats hrun hcause,
      parseFrom_of_repeats hrun hcause⟩

/-- **Every rule consumes exactly what it takes**, from any place of a sequence and from any place
behind its end. An operator that is refused costs one symbol and a loop at least one; expressions
and lists cost nothing, and neither does an attempt. A list ends where no expression begins. So the
repetitions of the parser end. -/
theorem rules_consume_what_they_take (symbols : List Symbol) (k : Nat) :
    (operator (.seek symbols k)).Consumes Expression.symbols
      (fun e _ => (∃ s, e = .operator s) ∧ e.isWellFormed = true) (· = k + 1) ∧
    (loop (.seek symbols k)).Consumes Expression.symbols
      (fun e _ => (∃ body, e = .loop body) ∧ e.isWellFormed = true) (k < ·) ∧
    (expression (.seek symbols k)).Consumes Expression.symbols
      (fun e _ => e.isWellFormed = true) (· = k) ∧
    (list (.seek symbols k)).Consumes Program.symbols
      (fun es after => es ≠ [] ∧ Program.isWellFormed es = true ∧
        ∃ d, (expression after).Refuses d) (· = k) ∧
    RepetitionEnds symbols k :=
  ⟨operator_consumes, loop_consumes, expression_consumes, list_consumes, repetitionEnds symbols k⟩

/-- A list in front of a stray right bracket: it takes the loop, in four rounds at most, and ends at
the bracket. The loop rule reads the bracket in vain, and an attempt gives it back. -/
theorem rules_consume_what_they_take_stray :
    (list (.seek [.input, .leftBracket, .output, .rightBracket, .rightBracket] 1)).Takes
      [.loop [.operator .output]]
      (.seek [.input, .leftBracket, .output, .rightBracket, .rightBracket] 4) ∧
    (∀ es after,
      Repeats (.seek [.input, .leftBracket, .output, .rightBracket, .rightBracket] 1) es after →
        es.length ≤ 4) ∧
    ∃ d k', (loop (.seek [.output, .rightBracket] 1)).Refuses d ∧
      (loop (.seek [.output, .rightBracket] 1)).after = .seek [.output, .rightBracket] k' ∧ 1 < k' ∧
      (loop (.seek [.output, .rightBracket] 1)).attempt.after =
        .seek [.output, .rightBracket] 1 := by
  obtain ⟨-, -, -, hlist, hends⟩ := rules_consume_what_they_take
    [.input, .leftBracket, .output, .rightBracket, .rightBracket] 1
  obtain ⟨-, hloop, -⟩ := rules_consume_what_they_take [.output, .rightBracket] 1
  refine ⟨?_, fun es after h => ?_, ?_⟩
  · refine (hlist.takes_iff _ _).mpr ⟨4, rfl, ⟨by decide, by decide, rfl⟩, by simp, rfl, ?_⟩
    exact expression_refuses_of_rightBracket rfl
  · obtain ⟨k', -, hrounds, hbound⟩ := hends.bounded es after h
    have hlength : max 1 [Symbol.input, .leftBracket, .output, .rightBracket,
      .rightBracket].length = 5 := rfl
    omega
  · have hrefused : (loop (.seek [.output, .rightBracket] 1)).Refuses _ :=
      loop_refuses_iff.mpr (.inl ⟨by decide, rfl⟩)
    obtain ⟨k', hafter, hlt⟩ := hloop.refuses _ hrefused
    exact ⟨_, k', hrefused, hafter, hlt, (hloop.attempt_refuses _ hrefused).2⟩

end Grammar

end Bracket
