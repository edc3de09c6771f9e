import Mathlib.Algebra.Group.Nat.Defs
import Bracket.Proofs.Grammar.Refusal

/-!
# What a parse failure says

Rules refuse at every level of the recursion, but little of it is told. The repetition of the list
rule discards the refusal that ends it, and a loop hands on the refusal of its list, which has no
causes. So the diagnosis of a failed parse is a tree of four nodes (`Failure.IsAt`): below the
trailing symbol stands the expression that does not begin there, and below that why it is no loop
and why it is no operator.

Why it is no loop depends on how far the body of the loop goes. The list rule takes the longest
program behind the opening bracket (`explainsLoop_of_refuses`). The closing bracket is missed behind
that program, and if it is empty, it is the body that is missed.
-/

namespace Bracket

/-- The failure is a diagnosis of the given code at the `k`-th symbol, with exactly these causes. -/
def Failure.IsAt (code : Code) (k : Nat) (causes : List Failure) (f : Failure) : Prop :=
  ∃ message, f = .diagnosis code message (.ofSymbolIndex k) causes

/-- Every expression has at least one symbol. -/
theorem Expression.symbols_ne_nil (e : Expression) : e.symbols ≠ [] := by
  cases e <;> simp [Expression.symbols]

/-- A program that is not empty has symbols. -/
theorem Program.length_symbols_pos {es : List Expression} (h : es ≠ []) :
    0 < (Program.symbols es).length := by
  obtain ⟨e, rest, rfl⟩ := List.exists_cons_of_ne_nil h
  rw [Program.symbols, List.length_append]
  exact Nat.add_pos_left (List.length_pos_iff.mpr e.symbols_ne_nil) _

namespace Grammar

/-! ## The nodes of a diagnosis -/

theorem isAt_trailing (c : Cursor) (cause : Diagnosis) :
    (trailing c cause).toFailure.IsAt .trailingInput c.position [cause.toFailure] := ⟨_, rfl⟩

theorem isAt_noAlternative (c : Cursor) (noLoop noOperator : Diagnosis) :
    (noAlternative c noLoop noOperator).toFailure.IsAt .noViableAlternative c.position
      [noLoop.toFailure, noOperator.toFailure] := ⟨_, rfl⟩

theorem isAt_unexpected (c : Cursor) (code : Code) (wanted : String) :
    (unexpected c code wanted).toFailure.IsAt code c.position [] := ⟨_, rfl⟩

theorem isAt_emptyList (c : Cursor) :
    (emptyList c).toFailure.IsAt .emptyExpressionList c.position [] := ⟨_, rfl⟩

/-! ## Why there is no loop -/

/-- Why there is no loop at the `k`-th symbol: it does not open, it has no body, or it does not
close behind the longest program that it could hold. -/
structure ExplainsLoop (symbols : List Symbol) (k : Nat) (f : Failure) : Prop where
  unopened : symbols[k]? ≠ some .leftBracket → f.IsAt .missingLeftBracket k []
  opened : symbols[k]? = some .leftBracket → ∃ m, LongestProgram (symbols.drop (k + 1)) m ∧
    (m = 0 → f.IsAt .emptyExpressionList (k + 1) []) ∧
    (0 < m → f.IsAt .missingRightBracket (k + 1 + m) [])

/-- A cursor reads the symbol at its place, and the end of input where there is none. -/
theorem symbol_seek_eq_iff {symbols : List Symbol} {k : Nat} {s : Symbol} (hs : s ≠ .endOfInput) :
    (Cursor.seek symbols k).symbol = s ↔ symbols[k]? = some s := by
  rw [Cursor.symbol, Cursor.seek, ← List.head?_drop]
  cases symbols.drop k with
  | nil => simp [hs.symm]
  | cons r rest => simp

theorem advance_seek (symbols : List Symbol) (k : Nat) :
    (Cursor.seek symbols k).advance = .seek symbols (k + 1) := by
  rw [Cursor.advance, Cursor.seek, Cursor.seek, List.tail_drop]

/-- **The refusal of a loop says how far its body goes.** -/
theorem explainsLoop_of_refuses {symbols : List Symbol} {k : Nat} {d : Diagnosis}
    (hend : .endOfInput ∉ symbols) (h : (loop (.seek symbols k)).Refuses d) :
    ExplainsLoop symbols k d.toFailure := by
  have hrest : .endOfInput ∉ symbols.drop (k + 1) := fun hmem => hend (List.mem_of_mem_drop hmem)
  have hbracket : (Cursor.seek symbols k).symbol = .leftBracket ↔ symbols[k]? = some .leftBracket :=
    symbol_seek_eq_iff (by decide)
  rw [loop_refuses_iff, hbracket, advance_seek] at h
  rcases h with ⟨hopen, rfl⟩ | ⟨hopen, hlist⟩ | ⟨hopen, body, last, hbody, -, rfl⟩
  · exact ⟨fun _ => isAt_unexpected _ _ _, fun hk => absurd (hbracket.mpr hk) hopen⟩
  · obtain ⟨hnone, rfl⟩ := list_refuses_iff.mp hlist
    refine ⟨fun hk => absurd hopen hk, fun _ => ⟨0, ?_, fun _ => isAt_emptyList _, ?_⟩⟩
    · -- no expression begins behind the bracket, so the longest program there is the empty one
      show LongestProgram (Program.symbols [] ++ symbols.drop (k + 1)) (Program.symbols []).length
      exact longestProgram_append rfl hrest hnone
    · exact fun hm => absurd hm (Nat.lt_irrefl 0)
  · obtain ⟨hne, hwf, ⟨hbehind, hposition⟩, hstop⟩ := (list_takes_iff body _ last).mp hbody
    replace hbehind : symbols.drop (k + 1) = Program.symbols body ++ last.rest := hbehind
    have hpos := Program.length_symbols_pos hne
    refine ⟨fun hk => absurd hopen hk, fun _ => ⟨(Program.symbols body).length, ?_, ?_, ?_⟩⟩
    · rw [hbehind] at hrest ⊢
      apply longestProgram_append hwf _ hstop
      exact fun hmem => hrest (List.mem_append_right _ hmem)
    · exact fun hm => absurd hm (Nat.ne_of_gt hpos)
    · intro _
      have hlast := isAt_unexpected last .missingRightBracket "right bracket"
      rwa [hposition] at hlast

/-! ## Parse failures -/

/-- **A parse failure points behind the longest program in front.** The diagnosis is about the
symbol behind it, and every longer beginning of the sequence fails at the same symbol. -/
theorem parse_error_behind_longest {symbols : List Symbol} {d : Diagnosis}
    (h : parse symbols = .error d) :
    d.code = .trailingInput ∧ ∃ k : Nat, d.location = .ofSymbolIndex k ∧
      (symbols.length < 2 ^ 63 → d.location.position.offset.toInt = k) ∧
      k < (beforeEnd symbols).length ∧
      (∃ program, parse ((beforeEnd symbols).take k) = .ok program) ∧
      ∀ j, k < j → j ≤ (beforeEnd symbols).length →
        ∃ d', parse ((beforeEnd symbols).take j) = .error d' ∧ d'.location = d.location := by
  obtain ⟨k, cause, hk, hlongest, -, rfl⟩ := parse_eq_error_longest h
  refine ⟨rfl, k, rfl, fun hlength => ?_, hk, hlongest.parsed, fun j hj hj' => ?_⟩
  · have hle : (beforeEnd symbols).length ≤ symbols.length := (List.takeWhile_sublist _).length_le
    have hbound : k < 2 ^ 63 := by omega
    exact Int64.toInt_ofNat_of_lt hbound
  · obtain ⟨d', hd'⟩ := hlongest.longer j hj hj'
    refine ⟨d', hd', ?_⟩
    obtain ⟨k', cause', -, hlongest', -, rfl⟩ := parse_eq_error_longest hd'
    have hself : beforeEnd ((beforeEnd symbols).take j) = (beforeEnd symbols).take j :=
      beforeEnd_eq_self fun hmem =>
        endOfInput_notMem_beforeEnd symbols (List.mem_of_mem_take hmem)
    rw [hself] at hlongest'
    obtain rfl : k' = k := hlongest'.unique (hlongest.take (Nat.le_of_lt hj) hj')
    rfl

/-- A right bracket without a loop, and a left one behind the end of input. -/
theorem parse_error_behind_longest_unopened :
    ∃ d, parse [.output, .rightBracket, .input, .endOfInput, .leftBracket] = .error d ∧
      d.code = .trailingInput ∧ d.location = .ofSymbolIndex 1 ∧
      (∃ program, parse [.output] = .ok program) ∧
      ∃ d', parse [.output, .rightBracket, .input] = .error d' ∧
        d'.location = .ofSymbolIndex 1 := by
  have htakes :
      (expression (.start [.output, .rightBracket, .input, .endOfInput, .leftBracket])).Takes
        (.operator .output) ⟨1, [.rightBracket, .input, .endOfInput, .leftBracket]⟩ :=
    (expression_takes_iff _ _ _).mpr ⟨rfl, rfl, rfl⟩
  obtain ⟨cause, hcause⟩ := expression_refuses_of_rightBracket
    (c := ⟨1, [.rightBracket, .input, .endOfInput, .leftBracket]⟩) rfl
  have hparse : parse [.output, .rightBracket, .input, .endOfInput, .leftBracket] =
      .error (trailing ⟨1, [.rightBracket, .input, .endOfInput, .leftBracket]⟩ cause) := by
    refine (parseFrom_of_takes htakes).trans ?_
    rw [parseFrom_of_refuses hcause]
    rfl
  have hindex : ∀ k < 3, Location.ofSymbolIndex 1 = .ofSymbolIndex k → k = 1 := by decide
  obtain ⟨hcode, k, hlocation, -, hk, hparsed, hlonger⟩ := parse_error_behind_longest hparse
  obtain rfl : k = 1 := hindex k hk hlocation
  exact ⟨_, hparse, hcode, hlocation, hparsed, hlonger 3 (by decide) (by decide)⟩

/-- **The diagnosis of a failed parse has an exact shape.** Its one cause is that no expression
begins at the symbol behind the longest program in front, for exactly two reasons: why there is no
loop, and that the symbol is no operator. No refusal of a deeper rule is told. -/
theorem parse_error_tree {symbols : List Symbol} {d : Diagnosis} (h : parse symbols = .error d) :
    ∃ k noExpression noLoop noOperator,
      LongestProgram (beforeEnd symbols) k ∧ k < (beforeEnd symbols).length ∧
      d.toFailure.IsAt .trailingInput k [noExpression] ∧
      noExpression.IsAt .noViableAlternative k [noLoop, noOperator] ∧
      ExplainsLoop (beforeEnd symbols) k noLoop ∧
      noOperator.IsAt .unexpectedSymbol k [] := by
  obtain ⟨k, cause, hk, hlongest, hcause, rfl⟩ := parse_eq_error_longest h
  obtain ⟨noLoop, noOperator, hloop, hoperator, rfl⟩ := expression_refuses_iff.mp hcause
  obtain ⟨-, rfl⟩ := operator_refuses_iff.mp hoperator
  exact ⟨k, _, noLoop.toFailure, _, hlongest, hk, isAt_trailing _ _, isAt_noAlternative _ _ _,
    explainsLoop_of_refuses (endOfInput_notMem_beforeEnd symbols) hloop, isAt_unexpected _ _ _⟩

/-- An empty loop in a loop: the outer loop is not closed where the inner one begins, and the
refusal of the inner one is not told. -/
theorem parse_error_tree_empty_inner :
    ∃ d noExpression noLoop noOperator,
      parse [.leftBracket, .input, .leftBracket, .rightBracket] = .error d ∧
      d.toFailure.IsAt .trailingInput 0 [noExpression] ∧
      noExpression.IsAt .noViableAlternative 0 [noLoop, noOperator] ∧
      noLoop.IsAt .missingRightBracket 2 [] ∧ noOperator.IsAt .unexpectedSymbol 0 [] := by
  have hinner : (expression ⟨2, [.leftBracket, .rightBracket]⟩).Refuses _ :=
    expression_refuses_iff.mpr ⟨_, _,
      loop_refuses_iff.mpr (.inr (.inl ⟨rfl, list_refuses_iff.mpr
        ⟨expression_refuses_of_rightBracket rfl, rfl⟩⟩)),
      operator_refuses_iff.mpr ⟨rfl, rfl⟩, rfl⟩
  have hbody : (list ⟨1, [.input, .leftBracket, .rightBracket]⟩).Takes [.operator .input]
      ⟨2, [.leftBracket, .rightBracket]⟩ :=
    (list_takes_iff _ _ _).mpr ⟨by simp, rfl, ⟨rfl, rfl⟩, _, hinner⟩
  have houter :
      (expression (.start [.leftBracket, .input, .leftBracket, .rightBracket])).Refuses _ :=
    expression_refuses_iff.mpr ⟨_, _,
      loop_refuses_iff.mpr (.inr (.inr ⟨rfl, _, _, hbody, by decide, rfl⟩)),
      operator_refuses_iff.mpr ⟨rfl, rfl⟩, rfl⟩
  have hparse := (parseFrom_of_refuses houter).trans (if_neg (by decide))
  have hindex : ∀ k < 4, Location.ofSymbolIndex 0 = .ofSymbolIndex k → k = 0 := by decide
  obtain ⟨k, noExpression, noLoop, noOperator, -, hk, htrailing, hexpression, hloop, hoperator⟩ :=
    parse_error_tree hparse
  obtain ⟨message, hd⟩ := htrailing
  obtain rfl : k = 0 := hindex k hk (Failure.diagnosis.inj hd).2.2.1
  obtain ⟨m, hm, -, hclosed⟩ := hloop.opened rfl
  have hone :
      LongestProgram (Program.symbols [.operator .input] ++ [.leftBracket, .rightBracket]) 1 :=
    longestProgram_append rfl (by decide) ⟨_, hinner⟩
  obtain rfl : m = 1 := hm.unique hone
  exact ⟨_, noExpression, noLoop, noOperator, hparse, ⟨message, hd⟩, hexpression,
    hclosed Nat.one_pos, hoperator⟩

end Grammar

end Bracket
