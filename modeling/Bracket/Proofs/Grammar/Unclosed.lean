import Mathlib.Data.List.Basic
import Mathlib.Data.List.Induction
import Bracket.Proofs.Grammar.Brackets
import Bracket.Proofs.Grammar.Diagnostics

/-!
# Loops that are never closed

A sequence of commands without empty loops, in which every right bracket closes a left one, may
still leave some left brackets open. It then is a program with open loops in a row behind it, each
of them inside the one before (`Opens`, `exists_opens`): every level is a program, and a right
bracket takes the innermost level back into the one around it.

Parsing stops at the outermost of the open loops. The body of that loop is what stands in front of
the next open loop. If the body has expressions, the loop misses its right bracket behind them. If
the next open loop follows at once, it is the body that is missed: the refusal of the inner loop
ended the repetition and was discarded, and the missing right bracket with it
(`exists_loop_refuses`).
-/

namespace Bracket

/-! ## Partners -/

/-- The right bracket at `j` closes the left bracket at `i`: what stands between is balanced. -/
def Closes (symbols : List Symbol) (i j : Nat) : Prop :=
  ∃ before body behind,
    symbols = before ++ .leftBracket :: (body ++ .rightBracket :: behind) ∧ Balanced body ∧
      i = before.length ∧ j = before.length + 1 + body.length

/-- The symbol at `i` is a left bracket that no right bracket closes. -/
def Unclosed (symbols : List Symbol) (i : Nat) : Prop :=
  symbols[i]? = some .leftBracket ∧ ∀ j, ¬ Closes symbols i j

/-- Commands that leave a loop open and have no other fault. -/
structure LeavesOpen (symbols : List Symbol) : Prop where
  /-- Every symbol is a command. -/
  commands : ∀ s ∈ symbols, ∃ b, s.spelling? = some b
  /-- Every right bracket closes a left bracket. -/
  closing : ∀ j, symbols[j]? = some .rightBracket → ∃ i, Closes symbols i j
  /-- Some left bracket is never closed. -/
  opening : ∃ i, Unclosed symbols i
  /-- Every left bracket is directly followed by a symbol other than a right bracket. -/
  followed : ∀ i, symbols[i]? = some .leftBracket →
    ∃ s, symbols[i + 1]? = some s ∧ s ≠ .rightBracket

/-- Partners are partners in every sequence that has theirs as a part. -/
theorem Closes.append {symbols : List Symbol} {i j : Nat} (h : Closes symbols i j)
    (front back : List Symbol) :
    Closes (front ++ symbols ++ back) (front.length + i) (front.length + j) := by
  obtain ⟨before, body, behind, rfl, hbody, rfl, rfl⟩ := h
  refine ⟨front ++ before, body, behind ++ back, by simp, hbody, by simp, ?_⟩
  simp only [List.length_append]
  omega

/-- If every right bracket closes a left one, the sequence is nested. -/
theorem nested_of_closing {symbols : List Symbol}
    (h : ∀ j, symbols[j]? = some .rightBracket → ∃ i, Closes symbols i j) : Nested symbols := by
  intro front hfront
  induction hn : front.length using Nat.strongRecOn generalizing front with
  | ind n ih =>
    rcases List.eq_nil_or_concat' front with rfl | ⟨shorter, s, rfl⟩
    · simp
    obtain ⟨back, rfl⟩ := hfront
    have hlength : shorter.length < n := by simp [← hn]
    by_cases hs : s = .rightBracket
    · -- the balanced part in front of it and its two brackets cancel out
      subst hs
      obtain ⟨i, before, body, behind, heq, hbody, -, hlen⟩ := h shorter.length (by simp)
      have hsplit : shorter ++ [.rightBracket] =
          before ++ .leftBracket :: (body ++ [.rightBracket]) := by
        refine (List.append_inj (heq.trans (by simp) : _ = _ ++ behind) ?_).1
        simp only [List.length_append, List.length_cons, List.length_nil]
        omega
      have hshort : before.length < n := by omega
      have hbefore := ih before.length hshort before ⟨_, heq.symm⟩ rfl
      rw [hsplit]
      simpa [hbody.excess_eq_zero] using hbefore
    · have hshorter := ih shorter.length hlength shorter (by simp) rfl
      rw [excess_append]
      by_cases hs' : s = .leftBracket
      · subst hs'
        simp only [excess_leftBracket_cons, excess_nil]
        omega
      · rw [excess_cons_of_ne hs' hs]
        simpa using hshorter

/-- A left bracket in front of a nested sequence is never closed. -/
theorem unclosed_of_nested (front : List Symbol) {behind : List Symbol} (h : Nested behind) :
    Unclosed (front ++ .leftBracket :: behind) front.length := by
  refine ⟨by simp, ?_⟩
  rintro j ⟨before, body, rest, heq, hbody, hlen, -⟩
  obtain ⟨-, hbehind⟩ := List.append_inj heq hlen
  have hprefix : body ++ [.rightBracket] <+: behind := by
    rw [(List.cons.inj hbehind).2]
    exact ⟨rest, by simp⟩
  have hge := h _ hprefix
  simp [hbody.excess_eq_zero] at hge

mutual

/-- Every left bracket of an expression is closed in it. -/
theorem Expression.exists_closes {e : Expression} (h : e.isWellFormed = true) {i : Nat}
    (hi : e.symbols[i]? = some .leftBracket) : ∃ j, Closes e.symbols i j := by
  match e with
  | .operator s =>
    have hs := (Symbol.ne_brackets_of_isOperator (by simpa [Expression.isWellFormed] using h)).1
    cases i with
    | zero => exact absurd (by simpa [Expression.symbols] using hi) hs
    | succ i => simp [Expression.symbols] at hi
  | .loop body =>
    simp only [Expression.isWellFormed, Bool.and_eq_true] at h
    cases i with
    | zero =>
      have hbody := Program.balanced_symbols h.2
      exact ⟨_, [], _, [], by simp [Expression.symbols], hbody, rfl, rfl⟩
    | succ i =>
      have hbody : (Program.symbols body)[i]? = some .leftBracket := by
        rw [Expression.symbols, List.getElem?_cons_succ] at hi
        rcases Nat.lt_or_ge i (Program.symbols body).length with hlt | hge
        · rwa [List.getElem?_append_left hlt] at hi
        · rw [List.getElem?_append_right hge] at hi
          cases hn : i - (Program.symbols body).length <;> simp [hn] at hi
      obtain ⟨j, hj⟩ := Program.exists_closes h.2 hbody
      have hloop := hj.append [.leftBracket] [.rightBracket]
      rw [List.length_singleton, Nat.add_comm 1 i] at hloop
      exact ⟨_, hloop⟩

/-- Every left bracket of a program is closed in it. -/
theorem Program.exists_closes {es : List Expression} (h : Program.isWellFormed es = true) {i : Nat}
    (hi : (Program.symbols es)[i]? = some .leftBracket) :
    ∃ j, Closes (Program.symbols es) i j := by
  match es with
  | [] => simp [Program.symbols] at hi
  | e :: rest =>
    simp only [Program.isWellFormed, Bool.and_eq_true] at h
    rw [Program.symbols] at hi ⊢
    rcases Nat.lt_or_ge i e.symbols.length with hlt | hge
    · rw [List.getElem?_append_left hlt] at hi
      obtain ⟨j, hj⟩ := Expression.exists_closes h.1 hi
      exact ⟨_, by simpa using hj.append [] (Program.symbols rest)⟩
    · rw [List.getElem?_append_right hge] at hi
      obtain ⟨j, hj⟩ := Program.exists_closes h.2 hi
      have hrest := hj.append e.symbols []
      rw [List.append_nil, Nat.add_sub_of_le hge] at hrest
      exact ⟨_, hrest⟩

end

/-- A left bracket inside a program is closed, whatever stands around the program. -/
theorem not_unclosed_of_lt (front back : List Symbol) {es : List Expression} {i : Nat}
    (h : Program.isWellFormed es = true) (hi : i < (Program.symbols es).length) :
    ¬ Unclosed (front ++ Program.symbols es ++ back) (front.length + i) := by
  rintro ⟨hleft, hnone⟩
  rw [List.append_assoc, List.getElem?_append_right (Nat.le_add_right _ _),
    Nat.add_sub_cancel_left, List.getElem?_append_left hi] at hleft
  obtain ⟨j, hj⟩ := Program.exists_closes h hleft
  exact hnone _ (hj.append front back)

/-! ## Programs with open loops -/

/-- The symbols of open loops, each inside the one before, given what stands in each of them in
front of the next one. -/
def openSymbols (inner : List Program) : List Symbol :=
  inner.flatMap fun body => .leftBracket :: Program.symbols body

/-- The symbols are those of a program and then of open loops. -/
structure Opens (symbols : List Symbol) (outer : Program) (inner : List Program) : Prop where
  symbols_eq : symbols = Program.symbols outer ++ openSymbols inner
  outer_wellFormed : Program.isWellFormed outer = true
  inner_wellFormed : ∀ body ∈ inner, Program.isWellFormed body = true

theorem openSymbols_cons (body : Program) (inner : List Program) :
    openSymbols (body :: inner) = .leftBracket :: (Program.symbols body ++ openSymbols inner) := by
  simp [openSymbols]

theorem openSymbols_concat (inner : List Program) (body : Program) :
    openSymbols (inner ++ [body]) = openSymbols inner ++ .leftBracket :: Program.symbols body := by
  simp [openSymbols]

/-- Open loops have no right bracket too many. -/
theorem nested_openSymbols {inner : List Program}
    (h : ∀ body ∈ inner, Program.isWellFormed body = true) : Nested (openSymbols inner) := by
  induction inner with
  | nil => exact balanced_nil.nested
  | cons body inner ih =>
    rw [openSymbols_cons]
    have hbody := Program.balanced_symbols (h body (by simp))
    exact (hbody.nested_append (ih fun b hb => h b (by simp [hb]))).leftBracket_cons

namespace Opens

variable {symbols : List Symbol} {outer body : Program} {inner : List Program}

/-- Another expression belongs to the innermost level. -/
theorem push (h : Opens symbols outer inner) {e : Expression} (he : e.isWellFormed = true) :
    ∃ outer' inner', Opens (symbols ++ e.symbols) outer' inner' := by
  have hone : Program.isWellFormed [e] = true := by simp [Program.isWellFormed, he]
  have hsymbols : Program.symbols [e] = e.symbols := by simp [Program.symbols]
  rcases List.eq_nil_or_concat' inner with rfl | ⟨front, body, rfl⟩
  · refine ⟨outer ++ [e], [], ?_, Program.isWellFormed_append h.outer_wellFormed hone, by simp⟩
    rw [h.symbols_eq, Program.symbols_append, hsymbols]
    simp [openSymbols]
  · refine ⟨outer, front ++ [body ++ [e]], ?_, h.outer_wellFormed, ?_⟩
    · rw [h.symbols_eq, openSymbols_concat, openSymbols_concat, Program.symbols_append, hsymbols]
      simp
    · intro b hb
      rcases List.mem_append.mp hb with hb | hb
      · exact h.inner_wellFormed b (by simp [hb])
      · obtain rfl := List.mem_singleton.mp hb
        exact Program.isWellFormed_append (h.inner_wellFormed body (by simp)) hone

/-- A left bracket opens another level. -/
theorem leftBracket (h : Opens symbols outer inner) :
    Opens (symbols ++ [.leftBracket]) outer (inner ++ [[]]) where
  symbols_eq := by
    rw [h.symbols_eq, openSymbols_concat, List.append_assoc]
    rfl
  outer_wellFormed := h.outer_wellFormed
  inner_wellFormed := by
    intro b hb
    rcases List.mem_append.mp hb with hb | hb
    · exact h.inner_wellFormed b hb
    · obtain rfl := List.mem_singleton.mp hb
      rfl

/-- A right bracket makes the innermost level an expression of the one around it. -/
theorem rightBracket (h : Opens symbols outer (inner ++ [body])) (hbody : body ≠ []) :
    ∃ outer' inner', Opens (symbols ++ [.rightBracket]) outer' inner' := by
  have haround : Opens (Program.symbols outer ++ openSymbols inner) outer inner :=
    ⟨rfl, h.outer_wellFormed, fun b hb => h.inner_wellFormed b (by simp [hb])⟩
  have hloop : (Expression.loop body).isWellFormed = true := by
    simp [Expression.isWellFormed, hbody, h.inner_wellFormed body (by simp)]
  obtain ⟨outer', inner', hpushed⟩ := haround.push hloop
  refine ⟨outer', inner', ?_⟩
  rw [h.symbols_eq, openSymbols_concat]
  simpa [Expression.symbols] using hpushed

end Opens

/-- A command that is no bracket is an operator. -/
theorem Symbol.isOperator_of_spelling {s : Symbol} {b : UInt8} (h : s.spelling? = some b)
    (hleft : s ≠ .leftBracket) (hright : s ≠ .rightBracket) : s.isOperator = true := by
  cases s <;> simp_all [Symbol.spelling?, Symbol.isOperator]

/-- **Nested commands without empty loops are a program with open loops.** -/
theorem exists_opens {symbols : List Symbol} (hcommands : ∀ s ∈ symbols, ∃ b, s.spelling? = some b)
    (hnested : Nested symbols)
    (hfull : ∀ i, symbols[i]? = some .leftBracket → symbols[i + 1]? ≠ some .rightBracket) :
    ∃ outer inner, Opens symbols outer inner := by
  induction symbols using List.reverseRecOn with
  | nil => exact ⟨[], [], rfl, rfl, by simp⟩
  | append_singleton front s ih =>
    have hfront : ∀ i, front[i]? = some .leftBracket → front[i + 1]? ≠ some .rightBracket := by
      intro i hi hright
      have hlt : i + 1 < front.length := (List.getElem?_eq_some_iff.mp hright).1
      refine hfull i ?_ ?_
      · rwa [List.getElem?_append_left (by omega)]
      · rwa [List.getElem?_append_left hlt]
    obtain ⟨outer, inner, hopens⟩ :=
      ih (fun s hs => hcommands s (by simp [hs])) hnested.front hfront
    by_cases hleft : s = .leftBracket
    · subst hleft
      exact ⟨outer, _, hopens.leftBracket⟩
    by_cases hright : s = .rightBracket
    · subst hright
      rcases List.eq_nil_or_concat' inner with rfl | ⟨around, body, rfl⟩
      · -- nothing is open that the bracket could close
        have hge := hnested _ List.prefix_rfl
        rw [hopens.symbols_eq] at hge
        simp [openSymbols, (Program.balanced_symbols hopens.outer_wellFormed).excess_eq_zero] at hge
      · refine hopens.rightBracket ?_
        rintro rfl
        -- the innermost level is empty, so its bracket stands directly in front
        have hlast : front = (Program.symbols outer ++ openSymbols around) ++ [.leftBracket] := by
          rw [hopens.symbols_eq, openSymbols_concat, List.append_assoc]
          rfl
        generalize Program.symbols outer ++ openSymbols around = before at hlast
        subst hlast
        exact hfull before.length (by simp) (by simp)
    · obtain ⟨b, hb⟩ := hcommands s (by simp)
      have hoperator := Symbol.isOperator_of_spelling hb hleft hright
      exact hopens.push (e := .operator s) (by simpa [Expression.isWellFormed] using hoperator)

namespace Grammar

/-! ## Parsing a program with open loops -/

/-- A loop whose body is not followed by its right bracket is refused for that reason, unless it has
no body at all: then that is the reason. -/
theorem exists_loop_refuses {c last : Cursor} {body : Program} (hopen : c.symbol = .leftBracket)
    (hwf : Program.isWellFormed body = true) (hspan : c.advance.Spans (Program.symbols body) last)
    (hstop : ∃ d, (expression last).Refuses d) (hlast : last.symbol ≠ .rightBracket) :
    ∃ d, (loop c).Refuses d ∧ d.causes = [] ∧
      d.code = if body.isEmpty then .emptyExpressionList else .missingRightBracket := by
  cases body with
  | nil =>
    obtain rfl : last = c.advance := Cursor.spans_nil_iff.mp hspan
    have hempty := list_refuses_iff.mpr ⟨hstop, rfl⟩
    exact ⟨_, loop_refuses_iff.mpr (.inr (.inl ⟨hopen, hempty⟩)), rfl, rfl⟩
  | cons e rest =>
    have hbody := (list_takes_iff (e :: rest) c.advance last).mpr ⟨by simp, hwf, hspan, hstop⟩
    exact ⟨_, loop_refuses_iff.mpr (.inr (.inr ⟨hopen, _, last, hbody, hlast, rfl⟩)), rfl, rfl⟩

/-- Open loops begin with a left bracket, or there are none of them. -/
theorem symbol_openSymbols_ne (inner : List Program) (position : Nat) :
    (Cursor.mk position (openSymbols inner)).symbol ≠ .rightBracket := by
  cases inner with
  | nil => simp [openSymbols, Cursor.symbol]
  | cons body inner => simp [openSymbols, Cursor.symbol]

/-- **No expression begins with an open loop**, whatever is open inside it. What is told of the
outermost one depends on its body. -/
theorem exists_refuses_open {body : Program} {inner : List Program}
    (hbody : Program.isWellFormed body = true)
    (hinner : ∀ b ∈ inner, Program.isWellFormed b = true) (position : Nat) :
    ∃ noLoop, noLoop.causes = [] ∧
      noLoop.code = (if body.isEmpty then .emptyExpressionList else .missingRightBracket) ∧
      (expression ⟨position, openSymbols (body :: inner)⟩).Refuses
        (noAlternative ⟨position, openSymbols (body :: inner)⟩ noLoop
          (unexpected ⟨position, openSymbols (body :: inner)⟩ .unexpectedSymbol
            "an operator")) := by
  rw [openSymbols_cons]
  -- behind the body comes the next open loop, or the end
  have hstop : ∃ d, (expression ⟨position + 1 + (Program.symbols body).length,
      openSymbols inner⟩).Refuses d := by
    match inner with
    | [] => exact expression_refuses_of_endOfInput rfl
    | next :: deeper =>
      obtain ⟨_, -, -, hnext⟩ := exists_refuses_open (hinner next (by simp))
        (fun b hb => hinner b (List.mem_cons_of_mem _ hb))
        (position + 1 + (Program.symbols body).length)
      exact ⟨_, hnext⟩
  obtain ⟨noLoop, hloop, hcauses, hcode⟩ := exists_loop_refuses
    (c := ⟨position, .leftBracket :: (Program.symbols body ++ openSymbols inner)⟩) rfl hbody
    ⟨rfl, rfl⟩ hstop (symbol_openSymbols_ne inner _)
  exact ⟨noLoop, hcauses, hcode,
    expression_refuses_iff.mpr ⟨_, _, hloop, operator_refuses_iff.mpr ⟨rfl, rfl⟩, rfl⟩⟩

/-- Only why there is no loop can tell of a missing right bracket. -/
theorem hasCode_missingRightBracket {c : Cursor} {noLoop : Diagnosis}
    (hcauses : noLoop.causes = []) :
    (trailing c (noAlternative c noLoop
      (unexpected c .unexpectedSymbol "an operator"))).toFailure.hasCode Code.missingRightBracket =
        (noLoop.code == Code.missingRightBracket) := by
  have htrailing : (Code.trailingInput == Code.missingRightBracket) = false := by decide
  have halternative : (Code.noViableAlternative == Code.missingRightBracket) = false := by decide
  have hsymbol : (Code.unexpectedSymbol == Code.missingRightBracket) = false := by decide
  simp [trailing, noAlternative, unexpected, Diagnosis.join, Diagnosis.new, Diagnosis.toFailure,
    Failure.hasCode, Failure.anyHasCode, hcauses, htrailing, halternative, hsymbol]

/-- **Parsing stops at the outermost open loop**, and tells of a missing right bracket iff there is
an expression in front of the next one. -/
theorem exists_parse_opens {symbols : List Symbol} {outer body : Program} {inner : List Program}
    (h : Opens symbols outer (body :: inner)) :
    ∃ d, parse symbols = .error d ∧
      d.toFailure.hasCode Code.missingRightBracket = !body.isEmpty := by
  obtain ⟨rfl, houter, hinner⟩ := h
  obtain ⟨noLoop, hcauses, hcode, hrefuses⟩ := exists_refuses_open (hinner body (by simp))
    (fun b hb => hinner b (List.mem_cons_of_mem _ hb)) (Program.symbols outer).length
  generalize hc : Cursor.mk (Program.symbols outer).length (openSymbols (body :: inner)) = c
    at hrefuses
  have hspan : (Cursor.start (Program.symbols outer ++ openSymbols (body :: inner))).Spans
      (Program.symbols outer) c := by
    rw [← hc]
    exact ⟨rfl, (Nat.zero_add _).symm⟩
  have hnotEnd : c.symbol ≠ .endOfInput := by
    rw [← hc]
    simp [openSymbols, Cursor.symbol]
  have hparse : parse (Program.symbols outer ++ openSymbols (body :: inner)) =
      .error (trailing c (noAlternative c noLoop
        (unexpected c .unexpectedSymbol "an operator"))) := by
    rw [parse, parseFrom_of_spans houter hspan, parseFrom_of_refuses hrefuses, if_neg hnotEnd]
    rfl
  refine ⟨_, hparse, (hasCode_missingRightBracket hcauses).trans ?_⟩
  rw [hcode]
  cases body.isEmpty <;> decide

end Grammar

/-! ## Where the open loops are -/

namespace Opens

variable {symbols : List Symbol} {outer body : Program} {inner : List Program}

/-- The outermost open loop is the first bracket that is never closed. -/
theorem first_unclosed (h : Opens symbols outer (body :: inner)) :
    Unclosed symbols (Program.symbols outer).length ∧
      ∀ i < (Program.symbols outer).length, ¬ Unclosed symbols i := by
  obtain ⟨rfl, houter, hinner⟩ := h
  constructor
  · have hnested := nested_openSymbols fun b hb => hinner b (List.mem_cons_of_mem body hb)
    rw [openSymbols_cons]
    exact unclosed_of_nested _
      ((Program.balanced_symbols (hinner body (by simp))).nested_append hnested)
  · intro i hi
    simpa using not_unclosed_of_lt [] (openSymbols (body :: inner)) houter hi

/-- The next open loop follows at once iff nothing stands between the two. -/
theorem unclosed_succ_iff (h : Opens symbols outer (body :: inner)) :
    Unclosed symbols ((Program.symbols outer).length + 1) ↔ body = [] ∧ inner ≠ [] := by
  obtain ⟨rfl, -, hinner⟩ := h
  have hfront : Program.symbols outer ++ openSymbols (body :: inner) =
      (Program.symbols outer ++ [Symbol.leftBracket]) ++ Program.symbols body ++
        openSymbols inner := by
    simp [openSymbols_cons]
  have hlength : (Program.symbols outer).length + 1 =
      (Program.symbols outer ++ [Symbol.leftBracket]).length := by simp
  rw [hfront, hlength]
  cases body with
  | cons e rest =>
    have hpos := Program.length_symbols_pos (List.cons_ne_nil e rest)
    have hclosed := not_unclosed_of_lt (Program.symbols outer ++ [Symbol.leftBracket])
      (openSymbols inner) (hinner (e :: rest) (by simp)) hpos
    simpa only [Nat.add_zero, reduceCtorEq, false_and, iff_false] using hclosed
  | nil =>
    cases inner with
    | nil => simp [Unclosed, Program.symbols, openSymbols]
    | cons next deeper =>
      have hnested := nested_openSymbols fun b hb =>
        hinner b (List.mem_cons_of_mem [] (List.mem_cons_of_mem next hb))
      have hopen := unclosed_of_nested (Program.symbols outer ++ [Symbol.leftBracket])
        ((Program.balanced_symbols (hinner next (by simp))).nested_append hnested)
      simpa [openSymbols_cons, Program.symbols] using hopen

end Opens

namespace Grammar

/-- **When an open loop is told as a missing right bracket.** Commands that leave a loop open are
not parsed. The failure tells of a missing right bracket iff the first left bracket that is never
closed is not directly followed by another one. -/
theorem missing_bracket_told_iff {symbols : List Symbol} (h : LeavesOpen symbols) :
    ∃ d i, parse symbols = .error d ∧
      Unclosed symbols i ∧ (∀ j < i, ¬ Unclosed symbols j) ∧
      (d.toFailure.hasCode Code.missingRightBracket = true ↔ ¬ Unclosed symbols (i + 1)) := by
  obtain ⟨outer, inner, hopens⟩ := exists_opens h.commands (nested_of_closing h.closing) (by
    intro i hi hright
    obtain ⟨s, hs, hne⟩ := h.followed i hi
    exact hne (Option.some.inj (hs.symm.trans hright)))
  cases inner with
  | nil =>
    -- all brackets of a program are closed
    obtain ⟨i, hi⟩ := h.opening
    obtain rfl : symbols = Program.symbols outer := by simpa [openSymbols] using hopens.symbols_eq
    have hlt := (List.getElem?_eq_some_iff.mp hi.1).1
    have hclosed := not_unclosed_of_lt [] [] hopens.outer_wellFormed hlt
    exact absurd hi (by simpa using hclosed)
  | cons body inner =>
    obtain ⟨d, hparse, hcode⟩ := exists_parse_opens hopens
    obtain ⟨hfirst, hbefore⟩ := hopens.first_unclosed
    refine ⟨d, _, hparse, hfirst, hbefore, ?_⟩
    rw [hcode, hopens.unclosed_succ_iff]
    -- the last symbol is no left bracket
    obtain ⟨s, hs, -⟩ := h.followed _ hfirst.1
    have hmore : body = [] → inner ≠ [] := by
      rintro rfl rfl
      simp [hopens.symbols_eq, openSymbols, Program.symbols] at hs
    cases body with
    | nil => simpa using hmore
    | cons e rest => simp

/-- A closed loop in an open one. -/
theorem missing_bracket_told_iff_closed_inside :
    LeavesOpen [.incrementValue, .leftBracket, .incrementValue, .leftBracket, .decrementValue,
      .rightBracket] ∧
    ∃ d, parse [.incrementValue, .leftBracket, .incrementValue, .leftBracket, .decrementValue,
        .rightBracket] = .error d ∧
      d.toFailure.hasCode Code.missingRightBracket = true := by
  have hopens : Opens [.incrementValue, .leftBracket, .incrementValue, .leftBracket,
      .decrementValue, .rightBracket] [.operator .incrementValue]
      [[.operator .incrementValue, .loop [.operator .decrementValue]]] := ⟨rfl, rfl, by decide⟩
  have hleaves : LeavesOpen [.incrementValue, .leftBracket, .incrementValue, .leftBracket,
      .decrementValue, .rightBracket] := by
    have hopening := hopens.first_unclosed.1
    refine ⟨by simp [Symbol.spelling?], fun j hj => ?_, ⟨_, hopening⟩, fun i hi => ?_⟩
    · rcases j with _ | _ | _ | _ | _ | _ | j <;> simp at hj
      exact ⟨3, [.incrementValue, .leftBracket, .incrementValue], [.decrementValue], [], rfl,
        balanced_operator rfl, rfl, rfl⟩
    · rcases i with _ | _ | _ | _ | _ | _ | i <;> simp at hi ⊢
  obtain ⟨d, i, hparse, hi, hfirst, hcode⟩ := missing_bracket_told_iff hleaves
  obtain ⟨hone, hbefore⟩ := hopens.first_unclosed
  obtain rfl : i = 1 := by
    rcases Nat.lt_trichotomy i 1 with hlt | heq | hgt
    · exact absurd hi (hbefore i hlt)
    · exact heq
    · exact absurd hone (hfirst 1 hgt)
  refine ⟨hleaves, d, hparse, hcode.mpr fun hnext => ?_⟩
  simpa using hnext.1

/-- **An open loop is not always told as a missing right bracket**: not if another one follows its
left bracket at once. -/
theorem open_loop_untold :
    LeavesOpen [.leftBracket, .leftBracket, .incrementValue] ∧
      ∃ d, parse [.leftBracket, .leftBracket, .incrementValue] = .error d ∧
        d.toFailure.hasCode Code.missingRightBracket = false := by
  have hopens : Opens [.leftBracket, .leftBracket, .incrementValue] []
      [[], [.operator .incrementValue]] := ⟨rfl, rfl, by decide⟩
  have hopening := hopens.first_unclosed.1
  refine ⟨⟨by simp [Symbol.spelling?], fun j hj => ?_, ⟨_, hopening⟩, fun i hi => ?_⟩,
    exists_parse_opens hopens⟩
  · rcases j with _ | _ | _ | j <;> simp at hj
  · rcases i with _ | _ | _ | i <;> simp at hi ⊢

end Grammar

end Bracket
