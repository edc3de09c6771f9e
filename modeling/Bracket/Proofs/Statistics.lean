import Bracket.Proofs.Grammar.Brackets
import Bracket.Proofs.Grammar.Recognition
import Bracket.Proofs.Visits
import Mathlib.Order.Bounds.Basic
import Mathlib.Order.MinMax

/-!
# Statistics and the source

The statistics of a program are gathered on a walk through its tree. They can be read off the
symbols just as well: the plain instructions and the brackets are counted, and the depth of the
deepest expression is one more than the largest excess of left brackets at any place. Between the
two stands the height of the tree, which a walk finds (`Program.foldl_add_visitsFrom`). It shows in
the brackets because no loop of a parsed program is empty (`Program.isGreatest_height`): an empty
loop would raise the excess and hold no expression.
-/

namespace Bracket

/-! ## The largest excess -/

/-- The excess of every beginning of a sequence. -/
def excesses (symbols : List Symbol) : Set Int :=
  {n | ∃ front, front <+: symbols ∧ excess front = n}

theorem excess_mem_excesses {front symbols : List Symbol} (h : front <+: symbols) :
    excess front ∈ excesses symbols := ⟨front, h, rfl⟩

/-- Two sequences in a row reach the height of the first, or that of the second on top of what the
first has left open. -/
theorem isGreatest_excesses_append {xs ys : List Symbol} {m n : Int}
    (hxs : IsGreatest (excesses xs) m) (hys : IsGreatest (excesses ys) n) :
    IsGreatest (excesses (xs ++ ys)) (max m (excess xs + n)) := by
  obtain ⟨⟨front, hfront, rfl⟩, hxs⟩ := hxs
  obtain ⟨⟨more, hmore, rfl⟩, hys⟩ := hys
  -- the greatest value is taken in front of the seam or behind it
  constructor
  · rcases max_choice (excess front) (excess xs + excess more) with heq | heq
    · rw [heq]
      exact excess_mem_excesses (hfront.trans (List.prefix_append xs ys))
    · rw [heq, ← excess_append]
      exact excess_mem_excesses ((List.prefix_append_right_inj xs).mpr hmore)
  · rintro _ ⟨zs, hzs, rfl⟩
    rcases prefix_append_split hzs with hzs | ⟨rest, hrest, rfl⟩
    · exact le_max_of_le_left (hxs (excess_mem_excesses hzs))
    · rw [excess_append]
      exact le_max_of_le_right (Int.add_le_add_left (hys (excess_mem_excesses hrest)) _)

/-- The excess of a single symbol is greatest in front of it or behind it. -/
theorem isGreatest_excesses_singleton (s : Symbol) :
    IsGreatest (excesses [s]) (max 0 (excess [s])) := by
  constructor
  · rcases max_choice 0 (excess [s]) with heq | heq
    · rw [heq]
      exact excess_mem_excesses List.nil_prefix
    · rw [heq]
      exact excess_mem_excesses List.prefix_rfl
  · rintro _ ⟨front, hfront, rfl⟩
    rcases List.prefix_cons_iff.mp hfront with rfl | ⟨more, rfl, hmore⟩
    · exact le_max_left _ _
    · rw [List.prefix_nil.mp hmore]
      exact le_max_right _ _

/-- A pair of brackets raises a sequence by one. -/
theorem isGreatest_excesses_loop {xs : List Symbol} {m : Int} (hxs : Balanced xs)
    (h : IsGreatest (excesses xs) m) :
    IsGreatest (excesses (.leftBracket :: (xs ++ [.rightBracket]))) (1 + m) := by
  have hge : 0 ≤ m := h.2 (excess_mem_excesses List.nil_prefix)
  have hloop := isGreatest_excesses_append (isGreatest_excesses_singleton .leftBracket)
    (isGreatest_excesses_append h (isGreatest_excesses_singleton .rightBracket))
  have heq : max (max 0 (excess [.leftBracket]))
      (excess [.leftBracket] + max m (excess xs + max 0 (excess [.rightBracket]))) = 1 + m := by
    simp only [excess_leftBracket_cons, excess_rightBracket_cons, excess_nil, hxs.excess_eq_zero]
    omega
  exact heq ▸ hloop

/-! ## The height of a tree -/

mutual

/-- The number of expressions on the longest way down a tree. -/
def Expression.height : Expression → Nat
  | .operator _ => 1
  | .loop body => Program.height body + 1

/-- The height of the highest expression of a program. -/
def Program.height : List Expression → Nat
  | [] => 0
  | e :: rest => max e.height (Program.height rest)

end

mutual

/-- **An expression is as high as its brackets are deep.** -/
theorem Expression.isGreatest_height {e : Expression} (h : e.isWellFormed = true) :
    IsGreatest (excesses e.symbols) (e.height - 1 : Int) := by
  match e with
  | .operator s =>
    obtain ⟨hleft, hright⟩ := Symbol.ne_brackets_of_isOperator (s := s) h
    have hs := isGreatest_excesses_singleton s
    rwa [excess_cons_of_ne hleft hright] at hs
  | .loop body =>
    simp only [Expression.isWellFormed, Bool.and_eq_true, Bool.not_eq_true',
      List.isEmpty_eq_false_iff] at h
    -- the bracket in front lifts the body by one, and the height counts it
    have hbody := isGreatest_excesses_loop (Program.balanced_symbols h.2)
      (Program.isGreatest_height h.2 h.1)
    have heq : 1 + ((Program.height body : Int) - 1) = (Expression.loop body).height - 1 := by
      rw [Expression.height]
      omega
    exact heq ▸ hbody

/-- **The height of a program is one more than the largest excess of its symbols.** -/
theorem Program.isGreatest_height {es : List Expression} (h : Program.isWellFormed es = true)
    (hne : es ≠ []) : IsGreatest (excesses (Program.symbols es)) (Program.height es - 1 : Int) := by
  match es with
  | e :: rest =>
    simp only [Program.isWellFormed, Bool.and_eq_true] at h
    have he := Expression.isGreatest_height h.1
    by_cases hrest : rest = []
    · subst hrest
      simpa [Program.symbols, Program.height] using he
    · have happend := isGreatest_excesses_append he (Program.isGreatest_height h.2 hrest)
      -- expressions are balanced, so the next one starts where this one started
      have heq : max ((e.height : Int) - 1) (excess e.symbols + (Program.height rest - 1)) =
          Program.height (e :: rest) - 1 := by
        rw [(Expression.balanced_symbols h.1).excess_eq_zero, Program.height]
        omega
      exact heq ▸ happend

end

/-! ## Gathering on a walk -/

/-- A visit is counted once, as an instruction or as a loop. -/
theorem Stats.add_operators_loops (stats : Stats) (visit : Nat × Expression) :
    (stats.add visit).operators + (stats.add visit).loops = stats.operators + stats.loops + 1 := by
  obtain ⟨depth, _ | _⟩ := visit
  · exact Nat.add_right_comm ..
  · rfl

/-- Every visit counts as an operator or as a loop. -/
theorem Stats.foldl_add_operators_loops (visits : List (Nat × Expression)) (stats : Stats) :
    (visits.foldl Stats.add stats).operators + (visits.foldl Stats.add stats).loops =
      stats.operators + stats.loops + visits.length := by
  induction visits generalizing stats with
  | nil => rfl
  | cons visit visits ih =>
    rw [List.foldl_cons, ih, Stats.add_operators_loops, List.length_cons]
    omega

/-- A walk makes as many visits as there are instructions and loops. -/
theorem Program.length_visits (program : Program) :
    program.visits.length = program.stats.operators + program.stats.loops := by
  rw [Program.stats, Stats.foldl_add_operators_loops, Nat.zero_add, Nat.zero_add]

/-- The number of symbols that are no brackets. -/
def plainCount (symbols : List Symbol) : Nat :=
  symbols.countP fun s => s ≠ .leftBracket ∧ s ≠ .rightBracket

/-- The statistics after a walk through expressions which have these symbols and end at the given
depth. -/
def Stats.gather (stats : Stats) (symbols : List Symbol) (depth : Nat) : Stats where
  operators := stats.operators + plainCount symbols
  loops := stats.loops + symbols.count .leftBracket
  maxDepth := max stats.maxDepth depth

theorem Stats.gather_nil {stats : Stats} {depth : Nat} (h : depth ≤ stats.maxDepth) :
    stats.gather [] depth = stats := by
  simp [Stats.gather, plainCount, Nat.max_eq_left h]

/-- Statistics of two sequences in a row can be gathered one after the other. -/
theorem Stats.gather_append (stats : Stats) (xs ys : List Symbol) (m n : Nat) :
    (stats.gather xs m).gather ys n = stats.gather (xs ++ ys) (max m n) := by
  simp [Stats.gather, plainCount, Nat.add_assoc, Nat.max_assoc]

/-- A right bracket adds nothing. -/
theorem Stats.gather_rightBracket (stats : Stats) (xs : List Symbol) (depth : Nat) :
    stats.gather (xs ++ [.rightBracket]) depth = stats.gather xs depth := by
  simp [Stats.gather, plainCount]

mutual

/-- The visits of an expression count its symbols and reach down to its height. -/
theorem Expression.foldl_add_visits {e : Expression} (h : e.isWellFormed = true) (depth : Nat)
    (stats : Stats) :
    (e.visits (depth + 1)).foldl Stats.add stats = stats.gather e.symbols (depth + e.height) := by
  match e with
  | .operator s =>
    obtain ⟨hleft, hright⟩ := Symbol.ne_brackets_of_isOperator (s := s) h
    simp [Expression.visits, Expression.symbols, Expression.height, Stats.gather, plainCount,
      Stats.add, hleft, hright]
  | .loop body =>
    simp only [Expression.isWellFormed, Bool.and_eq_true] at h
    have hvisit : stats.add (depth + 1, .loop body) = stats.gather [.leftBracket] (depth + 1) := rfl
    calc ((Expression.loop body).visits (depth + 1)).foldl Stats.add stats
        = (stats.gather [.leftBracket] (depth + 1)).gather (Program.symbols body)
            (depth + 1 + Program.height body) := by
          rw [Expression.visits, List.foldl_cons, hvisit]
          exact Program.foldl_add_visitsFrom h.2 _ _ (Nat.le_max_right ..)
      _ = stats.gather (.leftBracket :: Program.symbols body)
            (depth + (Program.height body + 1)) := by
          rw [Stats.gather_append, List.singleton_append]
          congr 1
          omega
      _ = stats.gather (Expression.loop body).symbols (depth + (Expression.loop body).height) :=
          (Stats.gather_rightBracket ..).symm

/-- **A walk gathers the numbers of instructions and of loops and the height of the tree.** -/
theorem Program.foldl_add_visitsFrom {es : List Expression} (h : Program.isWellFormed es = true)
    (depth : Nat) (stats : Stats) (hdepth : depth ≤ stats.maxDepth) :
    (Program.visitsFrom (depth + 1) es).foldl Stats.add stats =
      stats.gather (Program.symbols es) (depth + Program.height es) := by
  match es with
  | [] => exact (Stats.gather_nil hdepth).symm
  | e :: rest =>
    simp only [Program.isWellFormed, Bool.and_eq_true] at h
    rw [Program.visitsFrom, List.foldl_append, Expression.foldl_add_visits h.1,
      Program.foldl_add_visitsFrom h.2 _ _ (le_max_of_le_left hdepth), Stats.gather_append,
      Nat.add_max_add_left]
    rfl

end

/-- **The statistics of a program can be read off its symbols.** -/
theorem Program.stats_eq {program : Program} (h : Program.isWellFormed program = true) :
    program.stats = ⟨plainCount (Program.symbols program),
      (Program.symbols program).count .leftBracket, Program.height program⟩ := by
  rw [Program.stats, Program.visits, Program.foldl_add_visitsFrom h 0 ⟨0, 0, 0⟩ (Nat.le_refl 0)]
  simp [Stats.gather]

/-! ## Statistics of a parsed program -/

/-- A balanced sequence has as many left brackets as right ones. -/
theorem Balanced.count_eq {xs : List Symbol} (h : Balanced xs) :
    xs.count .leftBracket = xs.count .rightBracket := by
  have hzero := h.excess_eq_zero
  rw [excess] at hzero
  omega

theorem Program.symbols_eq_nil_iff {program : Program} :
    Program.symbols program = [] ↔ program = [] := by
  cases program with
  | nil => simp [Program.symbols]
  | cons e rest => cases e <;> simp [Program.symbols, Expression.symbols]

namespace Grammar

/-- **The statistics of a parsed program are those of its source.** The symbols `beforeEnd symbols`
of the source hold as many plain symbols as there are instructions and as many left and right
brackets as there are loops; the depth is 0 without symbols, and else one more than the largest
excess of any beginning. A walk visits as many expressions as were counted, in the order of their
addresses, which is the order of the source. -/
theorem stats_agree_with_source {symbols : List Symbol} {program : Program}
    (h : parse symbols = .ok program) :
    program.stats.operators = plainCount (beforeEnd symbols) ∧
    program.stats.loops = (beforeEnd symbols).count .leftBracket ∧
    program.stats.loops = (beforeEnd symbols).count .rightBracket ∧
    (beforeEnd symbols = [] → program.stats.maxDepth = 0) ∧
    (beforeEnd symbols ≠ [] → ∃ largest, IsGreatest (excesses (beforeEnd symbols)) largest ∧
      (program.stats.maxDepth : Int) = 1 + largest) ∧
    program.visits.length = program.stats.operators + program.stats.loops ∧
    Program.symbols program = beforeEnd symbols ∧
    ∃ addresses, WalksInOrder program program.visits addresses := by
  obtain ⟨hwf, hsymbols⟩ := parse_eq_ok_iff.mp h
  have hstats := Program.stats_eq hwf
  have hbalanced := Program.balanced_symbols hwf
  -- the symbols of the program are those before the end of input
  rw [hsymbols] at hstats hbalanced
  refine ⟨by rw [hstats], by rw [hstats], by rw [hstats, hbalanced.count_eq], fun hnil => ?_,
    fun hne => ?_, program.length_visits, hsymbols, _, Program.walksInOrder_visits program⟩
  · rw [hstats, Program.symbols_eq_nil_iff.mp (hsymbols.trans hnil)]
    rfl
  · have hprogram : program ≠ [] := fun hnil =>
      hne (hsymbols.symm.trans (Program.symbols_eq_nil_iff.mpr hnil))
    refine ⟨_, hsymbols ▸ Program.isGreatest_height hwf hprogram, ?_⟩
    rw [hstats]
    show (Program.height program : Int) = 1 + (Program.height program - 1)
    omega

/-- A loop in a loop: four instructions and two loops, three deep, where two brackets are open at
most. What stands behind the end of input is not counted. -/
theorem stats_agree_with_source_nested :
    ∃ program, parse [.incrementValue, .leftBracket, .decrementValue, .leftBracket, .output,
        .rightBracket, .input, .rightBracket, .endOfInput, .leftBracket] = .ok program ∧
      program.stats = ⟨4, 2, 3⟩ ∧ program.visits.length = 6 ∧
      IsGreatest (excesses [.incrementValue, .leftBracket, .decrementValue, .leftBracket, .output,
        .rightBracket, .input, .rightBracket]) 2 ∧
      ∃ addresses, WalksInOrder program program.visits addresses := by
  let program : Program := [.operator .incrementValue,
    .loop [.operator .decrementValue, .loop [.operator .output], .operator .input]]
  have hparse : parse [.incrementValue, .leftBracket, .decrementValue, .leftBracket, .output,
      .rightBracket, .input, .rightBracket, .endOfInput, .leftBracket] = .ok program :=
    parse_eq_ok_iff.mpr ⟨rfl, rfl⟩
  obtain ⟨-, -, -, -, hdepth, hlength, -, hwalk⟩ := stats_agree_with_source hparse
  obtain ⟨largest, hlargest, heq⟩ := hdepth (by decide)
  have htwo : largest = 2 := by
    have hthree : program.stats.maxDepth = 3 := rfl
    omega
  exact ⟨program, hparse, rfl, hlength, htwo ▸ hlargest, hwalk⟩

end Grammar

end Bracket
