import Bracket.Program

/-!
# Brackets in a sequence of symbols

The excess of a sequence counts its left brackets and takes off the right ones. A sequence in which
no beginning has a negative excess is nested: every right bracket has a left one in front of it. If
no bracket is left over either, it is balanced. The symbols of a well-formed program are balanced
(`Program.balanced_symbols`), since a loop puts a pair of brackets around a balanced sequence.
-/

namespace Bracket

/-- The number of left brackets less the number of right brackets. -/
def excess (symbols : List Symbol) : Int :=
  symbols.count .leftBracket - symbols.count .rightBracket

@[simp] theorem excess_nil : excess [] = 0 := rfl

/-- The excess of two sequences in a row is the sum of both. -/
@[simp] theorem excess_append (xs ys : List Symbol) :
    excess (xs ++ ys) = excess xs + excess ys := by
  simp only [excess, List.count_append, Int.natCast_add]
  omega

@[simp] theorem excess_leftBracket_cons (xs : List Symbol) :
    excess (.leftBracket :: xs) = excess xs + 1 := by
  simp [excess]
  omega

@[simp] theorem excess_rightBracket_cons (xs : List Symbol) :
    excess (.rightBracket :: xs) = excess xs - 1 := by
  simp [excess]
  omega

/-- A symbol that is no bracket changes nothing. -/
theorem excess_cons_of_ne {s : Symbol} (hleft : s ≠ .leftBracket) (hright : s ≠ .rightBracket)
    (xs : List Symbol) : excess (s :: xs) = excess xs := by
  simp [excess, hleft, hright]

/-- An operator is no bracket. -/
theorem Symbol.ne_brackets_of_isOperator {s : Symbol} (h : s.isOperator = true) :
    s ≠ .leftBracket ∧ s ≠ .rightBracket := by
  cases s <;> simp_all [Symbol.isOperator]

/-- A beginning of two sequences in a row ends in the first one or in the second one. -/
theorem prefix_append_split {xs ys zs : List Symbol} (h : zs <+: xs ++ ys) :
    zs <+: xs ∨ ∃ more, more <+: ys ∧ zs = xs ++ more := by
  rcases List.prefix_or_prefix_of_prefix h (List.prefix_append xs ys) with hzs | ⟨more, rfl⟩
  · exact .inl hzs
  · exact .inr ⟨more, (List.prefix_append_right_inj xs).mp h, rfl⟩

/-! ## Nested and balanced sequences -/

/-- No beginning of the sequence has more right brackets than left ones. -/
def Nested (symbols : List Symbol) : Prop := ∀ front, front <+: symbols → 0 ≤ excess front

/-- Every bracket of the sequence has its partner in it. -/
structure Balanced (symbols : List Symbol) : Prop where
  nested : Nested symbols
  excess_eq_zero : excess symbols = 0

/-- A beginning of a nested sequence is nested. -/
theorem Nested.front {xs ys : List Symbol} (h : Nested (xs ++ ys)) : Nested xs :=
  fun front hfront => h front (hfront.trans (List.prefix_append xs ys))

theorem Nested.leftBracket_cons {xs : List Symbol} (h : Nested xs) :
    Nested (.leftBracket :: xs) := by
  intro front hfront
  rcases List.prefix_cons_iff.mp hfront with rfl | ⟨more, rfl, hmore⟩
  · simp
  · have hge := h more hmore
    rw [excess_leftBracket_cons]
    omega

theorem balanced_nil : Balanced [] where
  nested := fun front hfront => by simp [List.prefix_nil.mp hfront]
  excess_eq_zero := rfl

/-- An operator is balanced by itself. -/
theorem balanced_operator {s : Symbol} (h : s.isOperator = true) : Balanced [s] where
  nested := by
    obtain ⟨hleft, hright⟩ := Symbol.ne_brackets_of_isOperator h
    intro front hfront
    rcases List.prefix_cons_iff.mp hfront with rfl | ⟨more, rfl, hmore⟩
    · simp
    · simp [excess_cons_of_ne hleft hright, List.prefix_nil.mp hmore]
  excess_eq_zero := by
    obtain ⟨hleft, hright⟩ := Symbol.ne_brackets_of_isOperator h
    simp [excess_cons_of_ne hleft hright]

/-- What is nested behind a balanced sequence is nested with it. -/
theorem Balanced.nested_append {xs ys : List Symbol} (hxs : Balanced xs) (hys : Nested ys) :
    Nested (xs ++ ys) := by
  intro front hfront
  rcases prefix_append_split hfront with hfront | ⟨more, hmore, rfl⟩
  · exact hxs.nested front hfront
  · rw [excess_append, hxs.excess_eq_zero, Int.zero_add]
    exact hys more hmore

theorem Balanced.append {xs ys : List Symbol} (hxs : Balanced xs) (hys : Balanced ys) :
    Balanced (xs ++ ys) where
  nested := hxs.nested_append hys.nested
  excess_eq_zero := by rw [excess_append, hxs.excess_eq_zero, hys.excess_eq_zero, Int.add_zero]

/-- A pair of brackets around a balanced sequence. -/
theorem Balanced.loop {xs : List Symbol} (h : Balanced xs) :
    Balanced (.leftBracket :: (xs ++ [.rightBracket])) where
  nested := by
    intro front hfront
    rcases List.prefix_cons_iff.mp hfront with rfl | ⟨more, rfl, hmore⟩
    · simp
    -- a beginning inside of the loop is one of the body, lifted by the bracket in front
    rcases List.prefix_concat_iff.mp hmore with rfl | hmore
    · simp [h.excess_eq_zero]
    · have hge := h.nested more hmore
      rw [excess_leftBracket_cons]
      omega
  excess_eq_zero := by simp [h.excess_eq_zero]

/-! ## The symbols of a program -/

theorem Program.symbols_append (es fs : List Expression) :
    Program.symbols (es ++ fs) = Program.symbols es ++ Program.symbols fs := by
  induction es with
  | nil => rfl
  | cons e rest ih => rw [List.cons_append, Program.symbols, Program.symbols, ih, List.append_assoc]

theorem Program.isWellFormed_append {es fs : List Expression} (hes : Program.isWellFormed es = true)
    (hfs : Program.isWellFormed fs = true) : Program.isWellFormed (es ++ fs) = true := by
  induction es with
  | nil => exact hfs
  | cons e rest ih =>
    simp only [Program.isWellFormed, Bool.and_eq_true] at hes
    simp only [List.cons_append, Program.isWellFormed, Bool.and_eq_true]
    exact ⟨hes.1, ih hes.2⟩

mutual

/-- The symbols of a well-formed expression are balanced. -/
theorem Expression.balanced_symbols {e : Expression} (h : e.isWellFormed = true) :
    Balanced e.symbols := by
  match e with
  | .operator s => exact balanced_operator (by simpa [Expression.isWellFormed] using h)
  | .loop body =>
    simp only [Expression.isWellFormed, Bool.and_eq_true] at h
    exact (Program.balanced_symbols h.2).loop

/-- **The symbols of a well-formed program are balanced.** -/
theorem Program.balanced_symbols {es : List Expression} (h : Program.isWellFormed es = true) :
    Balanced (Program.symbols es) := by
  match es with
  | [] => exact balanced_nil
  | e :: rest =>
    simp only [Program.isWellFormed, Bool.and_eq_true] at h
    exact (Expression.balanced_symbols h.1).append (Program.balanced_symbols h.2)

end

end Bracket
