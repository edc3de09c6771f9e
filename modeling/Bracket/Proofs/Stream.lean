import Bracket.FiniteStream.Lookahead

/-!
# What a stream delivers

`FiniteStream.Delivers S s xs` says that the calls from the state `s` are answered with the values
`xs` in order, and then with nothing for ever. One step of it (`delivers_iff`) has no case
distinction: the answer is `xs.head?`, and the next state delivers `xs.tail`.

A window over a stream keeps the values it shows in its slots, so `Lookahead.Shows` relates a window
to the values which the caller has not seen yet, whether the slots are filled or not. Moving the
window (`Shows.next`) is then a step of the list, and peeking into a filled one (`Filled.peek`) shows
the list and changes nothing.
-/

namespace Bracket

namespace FiniteStream

variable {σ α : Type}

/-- The calls from `s` are answered with `xs` in order, and then with nothing for ever. -/
def Delivers (S : FiniteStream σ α) (s : σ) (xs : List α) : Prop :=
  ∀ n, (S.calls n s).1 = (List.range n).map (xs[·]?)

/-- The slots of `xs` one place further. -/
theorem range_succ_map_getElem? (n : Nat) (xs : List α) :
    (List.range (n + 1)).map (xs[·]?) = xs.head? :: (List.range n).map (xs.tail[·]?) := by
  rw [List.range_succ_eq_map, List.map_cons, List.map_map, ← List.head?_eq_getElem?]
  congr 1
  refine List.map_congr_left fun i _ => ?_
  rw [Function.comp_apply, List.getElem?_tail]

/-- One call of a stream that delivers `xs`. -/
theorem delivers_iff {S : FiniteStream σ α} {s : σ} {xs : List α} :
    S.Delivers s xs ↔ (S.next s).1 = xs.head? ∧ S.Delivers (S.next s).2 xs.tail := by
  constructor
  · intro h
    have hstep : ∀ n, (S.next s).1 = xs.head? ∧
        (S.calls n (S.next s).2).1 = (List.range n).map (xs.tail[·]?) := by
      intro n
      have hn := h (n + 1)
      rw [range_succ_map_getElem?] at hn
      exact List.cons.inj hn
    exact ⟨(hstep 0).1, fun n => (hstep n).2⟩
  · rintro ⟨hhead, htail⟩ n
    cases n with
    | zero => rfl
    | succ n =>
      rw [range_succ_map_getElem?, ← hhead, ← htail n]
      rfl

/-- A relation that every call preserves says what is delivered. -/
theorem Delivers.of_invariant {S : FiniteStream σ α} {R : σ → List α → Prop}
    (step : ∀ s xs, R s xs → (S.next s).1 = xs.head? ∧ R (S.next s).2 xs.tail)
    {s : σ} {xs : List α} (h : R s xs) : S.Delivers s xs := by
  intro n
  induction n generalizing s xs with
  | zero => rfl
  | succ n ih =>
    obtain ⟨hhead, htail⟩ := step s xs h
    rw [range_succ_map_getElem?, ← hhead, ← ih htail]
    rfl

/-- What is delivered after some calls. -/
theorem Delivers.after_calls {S : FiniteStream σ α} {s : σ} {xs : List α} (h : S.Delivers s xs)
    (n : Nat) : S.Delivers (S.calls n s).2 (xs.drop n) := by
  induction n generalizing s xs with
  | zero => exact h
  | succ n ih =>
    rw [← List.drop_tail]
    exact ih (delivers_iff.mp h).2

end FiniteStream

/-! ## Windows -/

namespace Lookahead

variable {σ α : Type}

/-- The slots are filled with the first of `current`, the current value and those after it, and the
stream delivers the others. -/
def Filled (S : FiniteStream σ α) (window : Nat) (l : Lookahead σ α) (current : List α) : Prop :=
  l.slots = some ((List.range (window + 1)).map (current[·]?)) ∧
    S.Delivers l.inner (current.drop (window + 1))

/-- The values that the window still has to deliver are `xs`. -/
def Shows (S : FiniteStream σ α) (window : Nat) (l : Lookahead σ α) (xs : List α) : Prop :=
  (l.slots = none ∧ S.Delivers l.inner xs) ∨ ∃ current, xs = current.tail ∧ l.Filled S window current

variable {S : FiniteStream σ α} {window : Nat} {l : Lookahead σ α} {xs : List α}

theorem shows_start {inner : σ} (h : S.Delivers inner xs) : (start inner).Shows S window xs :=
  .inl ⟨rfl, h⟩

/-- A window that has been filled shows what comes behind its first value. -/
theorem Filled.shows (h : l.Filled S window xs) : l.Shows S window xs.tail := .inr ⟨xs, rfl, h⟩

private theorem slot_zero (xs : List α) :
    slot ((List.range (window + 1)).map (xs[·]?)) 0 = xs.head? := by
  rw [FiniteStream.range_succ_map_getElem?]
  rfl

/-- **Moving a window is a step of the list that it shows.** The moved window is filled. -/
theorem Shows.next (h : l.Shows S window xs) :
    (l.next S window).1 = xs.head? ∧ (l.next S window).2.Filled S window xs := by
  rcases h with ⟨hnone, hin⟩ | ⟨current, rfl, hsome, hin⟩
  · -- the first use fills the slots and shows the first of them
    simp only [Lookahead.next, fill, hnone, hin (window + 1)]
    exact ⟨slot_zero xs, rfl, hin.after_calls (window + 1)⟩
  · obtain ⟨hhead, htail⟩ := FiniteStream.delivers_iff.mp hin
    have hmoved : ((List.range (window + 1)).map (current[·]?)).tail ++ [(S.next l.inner).1] =
        (List.range (window + 1)).map (current.tail[·]?) := by
      rw [FiniteStream.range_succ_map_getElem?, List.tail_cons, hhead, List.range_succ,
        List.map_append, List.map_singleton, List.head?_drop, List.getElem?_tail]
    simp only [Lookahead.next, hsome, hmoved]
    refine ⟨slot_zero current.tail, rfl, ?_⟩
    rw [List.drop_tail, ← List.tail_drop]
    exact htail

/-- Peeking into a filled window shows the list that it is filled with and changes nothing. -/
theorem Filled.peek (h : l.Filled S window xs) (n : Nat) :
    l.peek S window n = (if window < n then none else xs[n]?, l) := by
  simp only [Lookahead.peek, fill, h.1]
  refine Prod.ext ?_ rfl
  split
  · rfl
  · next hn => simp [slot, List.getElem?_range (show n < window + 1 by omega)]

end Lookahead

end Bracket
