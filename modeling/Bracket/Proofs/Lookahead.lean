import Bracket.Proofs.Stream

/-!
# Using a window

A window is used by moving it and by peeking, in any order and any number of times. A peek into a
filled window changes nothing, so the moves of a filled window show the values behind the current
one, whatever peeks stand between them (`Filled.exists_answers`).

What is left is the first use, which fills the slots. A first move shows the first value. A first
peek makes the first value the current one although no move has shown it, so the moves begin with
the second value (`moved?_start`). Hence peeks can be left out exactly if they do not come first, or
if the moves cannot tell the values from those one place further. If they do not come first, a move
and every later peek show the value at a place that only the number of moves decides
(`exists_steps_start`).
-/

namespace Bracket

/-- A list delivers itself. -/
theorem FiniteStream.delivers_ofList {α : Type} (xs : List α) : (ofList α).Delivers xs xs := by
  refine Delivers.of_invariant (R := fun s ys => s = ys) ?_ rfl
  rintro ys _ rfl
  cases ys <;> exact ⟨rfl, rfl⟩

namespace Lookahead

variable {σ α : Type}

inductive Use where
  | next
  | peek (n : UInt8)
  deriving DecidableEq, Repr

/-- One use of a window, unless it overflows. -/
def use? (S : FiniteStream σ α) (window : UInt8) (l : Lookahead σ α) :
    Use → Option (Option α × Lookahead σ α)
  | .next => l.next? S window
  | .peek n => l.peek? S window n

/-- The answers of a sequence of uses, one for each. -/
def answers? (S : FiniteStream σ α) (window : UInt8) :
    Lookahead σ α → List Use → Option (List (Option α))
  | _, [] => some []
  | l, u :: uses =>
    (l.use? S window u).bind fun step => (step.2.answers? S window uses).map (step.1 :: ·)

/-- The answers of the moves among all answers. -/
def shown : List Use → List (Option α) → List (Option α)
  | .next :: uses, a :: answers => a :: shown uses answers
  | .peek _ :: uses, _ :: answers => shown uses answers
  | _, _ => []

/-- The answers of the moves in a sequence of uses. -/
def moved? (S : FiniteStream σ α) (window : UInt8) (l : Lookahead σ α) (uses : List Use) :
    Option (List (Option α)) :=
  (l.answers? S window uses).map (shown uses)

/-- The window is peeked into before it is moved. -/
def peeksFirst : List Use → Bool
  | .peek _ :: _ => true
  | _ => false

/-- Only the widest window overflows. -/
theorem overflows_iff {window : UInt8} : overflows window = true ↔ window = 255 := by
  rw [overflows, beq_iff_eq, ← UInt8.toNat_inj, ← UInt8.toNat_inj, UInt8.toNat_add]
  have hlt := window.toNat_lt
  have h255 : (255 : UInt8).toNat = 255 := rfl
  have h1 : (1 : UInt8).toNat = 1 := rfl
  have h0 : (0 : UInt8).toNat = 0 := rfl
  omega

/-! ## One use -/

variable {S : FiniteStream σ α} {window : UInt8} {l : Lookahead σ α} {xs : List α}

/-- Peeking into a window that was not used yet fills it. -/
theorem filled_peek_start {inner : σ} (h : S.Delivers inner xs) (window n : Nat) :
    ((start inner).peek S window n).2.Filled S window xs :=
  ⟨congrArg some (h (window + 1)), h.after_calls (window + 1)⟩

theorem use?_next (hwindow : window ≠ 255) :
    l.use? S window .next = some (l.next S window.toNat) :=
  if_neg (mt overflows_iff.mp hwindow)

theorem use?_peek (hwindow : window ≠ 255) (n : UInt8) :
    l.use? S window (.peek n) = some (l.peek S window.toNat n.toNat) :=
  if_neg (mt overflows_iff.mp hwindow)

/-! ## Sequences of uses -/

/-- The answers to several uses, one use at a time. -/
theorem answers?_cons {u : Use} {uses : List Use} {step : Option α × Lookahead σ α}
    {answers : List (Option α)} (hstep : l.use? S window u = some step)
    (hrest : step.2.answers? S window uses = some answers) :
    l.answers? S window (u :: uses) = some (step.1 :: answers) := by
  rw [answers?, hstep, Option.bind_some, hrest, Option.map_some]

/-- **Peeks do not move a filled window**: its moves show what is behind the current value. -/
theorem Filled.exists_answers (hwindow : window ≠ 255) (h : l.Filled S window.toNat xs)
    (uses : List Use) :
    ∃ answers, l.answers? S window uses = some answers ∧
      shown uses answers = (List.range (uses.count .next)).map (xs.tail[·]?) := by
  induction uses generalizing l xs with
  | nil => exact ⟨[], rfl, rfl⟩
  | cons u uses ih =>
    cases u with
    | next =>
      obtain ⟨hhead, hfilled⟩ := h.shows.next
      obtain ⟨answers, hanswers, hshown⟩ := ih hfilled
      refine ⟨_, answers?_cons (use?_next hwindow) hanswers, ?_⟩
      rw [shown, hshown, hhead, List.count_cons_self, FiniteStream.range_succ_map_getElem?]
    -- the window stays as it is
    | peek n =>
      obtain ⟨answers, hanswers, hshown⟩ := ih h
      have hstep := (use?_peek hwindow n).trans (congrArg some (h.peek n.toNat))
      refine ⟨_, answers?_cons hstep hanswers, ?_⟩
      rw [shown, hshown, List.count_cons_of_ne (by simp)]

/-- What the moves of a window show depends on how it was used first. -/
theorem moved?_start (hwindow : window ≠ 255) {inner : σ} (h : S.Delivers inner xs)
    (uses : List Use) :
    (start inner).moved? S window uses =
      some ((List.range (uses.count .next)).map
        ((if peeksFirst uses then xs.tail else xs)[·]?)) := by
  rw [moved?, Option.map_eq_some_iff]
  match uses with
  | [] => exact ⟨[], rfl, rfl⟩
  | .next :: uses =>
    obtain ⟨hhead, hfilled⟩ := (shows_start h).next
    obtain ⟨answers, hanswers, hshown⟩ := hfilled.exists_answers hwindow uses
    refine ⟨_, answers?_cons (use?_next hwindow) hanswers, ?_⟩
    rw [shown, hshown, hhead, List.count_cons_self, ← FiniteStream.range_succ_map_getElem?]
    rfl
  -- a window that is filled by a peek has its first value already, so the first move leaves it out
  | .peek n :: uses =>
    have hfilled := filled_peek_start h window.toNat n.toNat
    obtain ⟨answers, hanswers, hshown⟩ := hfilled.exists_answers hwindow uses
    refine ⟨_, answers?_cons (use?_peek hwindow n) hanswers, ?_⟩
    rw [shown, hshown, List.count_cons_of_ne (by simp)]
    rfl

/-- Without its peeks a sequence of uses has the same moves, and no peek comes first. -/
theorem peeksFirst_filter (uses : List Use) : peeksFirst (uses.filter (· = .next)) = false := by
  induction uses with
  | nil => rfl
  | cons u uses ih =>
    cases u with
    | next => rfl
    | peek n => exact ih

/-- **When peeking does not consume.** The moves of a window over a list, with all peeks left out,
show the values in order and then nothing for ever. With the peeks they show the same, except that
after a first peek they begin with the second value; so the peeks can be left out exactly if none
of them comes first or no move can tell the difference. -/
theorem moves_ignore_peeks_iff (xs : List α) {window : UInt8} (hwindow : window ≠ 255)
    (uses : List Use) :
    (start xs).moved? (.ofList α) window (uses.filter (· = .next)) =
        some ((List.range (uses.count .next)).map (xs[·]?)) ∧
      (start xs).moved? (.ofList α) window uses =
        some ((List.range (uses.count .next)).map
          ((if peeksFirst uses then xs.tail else xs)[·]?)) ∧
      ((start xs).moved? (.ofList α) window uses =
          (start xs).moved? (.ofList α) window (uses.filter (· = .next)) ↔
        (peeksFirst uses = true → ∀ i < uses.count .next, xs[i + 1]? = xs[i]?)) := by
  have hdelivers := FiniteStream.delivers_ofList xs
  have hmoves := moved?_start hwindow hdelivers uses
  have hplain := moved?_start hwindow hdelivers (uses.filter (· = .next))
  rw [peeksFirst_filter, List.count_filter (by simp)] at hplain
  refine ⟨hplain, hmoves, ?_⟩
  rw [hmoves, hplain, Option.some.injEq, List.map_inj_left]
  cases peeksFirst uses <;> simp

/-- A peek in front of the only move takes the only value away from it. -/
theorem moves_ignore_peeks_iff_first :
    (start [7]).moved? (.ofList Nat) 1 [.peek 0, .next, .peek 1] = some [none] ∧
      (start [7]).moved? (.ofList Nat) 1 [.next] = some [some 7] := by
  have hwindow : (1 : UInt8) ≠ 255 := by decide
  obtain ⟨hplain, hmoves, -⟩ := moves_ignore_peeks_iff [7] hwindow [.peek 0, .next, .peek 1]
  exact ⟨hmoves, hplain⟩

/-! ## Once the window has been moved

A caller of a window over a list may also close the list, which changes nothing. If no peek comes
first, then the window has not been used or it is filled with what the last move has shown and the
values behind it (`exists_steps_start`), and that is all that moves and peeks look at.
-/

/-- A step of a caller: a use of the window, or closing the list below. -/
inductive Step where
  | use (u : Use)
  | close
  deriving DecidableEq, Repr

/-- The uses among the steps of a caller. -/
def uses : List Step → List Use
  | [] => []
  | .use u :: steps => u :: uses steps
  | .close :: steps => uses steps

/-- The number of moves among the steps of a caller. -/
def moves (steps : List Step) : Nat := (uses steps).count .next

/-- The window after the steps of a caller, unless it overflows. -/
def steps? (window : UInt8) : Lookahead (List α) α → List Step → Option (Lookahead (List α) α)
  | l, [] => some l
  | l, .use u :: steps => (l.use? (.ofList α) window u).bind fun r => r.2.steps? window steps
  | l, .close :: steps => l.steps? window steps

theorem steps?_use {l : Lookahead (List α) α} {u : Use} {r : Option α × Lookahead (List α) α}
    (h : l.use? (.ofList α) window u = some r) (steps : List Step) :
    l.steps? window (.use u :: steps) = r.2.steps? window steps := by
  rw [steps?, h, Option.bind_some]

/-- A filled window moves on by as many values as there are moves among the steps. -/
theorem Filled.exists_steps {l : Lookahead (List α) α} (hwindow : window ≠ 255)
    (h : l.Filled (.ofList α) window.toNat xs) (steps : List Step) :
    ∃ l', l.steps? window steps = some l' ∧
      l'.Filled (.ofList α) window.toNat (xs.drop (moves steps)) := by
  induction steps generalizing l xs with
  | nil => exact ⟨l, rfl, h⟩
  | cons step steps ih =>
    match step with
    | .close => exact ih h
    | .use .next =>
      obtain ⟨l', hl', hfilled⟩ := ih h.shows.next.2
      refine ⟨l', (steps?_use (use?_next hwindow) steps).trans hl', ?_⟩
      rw [moves, uses, List.count_cons_self, ← List.drop_tail]
      exact hfilled
    | .use (.peek n) =>
      obtain ⟨l', hl', hfilled⟩ := ih h
      have hstep := (use?_peek hwindow n).trans (congrArg some (h.peek n.toNat))
      refine ⟨l', (steps?_use hstep steps).trans hl', ?_⟩
      rw [moves, uses, List.count_cons_of_ne (by simp)]
      exact hfilled

/-- **A window that is moved first shows the values behind its moves**, and after a move it is
filled with the value that was shown and those behind it. -/
theorem exists_steps_start (xs : List α) (hwindow : window ≠ 255) {steps : List Step}
    (hfirst : peeksFirst (uses steps) = false) :
    ∃ l, (start xs).steps? window steps = some l ∧
      l.Shows (.ofList α) window.toNat (xs.drop (moves steps)) ∧
      (0 < moves steps → l.Filled (.ofList α) window.toNat (xs.drop (moves steps - 1))) := by
  have hstart := FiniteStream.delivers_ofList xs
  induction steps with
  | nil => exact ⟨start xs, rfl, shows_start hstart, fun h => absurd h (Nat.lt_irrefl 0)⟩
  | cons step steps ih =>
    match step with
    | .close => exact ih hfirst
    -- from the first move on the window is filled
    | .use .next =>
      obtain ⟨l, hl, hfilled⟩ := ((shows_start hstart).next.2).exists_steps hwindow steps
      have hmoves : moves (.use .next :: steps) = moves steps + 1 := List.count_cons_self
      refine ⟨l, (steps?_use (use?_next hwindow) steps).trans hl, ?_, fun _ => ?_⟩
      · rw [hmoves, ← List.tail_drop]
        exact hfilled.shows
      · rw [hmoves, Nat.add_sub_cancel]
        exact hfilled
    | .use (.peek n) => simp [uses, peeksFirst] at hfirst

/-- **A window shows the upcoming values once it has been moved.** If no peek comes first, then no
step is an error; the next move shows the value behind as many values as there were moves; and after
a move, a peek shows the value that many places behind the one that was shown, as far as the window
reaches, and changes nothing. In a window that overflows every use is an error. -/
theorem window_shows_upcoming (xs : List α) (window : UInt8) :
    (window ≠ 255 → ∀ steps, peeksFirst (uses steps) = false →
      ∃ l, (start xs).steps? window steps = some l ∧
        (l.use? (.ofList α) window .next).map (·.1) = some (xs[moves steps]?) ∧
        (0 < moves steps → ∀ n, l.use? (.ofList α) window (.peek n) =
          some (if n ≤ window then xs[moves steps - 1 + n.toNat]? else none, l))) ∧
    (window = 255 → ∀ (l : Lookahead (List α) α) (u : Use),
      l.use? (.ofList α) window u = none) := by
  constructor
  · intro hwindow steps hfirst
    obtain ⟨l, hl, hshows, hfilled⟩ := exists_steps_start xs hwindow hfirst
    refine ⟨l, hl, ?_, fun hmoved n => ?_⟩
    · rw [use?_next hwindow, Option.map_some, hshows.next.1, List.head?_drop]
    · rw [use?_peek hwindow, (hfilled hmoved).peek, List.getElem?_drop]
      simp only [UInt8.le_iff_toNat_le, ← Nat.not_lt, ite_not]
  · rintro rfl l (_ | n) <;> rfl

/-- A window of two over three values, closed after the second move and peeked into behind the last
value. -/
theorem window_shows_upcoming_closed :
    ∃ l, (start [7, 8, 9]).steps? 2 [.use .next, .use (.peek 3), .use .next, .close] = some l ∧
      (l.use? (.ofList Nat) 2 .next).map (·.1) = some (some 9) ∧
      l.use? (.ofList Nat) 2 (.peek 1) = some (some 9, l) ∧
      l.use? (.ofList Nat) 2 (.peek 2) = some (none, l) := by
  obtain ⟨l, hl, hnext, hpeek⟩ := (window_shows_upcoming [7, 8, 9] 2).1 (by decide)
    [.use .next, .use (.peek 3), .use .next, .close] rfl
  exact ⟨l, hl, hnext, hpeek (by decide) 1, hpeek (by decide) 2⟩

end Lookahead

end Bracket
