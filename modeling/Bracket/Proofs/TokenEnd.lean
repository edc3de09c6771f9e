import Bracket.Proofs.Commands

/-!
# Behind the end of the tokens

A lexer answers a call with no token at the end of the text, where reading breaks down, and at a
zero code point. The first two are for good: the decoder below has ended, and every later call finds
it so. A zero is used up by the call that meets it and leaves no trace, so the next call goes on
behind it.

So the calls read off one list, `Symbol.answers`, which has an entry for every command and an empty
entry for every zero (`Lexer.answer_symbol`). An empty call is followed by empty calls only iff no
command stands behind the first zero.
-/

namespace Bracket

open Utf8

namespace FiniteStream

variable {σ α β : Type} {S : FiniteStream σ α} {s : σ}

/-- The answer of the call that comes after `k` calls. -/
def answer (S : FiniteStream σ α) (s : σ) (k : Nat) : Option α := (S.next (S.calls k s).2).1

/-- After a call that brings nothing no call brings anything. -/
def EndsForGood (S : FiniteStream σ α) (s : σ) : Prop :=
  ∀ i j, i ≤ j → S.answer s i = none → S.answer s j = none

/-- A relation to a list of answers that every call preserves tells the answer of every call. -/
theorem answer_of_invariant {R : σ → List (Option β) → Prop} {f : α → β}
    (step : ∀ s ys, R s ys → (S.next s).1.map f = ys.head?.join ∧ R (S.next s).2 ys.tail)
    {ys : List (Option β)} (h : R s ys) (k : Nat) : (S.answer s k).map f = (ys[k]?).join := by
  induction k generalizing s ys with
  | zero =>
    rw [← List.head?_eq_getElem?]
    exact (step s ys h).1
  | succ k ih =>
    rw [← List.getElem?_tail]
    exact ih (step s ys h).2

end FiniteStream

/-! ## The answers in a text -/

/-- The answers that a lexer finds in a text, one for each command and each zero byte. -/
def Symbol.answers (content : Bytes) : List (Option Symbol) :=
  content.filterMap fun b => answer? b.toNat

/-- The bytes behind the first zero byte. -/
def behindZero (content : Bytes) : Bytes := (content.dropWhile (· ≠ 0)).tail

/-- One call takes the first answer off the code points to come. -/
theorem Token.step_answers (m : Mark) (xs : List Scalar) :
    (step m xs).1.map (·.symbol) =
        (xs.filterMap fun s => Symbol.answer? s.point).head?.join ∧
      ((step m xs).2.2.filterMap fun s => Symbol.answer? s.point) =
        (xs.filterMap fun s => Symbol.answer? s.point).tail := by
  fun_induction step m xs with
  | case1 m => exact ⟨rfl, rfl⟩
  | case2 m s rest hz => simp [Symbol.answer?, hz]
  | case3 m s rest hz hb ih =>
    -- a byte order mark is no command
    have hmark : Symbol.answer? s.point = none :=
      Symbol.answer?_high _ (by simp [hb.1, Lexer.byteOrderMark])
    simpa [hmark] using ih
  | case4 m s rest hz hb behind hs ih => simpa [Symbol.answer?, hz, hs] using ih
  | case5 m s rest hz hb behind symbol hs => simp [Symbol.answer?, hz, hs]

/-- Behind an empty answer all answers are empty. -/
def EndsForGood (answers : List (Option Symbol)) : Prop :=
  ∀ i j : Nat, i ≤ j → (answers[i]?).join = none → (answers[j]?).join = none

theorem endsForGood_cons_some {s : Symbol} {answers : List (Option Symbol)} :
    EndsForGood (some s :: answers) ↔ EndsForGood answers := by
  constructor
  · intro h i j hij hi
    exact h (i + 1) (j + 1) (Nat.succ_le_succ hij) hi
  · intro h i j hij hi
    cases i with
    | zero => simp at hi
    | succ i =>
      obtain ⟨j, rfl⟩ : ∃ k, j = k + 1 := ⟨j - 1, by omega⟩
      exact h i j (Nat.le_of_succ_le_succ hij) hi

/-- Behind a call without a token there must be no token any more. -/
theorem endsForGood_cons_none {answers : List (Option Symbol)} :
    EndsForGood (none :: answers) ↔ ∀ a ∈ answers, a = none := by
  constructor
  · intro h a ha
    obtain ⟨k, hk⟩ := List.mem_iff_getElem?.mp ha
    have hnone := h 0 (k + 1) (Nat.zero_le _) rfl
    rwa [List.getElem?_cons_succ, hk] at hnone
  · intro h i j _ _
    cases hj : (none :: answers)[j]? with
    | none => rfl
    | some a =>
      rcases List.mem_cons.mp (List.mem_of_getElem? hj) with rfl | ha
      · rfl
      · rw [h a ha]
        rfl

/-- The answers of a text are all empty iff it has no command. -/
theorem Symbol.forall_mem_answers_iff (content : Bytes) :
    (∀ a ∈ answers content, a = none) ↔ ∀ b ∈ content, b ∉ commands := by
  constructor
  · intro h b hb hcommand
    obtain ⟨s, hs⟩ := Option.isSome_iff_exists.mp (ofByte?_isSome_iff.mpr hcommand)
    have hanswer : answer? b.toNat = some (some s) := by
      have hzero : b.toNat ≠ 0 := by simpa [← UInt8.toNat_inj] using ne_zero_of_ofByte? hs
      rw [answer?, if_neg hzero]
      exact congrArg (Option.map some) hs
    have hnone := h (some s) (List.mem_filterMap.mpr ⟨b, hb, hanswer⟩)
    simp at hnone
  · intro h a ha
    obtain ⟨b, hb, hanswer⟩ := List.mem_filterMap.mp ha
    unfold answer? at hanswer
    split at hanswer
    · exact (Option.some.inj hanswer).symm
    · obtain ⟨s, hs, -⟩ := Option.map_eq_some_iff.mp hanswer
      exact absurd (mem_commands hs) (h b hb)

/-- **The answers of a text end for good iff no command stands behind the first zero byte.** -/
theorem Symbol.endsForGood_answers_iff (content : Bytes) :
    EndsForGood (answers content) ↔ ∀ b ∈ behindZero content, b ∉ commands := by
  induction content with
  | nil => simp [EndsForGood, answers, behindZero]
  | cons b rest ih =>
    by_cases hb : b = 0
    · subst hb
      exact endsForGood_cons_none.trans (forall_mem_answers_iff rest)
    · have hbehind : behindZero (b :: rest) = behindZero rest := by simp [behindZero, hb]
      have hzero : b.toNat ≠ 0 := by simpa [← UInt8.toNat_inj] using hb
      rw [hbehind, ← ih]
      cases hs : ofCodePoint? b.toNat with
      | none => simp [answers, answer?, hzero, hs]
      | some s => simp [answers, answer?, hzero, hs, endsForGood_cons_some]

/-! ## The calls of a lexer -/

/-- A caller that has given up gets no code point. -/
theorem Scalars.delivers_cancelled (body : Body) : (stream true).Delivers (.ofBody body) [] := by
  refine FiniteStream.Delivers.of_invariant
    (R := fun r xs => xs = [] ∧ (r = .ofBody body ∨ r.ended.isSome = true)) ?_ ⟨rfl, .inl rfl⟩
  rintro r xs ⟨rfl, rfl | hended⟩
  · exact ⟨rfl, rfl, .inr rfl⟩
  · have hnext : (stream true).next r = (none, r) := by
      show Scalars.next true r = (none, r)
      rw [Scalars.next, if_pos hended]
    rw [hnext]
    exact ⟨rfl, rfl, .inr hended⟩

namespace Lexer

variable {l : Lexer}

/-- **The calls of a lexer read off the answers of the code points to come.** -/
theorem answer_symbol {xs : List Scalar} (h : l.Shows xs) (k : Nat) :
    ((stream false).answer l k).map (·.symbol) =
      ((xs.filterMap fun s => Symbol.answer? s.point)[k]?).join := by
  refine FiniteStream.answer_of_invariant
    (R := fun l ys => ∃ xs, l.Shows xs ∧ (xs.filterMap fun s => Symbol.answer? s.point) = ys)
    ?_ ⟨xs, h, rfl⟩ k
  rintro l _ ⟨xs, hxs, rfl⟩
  obtain ⟨htoken, -⟩ := l.next_step xs hxs
  obtain ⟨hfirst, hrest⟩ := Token.step_answers l.mark xs
  refine ⟨?_, _, shows_next hxs, hrest⟩
  exact (congrArg (Option.map (·.symbol)) htoken).trans hfirst

/-- A lexer over a decoder that delivers nothing finds no token. -/
theorem next_of_shows_nil {cancelled : Bool}
    (h : l.window.Shows (Scalars.stream cancelled) ahead []) :
    (next cancelled l).1 = none ∧
      (next cancelled l).2.window.Shows (Scalars.stream cancelled) ahead [] := by
  obtain ⟨hnone, hfilled⟩ := h.next
  rw [next]
  split
  · next window hw =>
    rw [hw] at hfilled
    exact ⟨rfl, hfilled.shows⟩
  · next hw => simp [hw] at hnone

/-- A caller that has given up gets no token. -/
theorem answer_cancelled (body : Body) (k : Nat) :
    (stream true).answer (.ofBody body) k = none := by
  have hstep : ∀ (l : Lexer) (ys : List (Option Token)),
      ys = [] ∧ l.window.Shows (Scalars.stream true) ahead [] →
      ((stream true).next l).1.map id = ys.head?.join ∧
        ys.tail = [] ∧ ((stream true).next l).2.window.Shows (Scalars.stream true) ahead [] := by
    rintro l _ ⟨rfl, hl⟩
    obtain ⟨htoken, hshows⟩ := next_of_shows_nil hl
    exact ⟨congrArg (Option.map id) htoken, rfl, hshows⟩
  have hshows : (ofBody body).window.Shows (Scalars.stream true) ahead [] :=
    Lookahead.shows_start (Scalars.delivers_cancelled body)
  simpa using FiniteStream.answer_of_invariant hstep ⟨rfl, hshows⟩ k

/-- **When the end of the tokens is for good.** Whatever the device does behind its last byte, the
calls of a lexer are answered with the commands of the file in order, with nothing once at every
zero byte, and with nothing for ever behind the last byte. So after a call that brings nothing no
call brings anything iff no command stands behind the first zero byte. A caller that has given up
gets no token at all. -/
theorem tokens_end_for_good_iff (path : Bytes) (device : Device) (hchunk : device.chunk ≠ some 0) :
    (∀ k, ((stream false).answer (.ofBody (.ofDevice path device)) k).map (·.symbol) =
      ((Symbol.answers device.deliverable)[k]?).join) ∧
    ((stream false).EndsForGood (.ofBody (.ofDevice path device)) ↔
      ∀ b ∈ behindZero device.deliverable, b ∉ commands) ∧
    ∀ k, (stream true).answer (.ofBody (.ofDevice path device)) k = none := by
  have hflows : (Body.ofDevice path device).device.Flows := hchunk
  have hshows : (ofBody (.ofDevice path device)).Shows (decodeAll device.deliverable) :=
    Lookahead.shows_start (Scalars.steady_ofBody hflows).delivers
  have hanswer : ∀ k, ((stream false).answer (.ofBody (.ofDevice path device)) k).map (·.symbol) =
      ((Symbol.answers device.deliverable)[k]?).join := by
    intro k
    rw [answer_symbol hshows, filterMap_decodeAll Symbol.answer?_high]
    rfl
  refine ⟨hanswer, ?_, answer_cancelled _⟩
  rw [← Symbol.endsForGood_answers_iff]
  simp only [FiniteStream.EndsForGood, EndsForGood, ← hanswer, Option.map_eq_none_iff]

/-- A command behind a zero byte is found by the call after the empty one, unless the device breaks
down in front of it. -/
theorem tokens_end_for_good_iff_zero :
    ¬ (stream false).EndsForGood (.ofBody (.ofDevice [0x61] (.ofContent [0x2B, 0, 0x2D]))) ∧
    ((stream false).answer (.ofBody (.ofDevice [0x61] (.ofContent [0x2B, 0, 0x2D]))) 2).map
      (·.symbol) = some .decrementValue ∧
    (stream false).EndsForGood (.ofBody (.ofDevice [0x61]
      ⟨[0x2B, 0, 0x2D], some (2, .fail (.ofText (bytes "boom"))), some 1, none⟩)) := by
  obtain ⟨hanswer, hends, -⟩ :=
    tokens_end_for_good_iff [0x61] (.ofContent [0x2B, 0, 0x2D]) (by decide)
  obtain ⟨-, hbroken, -⟩ := tokens_end_for_good_iff [0x61]
    ⟨[0x2B, 0, 0x2D], some (2, .fail (.ofText (bytes "boom"))), some 1, none⟩ (by decide)
  have hminus : (0x2D : UInt8) ∈ commands := by decide
  exact ⟨fun h => hends.mp h 0x2D (List.mem_singleton_self _) hminus, hanswer 2,
    hbroken.mpr (List.forall_mem_nil _)⟩

end Lexer

end Bracket
