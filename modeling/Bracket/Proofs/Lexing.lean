import Bracket.Module
import Bracket.Proofs.Decoding

/-!
# Lexing a body

The lexer works on a window over a decoder over a buffered body. What comes out is a function of the
code points alone: `Token.scan` takes a list of code points to the tokens before the first zero, and
`Module.tokens_eq` says that reading the tokens of a body gives the scan of its code points.

One call of the lexer is a function of the mark and the code points still to come (`Token.step`, by
`Lexer.next_step`), and a step that brings a token is a step of the scan (`Lexer.next_scan`). Every
layer below keeps its own invariant; what is left to follow here is that the decoder stays steady,
which is what closing the body depends on.
-/

namespace Bracket

open Utf8

/-! ## Scanning code points -/

/-- Where a lexer stands in the text. The column counts the code points before it in the line. -/
structure Mark where
  line : Int32
  column : Int32
  offset : Int64
  deriving DecidableEq

namespace Mark

/-- The beginning of a text. -/
def start : Mark := ⟨1, 0, 0⟩

/-- The place of the code point at the mark. -/
def position (m : Mark) : Position := ⟨m.line, m.column + 1, m.offset⟩

/-- The mark behind a code point, given the code point after it: a line feed ends a line, and so does
a carriage return without a line feed behind it. -/
def advance (m : Mark) (s : Scalar) (next? : Option Scalar) : Mark :=
  let offset := m.offset + Int64.ofNat s.width
  if s.point = 0x0A ∨ (s.point = 0x0D ∧ next?.map (·.point) ≠ some 0x0A) then
    ⟨m.line + 1, 0, offset⟩
  else ⟨m.line, m.column + 1, offset⟩

end Mark

/-- The tokens of code points, up to the first zero. -/
def Token.scan (m : Mark) : List Scalar → List Token
  | [] => []
  | s :: rest =>
    if s.point = 0 then []
    else if s.point = Lexer.byteOrderMark ∧ m.offset = 0 then
      scan { m with offset := Int64.ofNat s.width } rest
    else
      let behind := m.advance s rest.head?
      match Symbol.ofCodePoint? s.point with
      | none => scan behind rest
      | some symbol => ⟨m.position, behind.position, symbol, encode s.point⟩ :: scan behind rest

/-- One call of a lexer: the token, if the call brings one, the mark behind it and the code points
still to come. A zero is used up by the call that meets it. -/
def Token.step (m : Mark) : List Scalar → Option Token × Mark × List Scalar
  | [] => (none, m, [])
  | s :: rest =>
    if s.point = 0 then (none, m, rest)
    else if s.point = Lexer.byteOrderMark ∧ m.offset = 0 then
      step { m with offset := Int64.ofNat s.width } rest
    else
      let behind := m.advance s rest.head?
      match Symbol.ofCodePoint? s.point with
      | none => step behind rest
      | some symbol => (some ⟨m.position, behind.position, symbol, encode s.point⟩, behind, rest)

/-- A step that brings a token is a step of the scan. -/
theorem Token.step_scan (m : Mark) (xs : List Scalar) :
    (step m xs).1 = (scan m xs).head? ∧
      (scan m xs ≠ [] → scan (step m xs).2.1 (step m xs).2.2 = (scan m xs).tail) := by
  fun_induction step m xs with
  | case1 m => simp [scan]
  | case2 m s rest hz => simp [scan, hz]
  | case3 m s rest hz hb ih =>
    rw [scan, if_neg hz, if_pos hb]
    exact ih
  | case4 m s rest hz hb behind hs ih =>
    rw [scan, if_neg hz, if_neg hb]
    simpa only [hs] using ih
  | case5 m s rest hz hb behind symbol hs =>
    rw [scan, if_neg hz, if_neg hb]
    simp only [hs]
    exact ⟨rfl, fun _ => rfl⟩

namespace Lookahead

variable {σ α : Type} {S : FiniteStream σ α} {P : σ → Prop}

/-- What every call of a stream keeps is kept by filling the slots of a window over it. -/
theorem fill_inner (hP : ∀ s, P s → P (S.next s).2) (window : Nat) {l : Lookahead σ α}
    (h : P l.inner) : P (l.fill S window).2.inner := by
  have hcalls : ∀ n s, P s → P (S.calls n s).2 := by
    intro n
    induction n with
    | zero => exact fun _ hs => hs
    | succ n ih => exact fun s hs => ih _ (hP s hs)
  unfold fill
  split
  · exact h
  · exact hcalls _ _ h

/-- The same for moving the window. -/
theorem next_inner (hP : ∀ s, P s → P (S.next s).2) (window : Nat) {l : Lookahead σ α}
    (h : P l.inner) : P (l.next S window).2.inner := by
  unfold next
  split
  · exact fill_inner hP window h
  · exact hP _ h

end Lookahead

namespace Lexer

/-- Where the lexer stands. -/
def mark (l : Lexer) : Mark := ⟨l.line, l.column, l.offset⟩

/-- The code points still to come are `xs`. -/
def Shows (l : Lexer) (xs : List Scalar) : Prop := l.window.Shows (Scalars.stream false) ahead xs

theorem position_eq (l : Lexer) : l.position = l.mark.position := rfl

/-- Moving the position reads nothing and moves the mark. -/
theorem advance_eq {l : Lexer} {s : Scalar} {rest : List Scalar}
    (h : l.window.Filled (Scalars.stream false) ahead (s :: rest)) :
    (l.advance false s).window = l.window ∧
      (l.advance false s).mark = l.mark.advance s rest.head? := by
  have hpeek : l.window.peek (Scalars.stream false) ahead 1 = (rest.head?, l.window) := by
    rw [h.peek, if_neg (by simp [ahead]), List.getElem?_cons_succ, List.head?_eq_getElem?]
  unfold advance Mark.advance
  simp only [hpeek]
  by_cases hlf : s.point = 0x0A
  · simp [hlf, newLine, mark]
  · by_cases hcr : s.point = 0x0D
    · by_cases hnext : rest.head?.map (·.point) = some 0x0A
      · simp [hcr, hnext, newColumn, mark]
      · simp [hcr, hnext, newLine, mark]
    · simp [hlf, hcr, newColumn, mark]

/-- The window after a code point that was read. -/
theorem Shows.of_next {l : Lexer} {xs : List Scalar} {s : Scalar} {window : Lookahead Scalars Scalar}
    (h : l.Shows xs) (hw : l.window.next (Scalars.stream false) ahead = (some s, window)) :
    ∃ rest, xs = s :: rest ∧ window.Filled (Scalars.stream false) ahead (s :: rest) := by
  obtain ⟨hhead, hfilled⟩ := Lookahead.Shows.next h
  rw [hw] at hhead hfilled
  cases xs with
  | nil => simp at hhead
  | cons x rest =>
    obtain rfl : s = x := by simpa using hhead
    exact ⟨rest, rfl, hfilled⟩

/-- **One call of the lexer is a function of its mark and the code points to come.** The window
stands on a code point, and those behind it are still to come. -/
theorem next_step (l : Lexer) : ∀ xs, l.Shows xs →
    (next false l).1 = (Token.step l.mark xs).1 ∧
      (next false l).2.mark = (Token.step l.mark xs).2.1 ∧
      ∃ current, (next false l).2.window.Filled (Scalars.stream false) ahead current ∧
        current.tail = (Token.step l.mark xs).2.2 := by
  fun_induction next false l with
  | case1 l window hw =>
    intro xs h
    have hmove := Lookahead.Shows.next h
    rw [hw] at hmove
    obtain rfl : xs = [] := by simpa using hmove.1.symm
    exact ⟨rfl, rfl, [], hmove.2, rfl⟩
  | case2 l s window hw l' _ hz =>
    intro xs h
    obtain ⟨rest, rfl, hfilled⟩ := h.of_next hw
    rw [Token.step, if_pos hz]
    exact ⟨rfl, rfl, _, hfilled, rfl⟩
  | case3 l s window hw l' _ hz hb ih =>
    intro xs h
    -- a byte order mark at the very beginning takes no column
    obtain ⟨rest, rfl, hfilled⟩ := h.of_next hw
    have hstep : Token.step l.mark (s :: rest) =
        Token.step { l.mark with offset := Int64.ofNat s.width } rest := by
      have hb' : s.point = byteOrderMark ∧ l.mark.offset = 0 := hb
      rw [Token.step, if_neg hz, if_pos hb']
    rw [hstep]
    exact ih rest hfilled.shows
  | case4 l s window hw l' _ hz hb behind _ hs ih =>
    intro xs h
    obtain ⟨rest, rfl, hfilled⟩ := h.of_next hw
    obtain ⟨hwindow, hmark⟩ := advance_eq (l := l') hfilled
    -- a comment: the call goes on behind it
    have hstep : Token.step l.mark (s :: rest) = Token.step behind.mark rest := by
      have hb' : ¬ (s.point = byteOrderMark ∧ l.mark.offset = 0) := hb
      rw [Token.step, if_neg hz, if_neg hb']
      simp only [hs]
      rw [hmark]
      rfl
    rw [hstep]
    refine ih rest ?_
    rw [Shows, hwindow]
    exact hfilled.shows
  | case5 l s window hw l' _ hz hb behind _ symbol hs =>
    intro xs h
    obtain ⟨rest, rfl, hfilled⟩ := h.of_next hw
    obtain ⟨hwindow, hmark⟩ := advance_eq (l := l') hfilled
    have hstep : Token.step l.mark (s :: rest) =
        (some ⟨l'.position, behind.position, symbol, encode s.point⟩, behind.mark, rest) := by
      have hb' : ¬ (s.point = byteOrderMark ∧ l.mark.offset = 0) := hb
      rw [Token.step, if_neg hz, if_neg hb']
      simp only [hs]
      rw [position_eq, position_eq, hmark]
      rfl
    rw [hstep]
    refine ⟨rfl, rfl, s :: rest, ?_, rfl⟩
    rw [hwindow]
    exact hfilled

/-- The code points to come after a call. -/
theorem shows_next {l : Lexer} {xs : List Scalar} (h : l.Shows xs) :
    (next false l).2.Shows (Token.step l.mark xs).2.2 := by
  obtain ⟨-, -, current, hfilled, htail⟩ := l.next_step xs h
  rw [← htail]
  exact hfilled.shows

/-- **One call of the lexer is one step of the scan.** -/
theorem next_scan (l : Lexer) (xs : List Scalar) (h : l.Shows xs) :
    (next false l).1 = (Token.scan l.mark xs).head? ∧
      (Token.scan l.mark xs ≠ [] → ∃ rest, (next false l).2.Shows rest ∧
        Token.scan (next false l).2.mark rest = (Token.scan l.mark xs).tail) := by
  obtain ⟨htoken, hmark, -⟩ := l.next_step xs h
  obtain ⟨hhead, htail⟩ := Token.step_scan l.mark xs
  refine ⟨htoken.trans hhead, fun hne => ⟨_, shows_next h, ?_⟩⟩
  rw [hmark, htail hne]

/-- What moving the window and peeking into it keep is kept by lexing. -/
theorem next_window {W : Lookahead Scalars Scalar → Prop}
    (hnext : ∀ w, W w → W (w.next (Scalars.stream false) ahead).2)
    (hpeek : ∀ w, W w → W (w.peek (Scalars.stream false) ahead 1).2) (l : Lexer) :
    W l.window → W (next false l).2.window := by
  have hmove : ∀ (l : Lexer) (x : Option Scalar) (window : Lookahead Scalars Scalar),
      l.window.next (Scalars.stream false) ahead = (x, window) → W l.window → W window := by
    intro l x window hw h
    have hmoved := hnext l.window h
    rwa [hw] at hmoved
  have hadvance : ∀ (l : Lexer) (s : Scalar), W l.window → W (l.advance false s).window := by
    intro l s h
    have hpeeked := hpeek l.window h
    unfold advance
    dsimp only
    split
    · exact h
    · split
      · split <;> exact hpeeked
      · exact h
  fun_induction next false l with
  | case1 l window hw => exact hmove l none window hw
  | case2 l s window hw l' _ hz => exact hmove l (some s) window hw
  | case3 l s window hw l' _ hz hb ih => exact fun h => ih (hmove l (some s) window hw h)
  | case4 l s window hw l' _ hz hb behind _ hs ih =>
    exact fun h => ih (hadvance l' s (hmove l (some s) window hw h))
  | case5 l s window hw l' _ hz hb behind _ symbol hs =>
    exact fun h => hadvance l' s (hmove l (some s) window hw h)

/-- What every call of the decoder keeps is kept by lexing. -/
theorem next_inner {P : Scalars → Prop} (hP : ∀ r, P r → P (Scalars.next false r).2) (l : Lexer) :
    P l.window.inner → P (next false l).2.window.inner :=
  l.next_window (W := fun w => P w.inner)
    (fun _ => Lookahead.next_inner (S := Scalars.stream false) hP ahead)
    (fun _ => Lookahead.fill_inner (S := Scalars.stream false) hP ahead)

/-- The tokens still to come are `tokens`, and the decoder below is steady. -/
structure Scans (finish : Failure) (closing : Option Failure) (l : Lexer) (tokens : List Token) :
    Prop where
  scan : ∃ xs, l.Shows xs ∧ Token.scan l.mark xs = tokens
  steady : l.window.inner.Steady finish closing

variable {finish : Failure} {closing : Option Failure} {l : Lexer} {tokens : List Token}

/-- A lexer at the beginning of a body has all of its tokens before it. -/
theorem scans_ofBody {body : Body} (h : body.device.Flows) :
    (ofBody body).Scans body.finish body.close
      (Token.scan .start (decodeAll body.deliverable)) where
  scan := ⟨_, Lookahead.shows_start (Scalars.steady_ofBody h).delivers, rfl⟩
  steady := Scalars.steady_ofBody h

theorem Scans.next_steady (h : l.Scans finish closing tokens) :
    (next false l).2.window.inner.Steady finish closing :=
  l.next_inner (fun _ hr => hr.next.2.1) h.steady

/-- **One call answers the first of the tokens** and leaves the others. -/
theorem Scans.next (h : l.Scans finish closing tokens) :
    (next false l).1 = tokens.head? ∧
      (tokens ≠ [] → (next false l).2.Scans finish closing tokens.tail) := by
  obtain ⟨xs, hxs, rfl⟩ := h.scan
  obtain ⟨hhead, htail⟩ := l.next_scan xs hxs
  exact ⟨hhead, fun hne => ⟨htail hne, h.next_steady⟩⟩

end Lexer

/-! ## Draining -/

namespace FiniteStream

variable {σ α : Type}

theorem collect_of_none {S : FiniteStream σ α} {cancelled : σ → Bool}
    {close : σ → Option Failure} {s t : σ} (h : S.next s = (none, t)) :
    S.collect cancelled close s =
      (match close t with
        | none => .ok []
        | some f => .error f, t) := by
  rw [collect]
  split
  · next ht =>
    obtain rfl : t = _ := (Prod.mk.inj (h.symm.trans ht)).2
    rfl
  · next ht => simp [h] at ht

/-- A value of the stream comes in front of what is collected behind it. -/
theorem collect_of_some {S : FiniteStream σ α} {cancelled : σ → Bool}
    {close : σ → Option Failure} {s t : σ} {a : α} (h : S.next s = (some a, t))
    (hc : cancelled t = false) :
    S.collect cancelled close s =
      ((S.collect cancelled close t).1.map (a :: ·), (S.collect cancelled close t).2) := by
  rw [collect]
  split
  · next ht => simp [h] at ht
  · next ht =>
    obtain ⟨rfl, rfl⟩ : a = _ ∧ t = _ := by simpa using h.symm.trans ht
    simp [hc]

/-- Draining a stream that has a relation to the values it delivers up to the first empty call: the
values come out as long as closing does not fail, and they are kept in any case. -/
theorem collect_recorded {S : FiniteStream σ α} {R : σ → List α → Prop}
    (step : ∀ s xs, R s xs → (S.next s).1 = xs.head? ∧ (xs ≠ [] → R (S.next s).2 xs.tail))
    (close : σ → Option Failure) {s : σ} {xs : List α} (h : R s xs) (seen : List α) :
    ∃ last, R last [] ∧
      S.recorded.collect (fun _ => false) (fun s => close s.1) (s, seen) =
        (match close (S.next last).2 with
          | none => .ok xs
          | some f => .error f, ((S.next last).2, xs.reverse ++ seen)) := by
  induction xs generalizing s seen with
  | nil =>
    refine ⟨s, h, ?_⟩
    have hnext : S.recorded.next (s, seen) = (none, (S.next s).2, seen) := by
      simp [recorded, (step s [] h).1]
    rw [collect_of_none hnext]
    rfl
  | cons x xs ih =>
    obtain ⟨hhead, htail⟩ := step s (x :: xs) h
    obtain ⟨last, hlast, hrest⟩ := ih (htail (by simp)) (x :: seen)
    refine ⟨last, hlast, ?_⟩
    have hnext : S.recorded.next (s, seen) = (some x, (S.next s).2, x :: seen) := by
      simp [recorded, hhead]
    rw [collect_of_some hnext rfl, hrest, List.reverse_cons, List.append_assoc]
    cases close (S.next last).2 <;> rfl

/-- Draining a stream with such a relation gives the values up to the first empty call. -/
theorem drain_eq {S : FiniteStream σ α} {R : σ → List α → Prop}
    (step : ∀ s xs, R s xs → (S.next s).1 = xs.head? ∧ (xs ≠ [] → R (S.next s).2 xs.tail))
    {s : σ} {xs : List α} (h : R s xs) : (S.drain s).1 = xs := by
  induction xs generalizing s with
  | nil =>
    rw [drain]
    split
    · rfl
    · next ht => simpa [ht] using (step s [] h).1
  | cons x xs ih =>
    obtain ⟨hhead, htail⟩ := step s (x :: xs) h
    rw [drain]
    split
    · next ht => simp [ht] at hhead
    · next ht =>
      rw [ht] at hhead htail
      obtain rfl : _ = x := by simpa using hhead
      exact congrArg (_ :: ·) (ih (htail (by simp)))

end FiniteStream

/-! ## The tokens of a body -/

namespace Lexer

/-- The tokens of a file without faults, up to the first call that brings none. -/
def read (uri content : Bytes) : List Token :=
  ((stream false).drain (ofBody (.ofDevice uri (.ofContent content)))).1

/-- **The tokens of a file are the scan of its code points.** -/
theorem read_eq (uri content : Bytes) :
    read uri content = Token.scan .start (decodeAll content) := by
  have hflows : (Body.ofDevice uri (.ofContent content)).device.Flows := by
    simp [Device.Flows, Body.ofDevice, Device.ofContent]
  exact FiniteStream.drain_eq (S := stream false) (fun _ _ hl => hl.next) (scans_ofBody hflows)

end Lexer

namespace Module

/-- **The tokens of a body are the scan of its code points.** They come out unless closing fails,
where the decoder `r` is the one that is closed; the tokens that were read are kept in any case. -/
theorem tokens_eq {body : Body} (h : body.device.Flows) :
    ∃ r : Scalars, r.Steady body.finish body.close ∧
      tokens false body =
        (match r.close with
          | none => .ok (Token.scan .start (decodeAll body.deliverable))
          | some f => .error f, (Token.scan .start (decodeAll body.deliverable)).reverse) := by
  obtain ⟨last, hlast, hcollect⟩ := FiniteStream.collect_recorded (S := Lexer.stream false)
    (fun _ _ hl => hl.next) Lexer.close (Lexer.scans_ofBody h) []
  refine ⟨_, hlast.next_steady, ?_⟩
  simp only [tokens, hcollect, List.append_nil]
  rfl

/-- The tokens of a body whose device comes to an end of input and closes. -/
theorem tokens_of_isEnd {body : Body} (hflows : body.device.Flows)
    (hend : body.device.ending.isEnd = true) (hclose : body.close = none) :
    tokens false body =
      (.ok (Token.scan .start (decodeAll body.deliverable)),
        (Token.scan .start (decodeAll body.deliverable)).reverse) := by
  obtain ⟨r, hr, htokens⟩ := tokens_eq hflows
  rw [hr.close_eq (body.isEndOfInput_finish.trans hend), hclose] at htokens
  exact htokens

/-- The tokens of a file without faults. -/
theorem tokens_ofContent (uri content : Bytes) :
    tokens false (.ofDevice uri (.ofContent content)) =
      (.ok (Token.scan .start (decodeAll content)),
        (Token.scan .start (decodeAll content)).reverse) := by
  have hflows : (Body.ofDevice uri (.ofContent content)).device.Flows := by
    simp [Device.Flows, Body.ofDevice, Device.ofContent]
  exact tokens_of_isEnd hflows rfl rfl

end Module

end Bracket
