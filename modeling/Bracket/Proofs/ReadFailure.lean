import Bracket.Proofs.Commands

/-!
# Failures of reading

A device that breaks down in the middle of a file must not pass for one that has come to its end.
The failure is noticed far below the parser: the decoder keeps it back until the bytes before it are
used up, answers with nothing like at the end of a file, and tells the failure only on closing. In
between, a window and a lexer take the missing code point for the end of the text.

So it matters that the lexer, before it gives up, has made the decoder meet the failure. Whoever has
called a decoder in vain knows that it has ended (`Scalars.Steady.next_end`). A window remembers such
a call as an empty slot (`Lookahead.Notices`), and behind the last code point one slot is empty. Only
a zero byte lets the lexer give up before it gets there, and then the failure stays unseen.
-/

namespace Bracket

open Utf8

/-! ## A window notices the end -/

namespace Lookahead

variable {σ α : Type} {S : FiniteStream σ α} {P Q : σ → Prop} {l : Lookahead σ α}

/-- An empty slot of the window tells that the stream has come to its end, which is said by `Q`. -/
def Notices (Q : σ → Prop) (l : Lookahead σ α) : Prop :=
  ∀ slots, l.slots = some slots → none ∈ slots → Q l.inner

theorem notices_start (inner : σ) : (start inner : Lookahead σ α).Notices Q := by
  intro slots hslots
  simp [start] at hslots

section

variable (hP : ∀ s, P s → P (S.next s).2)
  (hQ : ∀ s, P s → (S.next s).1 = none ∨ Q s → Q (S.next s).2)
include hP hQ

/-- A call in vain among several calls leaves the stream at its end. -/
theorem calls_notices {n : Nat} {s : σ} (h : P s) (hend : none ∈ (S.calls n s).1 ∨ Q s) :
    Q (S.calls n s).2 := by
  induction n generalizing s with
  | zero => simpa [FiniteStream.calls] using hend
  | succ n ih =>
    simp only [FiniteStream.calls, List.mem_cons] at hend ⊢
    refine ih (hP s h) ?_
    rcases hend with (hnone | hmem) | hs
    · exact .inr (hQ s h (.inl hnone.symm))
    · exact .inl hmem
    · exact .inr (hQ s h (.inr hs))

/-- Filling the window notices how the stream ends. -/
theorem Notices.fill (hl : l.Notices Q) (h : P l.inner) (window : Nat) :
    (l.fill S window).2.Notices Q := by
  unfold Lookahead.fill
  split
  · exact hl
  · intro slots hslots hnone
    obtain rfl : (S.calls (window + 1) l.inner).1 = slots := by simpa using hslots
    exact calls_notices hP hQ h (.inl hnone)

theorem Notices.next (hl : l.Notices Q) (h : P l.inner) (window : Nat) :
    (l.next S window).2.Notices Q := by
  unfold Lookahead.next
  split
  · exact hl.fill hP hQ h window
  · next slots hslots =>
    intro moved hmoved hnone
    obtain rfl : slots.tail ++ [(S.next l.inner).1] = moved := by simpa using hmoved
    rcases List.mem_append.mp hnone with hold | hnew
    · exact hQ _ h (.inr (hl slots hslots (List.mem_of_mem_tail hold)))
    · exact hQ _ h (.inl (List.mem_singleton.mp hnew).symm)

end

/-- A filled window that stands on the last value, or behind it, has noticed the end. -/
theorem Filled.notices {window : Nat} {current : List α} (h : l.Filled S (window + 1) current)
    (htail : current.tail = []) (hl : l.Notices Q) : Q l.inner := by
  refine hl _ h.1 (List.mem_map.mpr ⟨1, by simp, ?_⟩)
  rw [← List.getElem?_tail, htail, List.getElem?_nil]

end Lookahead

/-! ## A decoder at its end -/

namespace Scalars

/-- **A call in vain ends the decoder** with the failure behind the last byte, and then it has ended
for good. -/
theorem Steady.next_end {finish : Failure} {closing : Option Failure} {r : Scalars}
    (hr : r.Steady finish closing)
    (h : (Scalars.next false r).1 = none ∨ r.ended = some finish) :
    (Scalars.next false r).2.ended = some finish := by
  cases hended : r.ended with
  | some f =>
    have hf := (hr.ended f hended).2
    simp only [Scalars.next, hended, Option.isSome_some, if_true, hf]
  | none =>
    obtain ⟨hg, -, -, hready⟩ := hr.gather maxWidth (by simp [maxWidth])
    simp only [Scalars.next, hended, Option.isSome_none, Bool.false_eq_true, if_false, reduceCtorEq,
      or_false] at h ⊢
    generalize Scalars.gather false maxWidth r = g at h hg hready
    obtain ⟨body, unread, pending, ended⟩ := g
    -- without a byte there is no code point only if the body has ended
    cases unread with
    | cons b rest => simp at h
    | nil =>
      obtain ⟨f, rfl⟩ : ∃ f, pending = some f := by
        simpa [isReady, isComplete, Option.isSome_iff_exists] using hready
      exact congrArg some (hg.pending f rfl).2

/-- Closing a decoder which has met a failure tells the failure, whether closing fails or not. -/
theorem close_of_ended {r : Scalars} {finish : Failure} (h : r.ended = some finish)
    (hfinish : finish.isEndOfInput = false) : r.close = some finish := by
  simp only [close, h, hfinish, Bool.false_eq_true, if_false]

end Scalars

/-! ## A text without zeros -/

/-- No code point of a text without zero bytes is zero. -/
theorem Utf8.point_ne_zero_of_mem {content : Bytes} (h : 0 ∉ content) {s : Scalar}
    (hs : s ∈ decodeAll content) : s.point ≠ 0 := by
  fun_induction decodeAll content with
  | case1 => simp at hs
  | case2 b rest first ih =>
    rcases List.mem_cons.mp hs with rfl | hs
    · intro hzero
      have hb := (decode_point_eq_iff (p := 0) (by decide) b rest).mp hzero
      exact h (by simp [hb])
    · exact ih (fun hmem => h (List.mem_cons_of_mem b (List.mem_of_mem_drop hmem))) hs

/-- A call goes on to a later place of the text. -/
theorem Token.step_suffix (m : Mark) (xs : List Scalar) : (step m xs).2.2 <:+ xs := by
  fun_induction step m xs with
  | case1 m => exact List.suffix_rfl
  | case2 m s rest hz => exact List.suffix_cons s rest
  | case3 m s rest hz hb ih => exact ih.trans (List.suffix_cons s rest)
  | case4 m s rest hz hb behind hs ih => exact ih.trans (List.suffix_cons s rest)
  | case5 m s rest hz hb behind symbol hs => exact List.suffix_cons s rest

/-- Without zeros, a call that brings no token has used up the text. -/
theorem Token.step_of_none {m : Mark} {xs : List Scalar} (hzero : ∀ s ∈ xs, s.point ≠ 0)
    (h : (step m xs).1 = none) : (step m xs).2.2 = [] := by
  fun_induction step m xs with
  | case1 m => rfl
  | case2 m s rest hz => exact absurd hz (hzero s (by simp))
  | case3 m s rest hz hb ih => exact ih (fun x hx => hzero x (List.mem_cons_of_mem s hx)) h
  | case4 m s rest hz hb behind hs ih =>
    exact ih (fun x hx => hzero x (List.mem_cons_of_mem s hx)) h
  | case5 m s rest hz hb behind symbol hs => simp at h

/-! ## Reading up to a failure -/

namespace Lexer

/-- The tokens still to come are `tokens`, there is no zero before the end of the text, and the
window notices when the decoder below has met the failure behind it. -/
structure ReadsOn (finish : Failure) (closing : Option Failure) (l : Lexer) (tokens : List Token) :
    Prop where
  scan : ∃ xs, l.Shows xs ∧ (∀ s ∈ xs, s.point ≠ 0) ∧ Token.scan l.mark xs = tokens
  steady : l.window.inner.Steady finish closing
  notices : l.window.Notices fun r => r.ended = some finish

variable {finish : Failure} {closing : Option Failure} {l : Lexer} {tokens : List Token}

/-- A lexer at the beginning of a body without zero bytes reads on to the end of the body. -/
theorem readsOn_ofBody {body : Body} (h : body.device.Flows) (hzero : 0 ∉ body.deliverable) :
    (ofBody body).ReadsOn body.finish body.close
      (Token.scan .start (decodeAll body.deliverable)) where
  scan := ⟨_, Lookahead.shows_start (Scalars.steady_ofBody h).delivers,
    fun _ => point_ne_zero_of_mem hzero, rfl⟩
  steady := Scalars.steady_ofBody h
  notices := Lookahead.notices_start _

/-- What lexing keeps of the window and the decoder. -/
theorem ReadsOn.next_window (h : l.ReadsOn finish closing tokens) :
    (next false l).2.window.inner.Steady finish closing ∧
      (next false l).2.window.Notices fun r => r.ended = some finish := by
  have hsteady : ∀ r : Scalars, r.Steady finish closing →
      ((Scalars.stream false).next r).2.Steady finish closing := fun _ hr => hr.next.2.1
  have hend : ∀ r : Scalars, r.Steady finish closing →
      ((Scalars.stream false).next r).1 = none ∨ r.ended = some finish →
        ((Scalars.stream false).next r).2.ended = some finish := fun _ hr => hr.next_end
  refine Lexer.next_window (W := fun w => w.inner.Steady finish closing ∧
    w.Notices fun r => r.ended = some finish) ?_ ?_ l ⟨h.steady, h.notices⟩
  · exact fun w hw =>
      ⟨Lookahead.next_inner hsteady ahead hw.1, hw.2.next hsteady hend hw.1 ahead⟩
  · exact fun w hw =>
      ⟨Lookahead.fill_inner hsteady ahead hw.1, hw.2.fill hsteady hend hw.1 ahead⟩

/-- One call: a token, or the decoder has met the failure. -/
theorem ReadsOn.next (h : l.ReadsOn finish closing tokens) :
    (next false l).1 = tokens.head? ∧
      (tokens ≠ [] → (next false l).2.ReadsOn finish closing tokens.tail) ∧
      (tokens = [] → (next false l).2.window.inner.ended = some finish) := by
  obtain ⟨xs, hxs, hzero, rfl⟩ := h.scan
  obtain ⟨hsteady, hnotices⟩ := h.next_window
  obtain ⟨htoken, hmark, current, hfilled, htail⟩ := l.next_step xs hxs
  obtain ⟨hhead, hrest⟩ := Token.step_scan l.mark xs
  refine ⟨htoken.trans hhead, fun hne => ⟨⟨_, shows_next hxs, ?_, ?_⟩, hsteady, hnotices⟩,
    fun hnone => ?_⟩
  · exact fun s hs => hzero s ((Token.step_suffix l.mark xs).mem hs)
  · rw [hmark, hrest hne]
  -- no token, and no zero byte that would have been the reason: everything was read
  · have hstep : (Token.step l.mark xs).1 = none := by rw [hhead, hnone, List.head?_nil]
    refine hfilled.notices ?_ hnotices
    rw [htail, Token.step_of_none hzero hstep]

end Lexer

namespace Module

/-- **The tokens of a body that breaks down are lost**, if no zero byte comes before. -/
theorem tokens_of_not_isEnd {body : Body} (hflows : body.device.Flows)
    (hend : body.device.ending.isEnd = false) (hzero : 0 ∉ body.deliverable) :
    (tokens false body).1 = .error body.finish := by
  obtain ⟨last, hlast, hcollect⟩ := FiniteStream.collect_recorded (S := Lexer.stream false)
    (fun _ _ hl => ⟨hl.next.1, hl.next.2.1⟩) Lexer.close (Lexer.readsOn_ofBody hflows hzero) []
  have hclose : Lexer.close (Lexer.next false last).2 = some body.finish :=
    Scalars.close_of_ended (hlast.next.2.2 rfl) (body.isEndOfInput_finish.trans hend)
  have hclosed : Lexer.close ((Lexer.stream false).next last).2 = some body.finish := hclose
  simp only [tokens, hcollect, hclosed]

/-- Parsing a body whose tokens are lost gives the failure and nothing else. -/
theorem ofBody_of_error {body : Body} {f : Failure} (h : (tokens false body).1 = .error f)
    (path : Bytes) (report : Report) :
    (ofBody false path report (.ok body)).1 = ⟨none, some f, report⟩ := by
  cases hread : tokens false body with
  | mk read seen =>
    obtain rfl : read = .error f := by rwa [hread] at h
    simp only [ofBody, hread]
    rfl

/-- **A read failure never yields a truncated program.** A device delivers the first `limit` bytes of
a file, in pieces of any size, and then breaks down. If it stalls or fails, and no zero byte comes
before, then parsing the file gives a failure and no module and reports nothing, whether closing fails
too or not. If instead it comes to an end of input, wrapped or not, and closes, then all is as for a
file without faults that holds those bytes. -/
theorem ofBody_breakdown (path : Bytes) (report : Report) (device : Device) {limit : Nat}
    {breakdown : Breakdown} (hbreakdown : device.breakdown = some (limit, breakdown))
    (hlimit : limit ≤ device.content.length) (hchunk : device.chunk ≠ some 0) :
    (breakdown.isEnd = false → 0 ∉ device.content.take limit →
      ∃ f, (ofBody false path report (.ok (.ofDevice path device))).1 = ⟨none, some f, report⟩) ∧
    (breakdown.isEnd = true → device.closing = none →
      ofBody false path report (.ok (.ofDevice path device)) =
        ofBody false path report
          (.ok (.ofDevice path (.ofContent (device.content.take limit))))) := by
  have hending : device.ending = breakdown := by
    simp only [Device.ending, hbreakdown, if_pos hlimit]
  have hbytes : (Body.ofDevice path device).deliverable = device.content.take limit := by
    simp only [Body.deliverable, Body.ofDevice, Device.deliverable, hbreakdown, List.nil_append]
  have hflows : (Body.ofDevice path device).device.Flows := hchunk
  constructor
  · intro hend hzero
    have htokens := tokens_of_not_isEnd hflows (hending ▸ hend) (hbytes ▸ hzero)
    exact ⟨_, ofBody_of_error htokens path report⟩
  · intro hend hclose
    -- the tokens are those of the bytes that were delivered, and the rest of the work is on tokens
    have htokens := tokens_of_isEnd hflows (hending ▸ hend) hclose
    have hwhole := tokens_ofContent path (device.content.take limit)
    simp only [ofBody, hwhole, htokens, hbytes]

/-- A file that breaks down in the middle of a code point behind a complete program: a failure is
not lost, though closing fails as well, and a wrapped end of input leaves an invalid byte. -/
theorem ofBody_breakdown_midway :
    (∃ f, (ofBody false [0x61] (.empty []) (.ok (.ofDevice [0x61]
      ⟨[0x2B, 0xC3, 0xA9], some (2, .fail (.ofText (bytes "boom"))), some 1,
        some (.ofText (bytes "busy"))⟩))).1 = ⟨none, some f, .empty []⟩) ∧
    ofBody false [0x61] (.empty []) (.ok (.ofDevice [0x61]
      ⟨[0x2B, 0xC3, 0xA9], some (2, .fail (.labelled (bytes "outer") .endOfInput)), some 1,
        none⟩)) =
      ofBody false [0x61] (.empty []) (.ok (.ofDevice [0x61] (.ofContent [0x2B, 0xC3]))) := by
  constructor
  · exact (ofBody_breakdown [0x61] (.empty [])
      ⟨[0x2B, 0xC3, 0xA9], some (2, .fail (.ofText (bytes "boom"))), some 1,
        some (.ofText (bytes "busy"))⟩
      rfl (by decide) (by decide)).1 rfl (by decide)
  · exact (ofBody_breakdown [0x61] (.empty [])
      ⟨[0x2B, 0xC3, 0xA9], some (2, .fail (.labelled (bytes "outer") .endOfInput)), some 1, none⟩
      rfl (by decide) (by decide)).2 rfl rfl

end Module

end Bracket
