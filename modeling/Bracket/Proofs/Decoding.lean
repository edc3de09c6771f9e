import Bracket.Input.Scalars
import Bracket.Proofs.Causes
import Bracket.Proofs.Delivery
import Bracket.Proofs.Stream
import Bracket.Proofs.Utf8

/-!
# Decoding a body

The code points of a body are those of the bytes that it hands out, however these come in pieces
(`Scalars.Steady.delivers`).

Decoding looks at the buffer only, while the statement is about all the bytes to come. The buffer is
refilled until it decides the next code point, and then the bytes behind it do not matter. The
invariant `Scalars.Steady` ties a failure which is pending, or which has ended the stream, to the end
of the bytes, so that no failure cuts them short.
-/

namespace Bracket

open Utf8

/-- The failure that a decoder finds behind the last byte of a body: the end of input, the failure
of the device, or that nothing comes any more. -/
def Body.finish (b : Body) : Failure :=
  match b.endAnswer with
  | .failed f => if Scalars.isEnd f then .endOfInput else f
  | .data _ => .noProgress

/-- The device comes to an end of input, whatever it is wrapped in; stalling is no end. -/
def Breakdown.isEnd : Breakdown → Bool
  | .stall => false
  | .fail f => f.isEndOfInput

/-- **A decoder finds the end of input exactly where the device comes to one.** Every other failure
is wrapped in a diagnosis with a code of its own, so that none is taken for the end. -/
theorem Body.isEndOfInput_finish (b : Body) :
    b.finish.isEndOfInput = b.device.ending.isEnd := by
  unfold finish endAnswer
  cases b.device.ending with
  | stall => rfl
  | fail f =>
    cases hend : f.isEndOfInput with
    | true =>
      have hanswer : Scalars.isEnd (b.diagnose f).toFailure = true := by
        rw [diagnose, if_pos hend, Scalars.isEnd, Diagnosis.isEndOfInput_wrap, hend, Bool.true_or]
      simp only [hanswer, if_true, Breakdown.isEnd, hend]
      rfl
    | false =>
      have hdiagnose : b.diagnose f = .wrap (.ofUri b.uri) .unknownFatal f := by
        rw [diagnose, if_neg (by simp [hend])]
        rfl
      have hcode : (Diagnosis.first? (b.diagnose f).toFailure).map (·.code) =
          some Code.unknownFatal := by
        rw [hdiagnose]
        rfl
      have hanswer : Scalars.isEnd (b.diagnose f).toFailure = false := by
        rw [Scalars.isEnd, hcode, hdiagnose, Diagnosis.isEndOfInput_wrap, hend]
        decide
      simp only [hanswer, Bool.false_eq_true, if_false, Breakdown.isEnd, hend]
      rw [hdiagnose, Diagnosis.isEndOfInput_wrap, hend]

/-- A piece that is delivered does not change how the body ends. -/
theorem Body.Yields.finish {b b' : Body} {piece : Bytes} (h : b.Yields piece b') :
    b'.finish = b.finish := by
  have hanswer : b'.endAnswer = b.endAnswer := by
    simp only [Body.endAnswer, h.ending, Body.diagnose, h.uri]
  rw [Body.finish, Body.finish, hanswer]

namespace Scalars

/-- The bytes that were not decoded yet. -/
def deliverable (r : Scalars) : Bytes := r.unread ++ r.body.deliverable

/-- The decoder has met no failure before the last byte. `finish` is the failure behind it, and
`closing` what goes wrong on closing the body. -/
structure Steady (finish : Failure) (closing : Option Failure) (r : Scalars) : Prop where
  flows : r.body.device.Flows
  finish_eq : r.body.finish = finish
  closing_eq : r.body.close = closing
  pending : ∀ f, r.pending = some f → r.body.deliverable = [] ∧ f = finish
  ended : ∀ f, r.ended = some f → r.deliverable = [] ∧ f = finish

/-- A reader at the beginning of a body that flows is steady. -/
theorem steady_ofBody {b : Body} (h : b.device.Flows) :
    Steady b.finish b.close (ofBody b) where
  flows := h
  finish_eq := rfl
  closing_eq := rfl
  pending := by simp [ofBody]
  ended := by simp [ofBody]

/-! ## Refilling the buffer -/

/-- A refill before the last byte brings a piece. -/
theorem fill_piece {r : Scalars} (hf : r.body.device.Flows) (hb : r.body.deliverable ≠ [])
    (hsize : r.unread.length < bufferSize) (tries : Nat) :
    ∃ piece b', fill false (tries + 1) r = { r with body := b', unread := r.unread ++ piece } ∧
      piece ≠ [] ∧ r.body.Yields piece b' := by
  obtain ⟨piece, b', hread, hne, -, hy⟩ :=
    Body.read_piece hf hb (show 0 < bufferSize - r.unread.length by omega)
  refine ⟨piece, b', ?_, hne, hy⟩
  cases piece with
  | nil => exact absurd rfl hne
  | cons p piece => simp only [fill, hread]

/-- A refill behind the last byte finds the failure there, after as many tries as it takes. -/
theorem fill_end {r : Scalars} (hb : r.body.deliverable = []) (hsize : r.unread.length < bufferSize)
    (tries : Nat) : fill false (tries + 1) r = { r with pending := some r.body.finish } := by
  have hread := Body.read_end hb (show 0 < bufferSize - r.unread.length by omega)
  cases hend : r.body.device.ending with
  | fail f =>
    have hanswer : r.body.endAnswer = .failed (r.body.diagnose f).toFailure := by
      rw [Body.endAnswer, hend]
    simp only [fill, hread, Body.finish, hanswer]
  | stall =>
    have hanswer : r.body.endAnswer = .data [] := by rw [Body.endAnswer, hend]
    -- every try is answered with nothing, and none changes the body
    have hall : ∀ n, fill false n r = { r with pending := some .noProgress } := by
      intro n
      induction n with
      | zero => rfl
      | succ n ih => simpa only [fill, hread, hanswer] using ih
    rw [hall, Body.finish, hanswer]

variable {finish : Failure} {closing : Option Failure} {r : Scalars}

/-- Closing a decoder that meets nothing but the end of input is closing its body. -/
theorem Steady.close_eq (hr : r.Steady finish closing) (hfinish : finish.isEndOfInput = true) :
    r.close = closing := by
  unfold close
  split
  · next f hf =>
    -- the stream can only have ended with what stands behind the last byte
    rw [(hr.ended f hf).2, if_pos hfinish, hr.closing_eq]
  · exact hr.closing_eq

/-- Where no failure is pending and the buffer is short, the decoder has to refill it. -/
theorem not_isReady (h : r.isReady = false) : r.pending = none ∧ r.unread.length ≤ 3 := by
  simp only [isReady, Bool.or_eq_false_iff, Bool.not_eq_false', List.isEmpty_iff,
    List.drop_eq_nil_iff, Option.isSome_eq_false_iff, Option.isNone_iff_eq_none] at h
  exact ⟨h.2, h.1.1⟩

/-- One refill keeps the bytes to come, and brings a byte or the failure behind them. -/
theorem Steady.fill (hr : r.Steady finish closing) (hready : r.isReady = false) :
    (fill false maxTries r).Steady finish closing ∧
      (fill false maxTries r).deliverable = r.deliverable ∧
      (fill false maxTries r).ended = r.ended ∧
      (r.unread.length < (fill false maxTries r).unread.length ∨
        (fill false maxTries r).isReady = true) := by
  obtain ⟨hpending, hlen⟩ := not_isReady hready
  have hsize : r.unread.length < bufferSize := Nat.lt_of_le_of_lt hlen (by decide)
  by_cases hb : r.body.deliverable = []
  · have hfill : Scalars.fill false maxTries r = { r with pending := some r.body.finish } :=
      fill_end hb hsize 99
    rw [hfill]
    refine ⟨⟨hr.flows, hr.finish_eq, hr.closing_eq, ?_, hr.ended⟩, rfl, rfl, .inr ?_⟩
    · rintro f hf
      obtain rfl : r.body.finish = f := by simpa using hf
      exact ⟨hb, hr.finish_eq⟩
    · simp [isReady]
  · obtain ⟨piece, b', hfill, hne, hy⟩ := fill_piece hr.flows hb hsize 99
    have hfill : Scalars.fill false maxTries r =
      { r with body := b', unread := r.unread ++ piece } := hfill
    have hbytes : (⟨b', r.unread ++ piece, r.pending, r.ended⟩ : Scalars).deliverable =
        r.deliverable := by
      simp only [deliverable, hy.bytes, List.append_assoc]
    rw [hfill]
    refine ⟨⟨?_, ?_, ?_, ?_, ?_⟩, hbytes, rfl, .inl ?_⟩
    · rw [Device.Flows, hy.chunk]
      exact hr.flows
    · rw [hy.finish, hr.finish_eq]
    · rw [← hr.closing_eq]
      exact hy.closing
    · intro f hf
      rw [hpending] at hf
      simp at hf
    · intro f hf
      rw [hbytes]
      exact hr.ended f hf
    · rw [List.length_append]
      have := List.length_pos_iff.mpr hne
      omega

/-- Refilling ends with a buffer that decides the next code point, or with the failure pending. -/
theorem Steady.gather (n : Nat) (hr : r.Steady finish closing) (hn : 4 ≤ n + r.unread.length) :
    (gather false n r).Steady finish closing ∧
      (gather false n r).deliverable = r.deliverable ∧ (gather false n r).ended = r.ended ∧
      (gather false n r).isReady = true := by
  have hkeep : ∀ n (r : Scalars), r.isReady = true → Scalars.gather false n r = r := by
    intro n r hready
    cases n with
    | zero => rfl
    | succ n => rw [Scalars.gather, if_pos hready]
  induction n generalizing r with
  | zero =>
    cases hready : r.isReady with
    | true => exact ⟨hr, rfl, rfl, hready⟩
    | false =>
      have := (not_isReady hready).2
      omega
  | succ n ih =>
    by_cases hready : r.isReady = true
    · rw [hkeep _ r hready]
      exact ⟨hr, rfl, rfl, hready⟩
    · rw [Scalars.gather, if_neg hready]
      obtain ⟨hr', hbytes, hended, hlonger | hready'⟩ := hr.fill (by simpa using hready)
      · obtain ⟨hr'', hbytes', hended', hready''⟩ := ih hr' (by omega)
        exact ⟨hr'', hbytes'.trans hbytes, hended'.trans hended, hready''⟩
      · rw [hkeep _ _ hready']
        exact ⟨hr', hbytes, hended, hready'⟩

/-! ## Code points -/

/-- A buffer that is ready decides its first code point. -/
theorem Steady.decode_append {body : Body} {b : UInt8} {rest : Bytes}
    {pending ended : Option Failure}
    (hr : (⟨body, b :: rest, pending, ended⟩ : Scalars).Steady finish closing)
    (hready : (⟨body, b :: rest, pending, ended⟩ : Scalars).isReady = true) :
    decode b (rest ++ body.deliverable) = decode b rest := by
  simp only [isReady, Bool.or_eq_true, Bool.not_eq_true', Option.isSome_iff_exists] at hready
  rcases hready with (hlong | hcomplete) | ⟨f, hf⟩
  · have hlen : 3 ≤ rest.length := by
      rw [← Bool.not_eq_true, List.isEmpty_iff, List.drop_eq_nil_iff, List.length_cons] at hlong
      omega
    refine decode_append_of_size_le ?_ _
    obtain hs | hs | hs | hs := shape_size b <;> omega
  · exact decode_append_of_isComplete hcomplete _
  · rw [(hr.pending f hf).1, List.append_nil]

/-- **One code point of a body is one code point of its bytes.** -/
theorem Steady.next (hr : r.Steady finish closing) :
    (next false r).1 = (decodeAll r.deliverable).head? ∧
      (next false r).2.Steady finish closing ∧
      decodeAll (next false r).2.deliverable = (decodeAll r.deliverable).tail := by
  cases hended : r.ended with
  | some f =>
    have hempty := (hr.ended f hended).1
    simp only [Scalars.next, hended, Option.isSome_some, if_true, hempty]
    exact ⟨by simp [decodeAll], hr, by simp [decodeAll]⟩
  | none =>
    obtain ⟨hg, hbytes, hgended, hready⟩ := hr.gather maxWidth (by simp [maxWidth])
    rw [hended] at hgended
    rw [← hbytes]
    simp only [Scalars.next, hended, Option.isSome_none, Bool.false_eq_true, if_false]
    generalize Scalars.gather false maxWidth r = g at hg hgended hready
    obtain ⟨body, unread, pending, ended⟩ := g
    cases unread with
    | nil =>
      -- nothing was brought, so the failure is pending and no byte is left
      obtain ⟨f, rfl⟩ : ∃ f, pending = some f := by
        simpa [isReady, isComplete, Option.isSome_iff_exists] using hready
      obtain ⟨hempty, rfl⟩ := hg.pending f rfl
      have hnone : ∀ p e, (⟨body, [], p, e⟩ : Scalars).deliverable = [] := fun _ _ => hempty
      refine ⟨by simp [hnone, decodeAll], ⟨hg.flows, hg.finish_eq, hg.closing_eq, by simp, ?_⟩, ?_⟩
      · intro f' hf'
        obtain rfl : f = f' := by simpa using hf'
        exact ⟨hempty, rfl⟩
      · simp [hnone, decodeAll]
    | cons b rest =>
      have hdecode := hg.decode_append hready
      have hdeliver : (⟨body, b :: rest, pending, ended⟩ : Scalars).deliverable =
          b :: (rest ++ body.deliverable) := rfl
      have hwidth := decode_width_le b rest
      have hrest : (rest ++ body.deliverable).drop ((decode b rest).width - 1) =
          rest.drop ((decode b rest).width - 1) ++ body.deliverable :=
        List.drop_append_of_le_length (by omega)
      refine ⟨?_, ⟨hg.flows, hg.finish_eq, hg.closing_eq, hg.pending, ?_⟩, ?_⟩
      · rw [hdeliver, decodeAll, hdecode]
        rfl
      · intro f hf
        rw [hgended] at hf
        simp at hf
      · rw [hdeliver, decodeAll, hdecode, List.tail_cons, hrest]
        rfl

/-- **A body delivers the code points of its bytes**, whatever pieces they come in. -/
theorem Steady.delivers (hr : r.Steady finish closing) :
    (stream false).Delivers r (decodeAll r.deliverable) := by
  refine FiniteStream.Delivers.of_invariant
    (R := fun r xs => r.Steady finish closing ∧ xs = decodeAll r.deliverable) ?_ ⟨hr, rfl⟩
  rintro r _ ⟨hr, rfl⟩
  obtain ⟨hhead, hr', htail⟩ := hr.next
  exact ⟨hhead, hr', htail.symm⟩

end Scalars

end Bracket
