import Mathlib.Algebra.GroupWithZero.Nat
import Bracket.Proofs.Lexing
import Bracket.Proofs.Utf8.Encoding

/-!
# Chunks

A device may hand out its bytes in chunks of any size. They end within code points, within the
buffers above and at their edges, and still nobody above can tell: `Module.ofBody_independent_of_chunks`.

Two decoders, and two lexers, are compared by a simulation. The related states have the same code
points to come, and a lexer also the same mark; where their buffers and devices stand is left open.
Since every call is a function of what is related (`Scalars.Steady.next`, `Lexer.next_step`), the
answers agree for as many calls as anyone cares to make, also behind the end of the text and behind a
zero, where a lexer answers with nothing and goes on.
-/

namespace Bracket

open Utf8

namespace FiniteStream

variable {σ α β : Type} {S : FiniteStream σ α} {s t : σ}

/-- No caller can tell the two states apart: any number of calls is answered alike, and closing
afterwards comes out the same. -/
def Indistinguishable (S : FiniteStream σ α) (close : σ → β) (s t : σ) : Prop :=
  ∀ n, (S.calls n s).1 = (S.calls n t).1 ∧ close (S.calls n s).2 = close (S.calls n t).2

/-- States with a relation that every call answers alike and keeps cannot be told apart. -/
theorem Indistinguishable.of_simulation {close : σ → β} {R : σ → σ → Prop}
    (step : ∀ s t, R s t → (S.next s).1 = (S.next t).1 ∧ R (S.next s).2 (S.next t).2)
    (hclose : ∀ s t, R s t → close s = close t) (h : R s t) :
    S.Indistinguishable close s t := by
  intro n
  induction n generalizing s t with
  | zero => exact ⟨rfl, hclose s t h⟩
  | succ n ih =>
    obtain ⟨hanswer, hnext⟩ := step s t h
    obtain ⟨hanswers, hlast⟩ := ih hnext
    refine ⟨?_, hlast⟩
    simp only [calls, hanswer, hanswers]

/-- Draining a stream gives what it delivers. -/
theorem Delivers.drain_eq {xs : List α} (h : S.Delivers s xs) : (S.drain s).1 = xs :=
  FiniteStream.drain_eq (R := S.Delivers)
    (fun _ _ hs => ⟨(delivers_iff.mp hs).1, fun _ => (delivers_iff.mp hs).2⟩) h

end FiniteStream

/-- The widths of the code points of a text add up to its length. -/
theorem Utf8.Decodes.sum_width {text : Bytes} {scalars : List Scalar} (h : Decodes text scalars) :
    (scalars.map (·.width)).sum = text.length := by
  induction h with
  | nil => rfl
  | point _ _ ih => simp only [List.map_cons, List.sum_cons, ih, List.length_append]
  | invalid _ _ ih =>
    simp only [List.map_cons, List.sum_cons, ih, List.length_cons, Scalar.invalid]
    omega

/-! ## Decoders and lexers -/

/-- Two decoders that come to the same end of input. -/
def Scalars.EndAlike (r r' : Scalars) : Prop :=
  ∃ finish closing, finish.isEndOfInput = true ∧ r.Steady finish closing ∧ r'.Steady finish closing

namespace Scalars

variable {r r' : Scalars}

/-- Reading on does not tell two such readers apart. -/
theorem EndAlike.next (h : r.EndAlike r') :
    (Scalars.next false r).2.EndAlike (Scalars.next false r').2 := by
  obtain ⟨finish, closing, hfinish, hr, hr'⟩ := h
  exact ⟨finish, closing, hfinish, hr.next.2.1, hr'.next.2.1⟩

theorem EndAlike.close_eq (h : r.EndAlike r') : r.close = r'.close := by
  obtain ⟨finish, closing, hfinish, hr, hr'⟩ := h
  rw [hr.close_eq hfinish, hr'.close_eq hfinish]

/-- **Decoders with the same code points to come cannot be told apart.** -/
theorem EndAlike.indistinguishable (h : r.EndAlike r')
    (hscalars : decodeAll r.deliverable = decodeAll r'.deliverable) :
    (stream false).Indistinguishable close r r' := by
  refine FiniteStream.Indistinguishable.of_simulation (R := fun r r' => r.EndAlike r' ∧
    decodeAll r.deliverable = decodeAll r'.deliverable) ?_ (fun _ _ h => h.1.close_eq) ⟨h, hscalars⟩
  -- the relation that is kept: the same code points ahead, and the same end
  rintro r r' ⟨h, hscalars⟩
  have hend := h.next
  obtain ⟨finish, closing, -, hr, hr'⟩ := h
  obtain ⟨hhead, -, htail⟩ := hr.next
  obtain ⟨hhead', -, htail'⟩ := hr'.next
  refine ⟨?_, hend, ?_⟩
  · exact hhead.trans ((congrArg List.head? hscalars).trans hhead'.symm)
  · exact htail.trans ((congrArg List.tail hscalars).trans htail'.symm)

end Scalars

namespace Lexer

/-- Two lexers at the same place of the same text. -/
structure Alike (l l' : Lexer) : Prop where
  mark : l.mark = l'.mark
  scalars : ∃ xs, l.Shows xs ∧ l'.Shows xs
  ends : l.window.inner.EndAlike l'.window.inner

variable {l l' : Lexer}

/-- One call finds the same token in both, and takes both to the same place. -/
theorem Alike.next (h : l.Alike l') :
    (Lexer.next false l).1 = (Lexer.next false l').1 ∧
      (Lexer.next false l).2.Alike (Lexer.next false l').2 := by
  obtain ⟨hmark, ⟨xs, hxs, hxs'⟩, finish, closing, hfinish, hr, hr'⟩ := h
  -- both lexers step through the same code points from the same mark
  obtain ⟨htoken, hbehind, -⟩ := l.next_step xs hxs
  obtain ⟨htoken', hbehind', -⟩ := l'.next_step xs hxs'
  rw [← hmark] at htoken' hbehind'
  refine ⟨htoken.trans htoken'.symm, hbehind.trans hbehind'.symm, ?_, ?_⟩
  · refine ⟨_, shows_next hxs, ?_⟩
    rw [hmark]
    exact shows_next hxs'
  · exact ⟨finish, closing, hfinish, l.next_inner (fun _ hr => hr.next.2.1) hr,
      l'.next_inner (fun _ hr => hr.next.2.1) hr'⟩

/-- **Lexers at the same place of the same text cannot be told apart.** -/
theorem Alike.indistinguishable (h : l.Alike l') :
    (stream false).Indistinguishable close l l' :=
  .of_simulation (fun _ _ h => h.next) (fun _ _ h => h.ends.close_eq) h

end Lexer

/-! ## Bodies -/

/-- The body of a file without faults, whose device hands out at most `n` bytes at a time. -/
def Body.inChunks (n : Nat) (path content : Bytes) : Body :=
  .ofDevice path { Device.ofContent content with chunk := some n }

/-- The body of a file without faults, whose device hands out as much as it is asked for. -/
def Body.whole (path content : Bytes) : Body := .ofDevice path (.ofContent content)

namespace Module

/-- **Nothing depends on the chunks that a file comes in.** Its code points, its tokens, and what
comes of parsing it, with the failure and the report, are those of the file as a whole. Its code
points are those of the content, each invalid byte the replacement character, and their widths add up
to the length of the content. -/
theorem ofBody_independent_of_chunks (path content : Bytes) (report : Report) {n : Nat}
    (hn : 0 < n) :
    (Scalars.stream false).Indistinguishable Scalars.close
      (.ofBody (.inChunks n path content)) (.ofBody (.whole path content)) ∧
    (∃ scalars, ((Scalars.stream false).drain (.ofBody (.inChunks n path content))).1 = scalars ∧
      Decodes content scalars ∧ (scalars.map (·.width)).sum = content.length) ∧
    (Lexer.stream false).Indistinguishable Lexer.close
      (.ofBody (.inChunks n path content)) (.ofBody (.whole path content)) ∧
    ofBody false path report (.ok (.inChunks n path content)) =
      ofBody false path report (.ok (.whole path content)) := by
  have hchunks : (Body.inChunks n path content).device.Flows := by
    simp only [Device.Flows, Body.inChunks, Body.ofDevice, ne_eq, Option.some.injEq]
    omega
  have hwhole : (Body.whole path content).device.Flows := by
    simp [Device.Flows, Body.whole, Body.ofDevice, Device.ofContent]
  have hsteady := Scalars.steady_ofBody hchunks
  have hsteady' := Scalars.steady_ofBody hwhole
  have hends : (Scalars.ofBody (.inChunks n path content)).EndAlike
      (.ofBody (.whole path content)) :=
    ⟨_, _, Body.isEndOfInput_finish _, hsteady, hsteady'⟩
  have hdecodes : Decodes content (decodeAll content) := decodes_iff.mpr rfl
  refine ⟨hends.indistinguishable rfl, ⟨_, hsteady.delivers.drain_eq, hdecodes, hdecodes.sum_width⟩,
    Lexer.Alike.indistinguishable ⟨rfl, ?_, hends⟩, ?_⟩
  · exact ⟨_, Lookahead.shows_start hsteady.delivers, Lookahead.shows_start hsteady'.delivers⟩
  · have htokens := tokens_of_isEnd hchunks rfl rfl
    have htokens' := tokens_of_isEnd hwhole rfl rfl
    simp only [ofBody, htokens, htokens']
    rfl

/-- A code point of three bytes across the edge of a buffer, in chunks of two. -/
theorem ofBody_independent_of_chunks_edge :
    0 < 2 ∧
    (Lexer.stream false).Indistinguishable Lexer.close
      (.ofBody (.inChunks 2 [0x61] (List.replicate 4095 0x20 ++ [0xE2, 0x82, 0xAC, 0x2B])))
      (.ofBody (.whole [0x61] (List.replicate 4095 0x20 ++ [0xE2, 0x82, 0xAC, 0x2B]))) ∧
    ofBody false [0x61] (.empty [])
        (.ok (.inChunks 2 [0x61] (List.replicate 4095 0x20 ++ [0xE2, 0x82, 0xAC, 0x2B]))) =
      ofBody false [0x61] (.empty [])
        (.ok (.whole [0x61] (List.replicate 4095 0x20 ++ [0xE2, 0x82, 0xAC, 0x2B]))) :=
  ⟨by decide, (ofBody_independent_of_chunks [0x61] _ (.empty []) (by decide)).2.2⟩

end Module

end Bracket
