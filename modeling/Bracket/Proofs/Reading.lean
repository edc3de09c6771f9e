import Mathlib.Data.List.Forall2
import Bracket.FileSystem
import Bracket.Proofs.Delivery

/-!
# Reading a file

Whoever reads a body chooses the sizes of the pieces, and the device behind it has its own. Between
them stands a buffer, which a small read fills and a large one goes past. None of this can be seen in
the bytes: a body that has handed out some of its content keeps the rest (`Body.Keeps`), every read
moves at least one byte from the rest to the reader, and only when nothing is left it tells the end
(`Body.Keeps.read`).

`File.reads_deliver_content_once` says this for any sequence of reads, and for any number of times
that the file is opened: each time its content starts again from the first byte.
-/

namespace Bracket

namespace Body

/-- The answers to reads of the given sizes, one after the other. Reading goes on behind a read that
fails. -/
def answers (b : Body) : List Nat → List Delivery
  | [] => []
  | n :: sizes => (b.read false n).1 :: (b.read false n).2.answers sizes

/-- The end of the body of a file, caused by the end of input. -/
def finished (path : Bytes) : Diagnosis := .wrap (.ofUri path) .endOfBody .endOfInput

/-- The right answer to a read of `n` bytes of a content, of which some were handed out before. -/
structure Answers (path content before : Bytes) (n : Nat) (answer : Delivery) : Prop where
  length_le : answer.content.length ≤ n
  bytes : before ++ answer.content <+: content
  finished_iff : answer = .failed (finished path).toFailure ↔ before = content
  exists_piece : before ≠ content → ∃ piece, piece ≠ [] ∧ answer = .data piece

/-- The body has handed out some bytes of a content, and will hand out the rest. -/
structure Keeps (path content before : Bytes) (b : Body) : Prop where
  uri : b.uri = path
  flows : b.device.Flows
  ending : b.device.ending = .fail .endOfInput
  bytes : before ++ b.deliverable = content

variable {path content before : Bytes} {b : Body}

/-- A body that has come to its end stays there. -/
theorem Keeps.read_end (h : b.Keeps path content before) (hend : b.deliverable = []) {n : Nat}
    (hn : 0 < n) : b.read false n = (.failed (finished path).toFailure, b) := by
  have hanswer : b.endAnswer = .failed (finished path).toFailure := by
    rw [endAnswer, h.ending, finished, ← h.uri]
    rfl
  rw [Body.read_end hend hn, hanswer]

/-- **One read** is answered rightly, and the body keeps what it did not hand out. -/
theorem Keeps.read (h : b.Keeps path content before) {n : Nat} (hn : 0 < n) :
    Answers path content before n (b.read false n).1 ∧
      (b.read false n).2.Keeps path content (before ++ (b.read false n).1.content) := by
  -- a read either tells the end or delivers a piece of what is left
  by_cases hend : b.deliverable = []
  · have hall : before = content := by simpa [hend] using h.bytes
    rw [h.read_end hend hn]
    refine ⟨⟨Nat.zero_le _, ?_, iff_of_true rfl hall, fun hne => absurd hall hne⟩, ?_⟩
    · simp [Delivery.content, hall]
    · simpa [Delivery.content] using h
  · obtain ⟨piece, b', hread, hpiece, hlength, hyields⟩ := read_piece h.flows hend hn
    have hbytes : before ++ piece ++ b'.deliverable = content := by
      rw [List.append_assoc, ← hyields.bytes, h.bytes]
    have hmore : before ≠ content := by
      rintro rfl
      exact hend (by simpa using h.bytes)
    rw [hread]
    refine ⟨⟨hlength, ⟨_, hbytes⟩, iff_of_false (by simp) hmore, fun _ => ⟨piece, hpiece, rfl⟩⟩, ?_⟩
    refine ⟨hyields.uri.trans h.uri, ?_, hyields.ending.trans h.ending, hbytes⟩
    rw [Device.Flows, hyields.chunk]
    exact h.flows

/-- **A run of reads** hands out the content piece by piece, each of them answered rightly. -/
theorem Keeps.answers (h : b.Keeps path content before) {sizes : List Nat}
    (hsizes : ∀ n ∈ sizes, 0 < n) :
    (b.answers sizes).length = sizes.length ∧
    before ++ (b.answers sizes).flatMap Delivery.content <+: content ∧
    ∀ i n, sizes[i]? = some n → ∃ answer, (b.answers sizes)[i]? = some answer ∧
      Answers path content (before ++ ((b.answers sizes).take i).flatMap Delivery.content) n
        answer := by
  induction sizes generalizing b before with
  | nil => exact ⟨rfl, ⟨_, by simpa [Body.answers] using h.bytes⟩, by simp⟩
  | cons size sizes ih =>
    obtain ⟨hsize, hrest⟩ := List.forall_mem_cons.mp hsizes
    obtain ⟨hanswer, hkeeps⟩ := h.read hsize
    obtain ⟨hlength, hbytes, hanswers⟩ := ih hkeeps hrest
    refine ⟨by simp [Body.answers, hlength], by simpa [Body.answers] using hbytes, ?_⟩
    -- the first answer, and the later ones behind its piece
    rintro (_ | i) n hi
    · obtain rfl : size = n := by simpa using hi
      exact ⟨_, rfl, by simpa using hanswer⟩
    · obtain ⟨answer, hget, hright⟩ := hanswers i n (by simpa using hi)
      exact ⟨answer, hget, by simpa [Body.answers] using hright⟩

end Body

namespace File

variable {σ : Type}

/-- The file is opened once for each list of sizes, and then read in pieces of these sizes. -/
def sessions (file : File σ) (s : σ) : List (List Nat) → List (Except Failure (List Delivery))
  | [] => []
  | sizes :: runs =>
    (file.body s).1.map (·.answers sizes) :: file.sessions (file.body s).2 runs

/-- Whenever it is opened, the file comes from a device that has this content and no fault. The
device may deliver in chunks, which are not empty. -/
def Stores (file : File σ) (content : Bytes) : Prop :=
  ∀ s, ∃ chunk closing, chunk ≠ some 0 ∧ (file.access s).1 = .ok ⟨content, none, chunk, closing⟩

variable {file : File σ} {content : Bytes}

/-- A file that was just opened has handed out nothing yet. -/
theorem Stores.exists_body (h : file.Stores content) (s : σ) :
    ∃ body, (file.body s).1 = .ok body ∧ body.Keeps file.path content [] := by
  obtain ⟨chunk, closing, hchunk, haccess⟩ := h s
  refine ⟨.ofDevice file.path ⟨content, none, chunk, closing⟩, ?_, rfl, hchunk, rfl, rfl⟩
  have hbody : (file.body s).1 = Body.ofOpened file.path (file.access s).1 := rfl
  rw [hbody, haccess]
  rfl

/-- **Reads deliver the content exactly once.** However often a file is opened, and whatever sizes it
is read in each time: a read gets at most as many bytes as it asks for, and together they are a
prefix of the content. A read is told the end if and only if all of the content was handed out
before, and otherwise gets at least one byte. -/
theorem reads_deliver_content_once (hfile : file.Stores content) (s : σ) {runs : List (List Nat)}
    (hruns : ∀ sizes ∈ runs, ∀ n ∈ sizes, 0 < n) :
    List.Forall₂ (fun sizes outcome => ∃ answers, outcome = .ok answers ∧
      answers.length = sizes.length ∧ answers.flatMap Delivery.content <+: content ∧
      ∀ i n, sizes[i]? = some n → ∃ answer, answers[i]? = some answer ∧
        Body.Answers file.path content ((answers.take i).flatMap Delivery.content) n answer)
      runs (file.sessions s runs) := by
  induction runs generalizing s with
  | nil => exact .nil
  | cons sizes runs ih =>
    obtain ⟨hsizes, hrest⟩ := List.forall_mem_cons.mp hruns
    -- every run opens the file again and starts from its first byte
    obtain ⟨body, hbody, hkeeps⟩ := hfile.exists_body s
    refine .cons ⟨body.answers sizes, by rw [hbody]; rfl, ?_⟩ (ih _ hrest)
    simpa using hkeeps.answers hsizes

/-- Seven bytes that come in chunks of three. -/
def inThrees : File Unit where
  path := bytes "/a.bf"
  kind := .brainfuck
  access s := (.ok { Device.ofContent (bytes "+[->+<]") with chunk := some 3 }, s)

/-- They are read in small and large pieces, past the end, and then once more. -/
theorem reads_deliver_content_once_again :
    inThrees.Stores (bytes "+[->+<]") ∧
    (∀ sizes ∈ [[2, 5000, 1, 4096, 7, 1], [4096]], ∀ n ∈ sizes, 0 < n) ∧
    ∃ first second, inThrees.sessions () [[2, 5000, 1, 4096, 7, 1], [4096]] =
        [.ok first, .ok second] ∧
      first.flatMap Delivery.content <+: bytes "+[->+<]" ∧
      ∃ piece, second[0]? = some (.data piece) ∧ piece ≠ [] ∧ piece <+: bytes "+[->+<]" := by
  have hstores : inThrees.Stores (bytes "+[->+<]") :=
    fun _ => ⟨some 3, none, by decide, rfl⟩
  have hruns : ∀ sizes ∈ [[2, 5000, 1, 4096, 7, 1], [4096]], ∀ n ∈ sizes, 0 < n := by decide
  refine ⟨hstores, hruns, ?_⟩
  have hall := reads_deliver_content_once hstores () hruns
  generalize inThrees.sessions () [[2, 5000, 1, 4096, 7, 1], [4096]] = outcomes at hall ⊢
  obtain _ | ⟨⟨first, rfl, -, hfirst, -⟩, _ | ⟨⟨second, rfl, -, -, hsecond⟩, _ | _⟩⟩ := hall
  obtain ⟨answer, hanswer, hright⟩ := hsecond 0 4096 rfl
  rw [List.take_zero, List.flatMap_nil] at hright
  obtain ⟨piece, hpiece, rfl⟩ := hright.exists_piece (by decide)
  exact ⟨first, second, rfl, hfirst, piece, hanswer, hpiece, hright.bytes⟩

end File

end Bracket
