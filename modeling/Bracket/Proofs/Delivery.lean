import Bracket.Input.Body

/-!
# What a device and a body hand out

A device has bytes that it will deliver (`Device.deliverable`) and something that it does when they
are used up (`Device.ending`). How it cuts the bytes into pieces is of no concern: a read takes a
piece off the front and changes nothing else (`Device.read_piece`), and at the end every read is
answered alike (`Device.read_end`).

A body hides its buffer in the same way: `Body.deliverable` is what the buffer holds and then what
the device delivers. The statements hold for every device whose pieces are not empty, whatever its
faults.
-/

namespace Bracket

/-- The answer to every read after the last byte. -/
def Breakdown.answer : Breakdown → Delivery
  | .stall => .data []
  | .fail f => .failed f

namespace Device

/-- The pieces of the device are not empty. -/
def Flows (d : Device) : Prop := d.chunk ≠ some 0

/-- The bytes that are delivered before the end of input or a breakdown. -/
def deliverable (d : Device) : Bytes :=
  match d.breakdown with
  | some (left, _) => d.content.take left
  | none => d.content

/-- What the device does after its last byte; the end of input is a failure like others. -/
def ending (d : Device) : Breakdown :=
  match d.breakdown with
  | some (left, b) => if left ≤ d.content.length then b else .fail .endOfInput
  | none => .fail .endOfInput

/-- `d'` is `d` after it delivered `piece`. -/
structure Yields (d : Device) (piece : Bytes) (d' : Device) : Prop where
  bytes : d.deliverable = piece ++ d'.deliverable
  ending : d'.ending = d.ending
  chunk : d'.chunk = d.chunk
  closing : d'.closing = d.closing

/-- A read after the last byte. -/
theorem read_end {d : Device} (h : d.deliverable = []) (n : Nat) :
    d.read n = (d.ending.answer, d) := by
  obtain ⟨content, breakdown, chunk, closing⟩ := d
  match breakdown with
  | none =>
    obtain rfl : content = [] := h
    rfl
  | some (0, .stall) => rfl
  | some (0, .fail f) => rfl
  | some (left + 1, b) =>
    obtain rfl : content = [] := by
      cases content with
      | nil => rfl
      | cons _ _ => simp [deliverable] at h
    rfl

/-- A read takes at least one byte as long as there is one. -/
theorem most_pos {d : Device} (hf : d.Flows) (hd : d.deliverable ≠ []) {n : Nat} (hn : 0 < n) :
    0 < d.most n := by
  obtain ⟨content, breakdown, chunk, closing⟩ := d
  have hk : ∀ k, chunk = some k → 0 < k := by
    intro k hk
    refine Nat.pos_of_ne_zero fun h0 => hf ?_
    rw [hk, h0]
  have hleft : ∀ left b, breakdown = some (left, b) → 0 < left := by
    rintro left b rfl
    refine Nat.pos_of_ne_zero fun h0 => hd ?_
    simp [deliverable, h0]
  rcases breakdown with _ | ⟨left, b⟩ <;> rcases chunk with _ | k <;>
    simp only [most, Nat.lt_min]
  · exact hn
  · exact ⟨hn, hk k rfl⟩
  · exact ⟨hn, hleft left b rfl⟩
  · exact ⟨⟨hn, hleft left b rfl⟩, hk k rfl⟩

/-- No read delivers more than was asked for. -/
theorem most_le (d : Device) (n : Nat) : d.most n ≤ n := by
  obtain ⟨content, breakdown, chunk, closing⟩ := d
  rcases breakdown with _ | ⟨left, b⟩ <;> rcases chunk with _ | k <;> simp only [most] <;> omega

/-- No read goes beyond a breakdown. -/
theorem most_le_left {d : Device} {left : Nat} {b : Breakdown} (h : d.breakdown = some (left, b))
    (n : Nat) : d.most n ≤ left := by
  obtain ⟨content, breakdown, chunk, closing⟩ := d
  obtain rfl : breakdown = some (left, b) := h
  rcases chunk with _ | k <;> simp only [most] <;> omega

private theorem take_eq_take_append {l : Bytes} {m left : Nat} (h : m ≤ left) :
    l.take left = l.take m ++ (l.drop m).take (left - (l.take m).length) := by
  rw [List.length_take]
  by_cases hm : m ≤ l.length
  · rw [Nat.min_eq_left hm, ← List.take_add, Nat.add_sub_cancel' h]
  · rw [List.drop_eq_nil_of_le (by omega), List.take_of_length_le (by omega),
      List.take_of_length_le (by omega), List.take_nil, List.append_nil]

/-- A read before the last byte takes a piece off the front. -/
theorem read_piece {d : Device} (hf : d.Flows) (hd : d.deliverable ≠ []) {n : Nat} (hn : 0 < n) :
    ∃ piece d', d.read n = (.data piece, d') ∧ piece ≠ [] ∧ piece.length ≤ n ∧
      d.Yields piece d' := by
  have hpos := most_pos hf hd hn
  have hle := d.most_le n
  have hcontent : d.content ≠ [] := by
    intro hc
    apply hd
    cases hb : d.breakdown <;> simp [deliverable, hb, hc]
  have hread : d.read n = (.data (d.content.take (d.most n)), { d with
      content := d.content.drop (d.most n)
      breakdown := d.breakdown.map fun x => (x.1 - (d.content.take (d.most n)).length, x.2) }) := by
    unfold read
    split
    · next hb => simp [deliverable, hb] at hd
    · next hb => simp [deliverable, hb] at hd
    · split
      · next hc => exact absurd hc hcontent
      · rfl
  refine ⟨_, _, hread, ?_, ?_, ?_⟩
  · rw [ne_eq, List.take_eq_nil_iff]
    rintro (h | h)
    · omega
    · exact hcontent h
  · rw [List.length_take]
    omega
  · -- a breakdown comes nearer by as many bytes as were delivered
    cases hb : d.breakdown with
    | none =>
      refine ⟨?_, ?_, rfl, rfl⟩
      · simp [deliverable, hb]
      · simp [Device.ending, hb]
    | some pair =>
      obtain ⟨left, b⟩ := pair
      have hleft := most_le_left hb n
      refine ⟨?_, ?_, rfl, rfl⟩
      · simp only [deliverable, hb, Option.map_some]
        exact take_eq_take_append hleft
      · have hiff : left - min (d.most n) d.content.length ≤ d.content.length - d.most n ↔
            left ≤ d.content.length := by omega
        simp only [Device.ending, hb, Option.map_some, List.length_take, List.length_drop, hiff]

end Device

/-! ## Bodies -/

namespace Body

/-- The bytes that are handed out before the end: those in the buffer, then those of the device. -/
def deliverable (b : Body) : Bytes := b.unread ++ b.device.deliverable

/-- `b'` is `b` after it handed out `piece`. -/
structure Yields (b : Body) (piece : Bytes) (b' : Body) : Prop where
  bytes : b.deliverable = piece ++ b'.deliverable
  uri : b'.uri = b.uri
  ending : b'.device.ending = b.device.ending
  chunk : b'.device.chunk = b.device.chunk
  closing : b'.device.closing = b.device.closing

/-- The answer to every read after the last byte. -/
def endAnswer (b : Body) : Delivery :=
  match b.device.ending with
  | .stall => .data []
  | .fail f => .failed (b.diagnose f).toFailure

theorem read_end {b : Body} (h : b.deliverable = []) {n : Nat} (hn : 0 < n) :
    b.read false n = (b.endAnswer, b) := by
  obtain ⟨uri, unread, device⟩ := b
  obtain ⟨rfl, hdevice⟩ : unread = [] ∧ device.deliverable = [] := List.append_eq_nil_iff.mp h
  have hn' : n ≠ 0 := by omega
  have hfetch : fetch ⟨uri, [], device⟩ n = (device.ending.answer, ⟨uri, [], device⟩) := by
    unfold fetch
    rw [if_neg hn', if_neg (by simp)]
    split
    · rw [Device.read_end hdevice]
    · rw [Device.read_end hdevice]
      cases device.ending with
      | stall => simp [Breakdown.answer]
      | fail f => rfl
  simp only [read, Bool.false_eq_true, if_false, hfetch, endAnswer]
  cases device.ending <;> rfl

/-- A read before the last byte takes a piece off the front. -/
theorem read_piece {b : Body} (hf : b.device.Flows) (hb : b.deliverable ≠ []) {n : Nat}
    (hn : 0 < n) :
    ∃ piece b', b.read false n = (.data piece, b') ∧ piece ≠ [] ∧ piece.length ≤ n ∧
      b.Yields piece b' := by
  have hn' : n ≠ 0 := by omega
  suffices h : ∃ piece b', b.fetch n = (.data piece, b') ∧ piece ≠ [] ∧ piece.length ≤ n ∧
      b.Yields piece b' by
    obtain ⟨piece, b', hfetch, h⟩ := h
    exact ⟨piece, b', by simp only [read, Bool.false_eq_true, if_false, hfetch], h⟩
  unfold fetch
  rw [if_neg hn']
  by_cases hunread : b.unread = []
  · have hdevice : b.device.deliverable ≠ [] := by simpa [deliverable, hunread] using hb
    rw [if_neg (by simpa using hunread)]
    by_cases hlarge : bufferSize ≤ n
    · -- past the empty buffer, straight from the device
      obtain ⟨piece, d', hread, hne, hlen, hy⟩ := Device.read_piece hf hdevice hn
      rw [if_pos hlarge, hread]
      refine ⟨piece, _, rfl, hne, hlen, ?_, rfl, hy.ending, hy.chunk, hy.closing⟩
      simp only [deliverable, hunread, List.nil_append]
      exact hy.bytes
    · obtain ⟨piece, d', hread, hne, hlen, hy⟩ :=
        Device.read_piece hf hdevice (show 0 < bufferSize by decide)
      rw [if_neg hlarge, hread]
      refine ⟨piece.take n, _, rfl, ?_, ?_, ?_, rfl, hy.ending, hy.chunk, hy.closing⟩
      · simp [hn', hne]
      · exact List.length_take_le n piece
      · simp only [deliverable, hunread, List.nil_append]
        rw [hy.bytes, ← List.append_assoc, List.take_append_drop]
  · rw [if_pos hunread]
    refine ⟨b.unread.take n, _, rfl, ?_, ?_, ?_, rfl, rfl, rfl, rfl⟩
    · simp [hn', hunread]
    · exact List.length_take_le n b.unread
    · simp only [deliverable]
      rw [← List.append_assoc, List.take_append_drop]

end Body

end Bracket
