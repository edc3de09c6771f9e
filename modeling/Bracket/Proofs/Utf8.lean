import Bracket.Utf8

/-!
# UTF-8, seen from its bytes

Facts about decoding a code point at the front of a byte string:

* `decode_append_of_isComplete`: once the bytes at hand decide the code point, further bytes do not
  change it, so that a buffer can be decoded before all bytes are there;
* `decode_high`: a code point whose first byte is not ASCII is not ASCII itself, and neither is any
  of its bytes. So an ASCII byte is always a code point of its own, in whatever garbage it stands.

A text can be cut where no code point reaches over the cut (`Splits`): then its code points are those
of the two parts, and the next one joins the first part (`Splits.scalar`).
-/

namespace Bracket.Utf8

/-! ## Shapes -/

/-- The lead bytes of each size. The first lead byte of three bytes, and that of four, leaves high
bits to its second byte. -/
theorem shape_lead (b : UInt8) :
    (shape b).size = 1 ∨
    ((shape b).size = 2 ∧ 194 ≤ b.toNat ∧ b.toNat < 224) ∨
    ((shape b).size = 3 ∧ 224 ≤ b.toNat ∧ b.toNat < 240 ∧
      (b.toNat = 224 → 160 ≤ (shape b).low.toNat)) ∨
    ((shape b).size = 4 ∧ 240 ≤ b.toNat ∧ b.toNat < 245 ∧
      (b.toNat = 240 → 144 ≤ (shape b).low.toNat)) := by
  unfold shape
  repeat' split
  all_goals simp_all [UInt8.lt_iff_toNat_lt, ← UInt8.toNat_inj]
  all_goals omega

/-- A lead byte promises one to four bytes. -/
theorem shape_size (b : UInt8) :
    (shape b).size = 1 ∨ (shape b).size = 2 ∨ (shape b).size = 3 ∨ (shape b).size = 4 := by
  have := shape_lead b
  omega

/-- A lead byte allows at most the bytes which continue a sequence, so no ASCII byte. -/
theorem shape_range (b : UInt8) : 128 ≤ (shape b).low.toNat ∧ (shape b).high.toNat ≤ 191 := by
  unfold shape
  repeat' split
  all_goals decide

/-- A lead byte of two bytes carries at least 2, so its code point is beyond ASCII. -/
theorem shape_two {b : UInt8} (h : (shape b).size = 2) : 2 ≤ b.toNat % 32 := by
  have := shape_lead b
  omega

/-- A sequence of three bytes carries high bits in its first byte, or else in its second. -/
theorem shape_three {b : UInt8} (h : (shape b).size = 3) :
    1 ≤ b.toNat % 16 ∨ 160 ≤ (shape b).low.toNat := by
  have := shape_lead b
  omega

/-- A sequence of four bytes carries high bits in its first byte, or else in its second. -/
theorem shape_four {b : UInt8} (h : (shape b).size = 4) :
    1 ≤ b.toNat % 8 ∨ 144 ≤ (shape b).low.toNat := by
  have := shape_lead b
  omega

/-! ## Decided code points -/

/-- A code point takes no more bytes than there are. -/
theorem decode_width_le (b : UInt8) (rest : Bytes) : (decode b rest).width ≤ rest.length + 1 := by
  unfold decode
  split
  · simp
  · dsimp only
    split <;> (try split) <;> simp [Scalar.invalid]

/-- Enough bytes for the promised sequence decide the code point. -/
theorem decode_append_of_size_le {b : UInt8} {rest : Bytes} (h : (shape b).size ≤ rest.length + 1)
    (more : Bytes) : decode b (rest ++ more) = decode b rest := by
  unfold decode
  split
  · rfl
  · obtain hs | hs | hs | hs := shape_size b <;> simp only [hs] at h ⊢
    · match rest, h with
      | c :: rest, _ => rfl
    · match rest, h with
      | c :: d :: rest, _ => rfl
    · match rest, h with
      | c :: d :: e :: rest, _ => rfl

/-- A second byte that the lead byte does not allow leaves an invalid byte. -/
theorem decode_of_not_admits {b c : UInt8} {rest : Bytes} (hb : ¬ b < 0x80)
    (h : (shape b).admits c = false) : decode b (c :: rest) = .invalid := by
  unfold decode
  rw [if_neg hb]
  obtain hs | hs | hs | hs := shape_size b <;> simp only [hs]
  · simp [h]
  · cases rest <;> simp [h]
  · rcases rest with _ | ⟨d, _ | ⟨e, rest⟩⟩ <;> simp [h]

/-- A third byte that does not continue a sequence of four leaves an invalid byte. -/
theorem decode_of_not_isContinuation {b c d : UInt8} {rest : Bytes} (hb : ¬ b < 0x80)
    (hs : (shape b).size = 4) (h : isContinuation d = false) :
    decode b (c :: d :: rest) = .invalid := by
  unfold decode
  rw [if_neg hb]
  simp only [hs]
  cases rest <;> simp [h]

/-- **A buffer that decides its first code point decides it for good.** -/
theorem decode_append_of_isComplete {b : UInt8} {rest : Bytes} (h : isComplete (b :: rest) = true)
    (more : Bytes) : decode b (rest ++ more) = decode b rest := by
  by_cases hb : b < 0x80
  · simp only [decode, if_pos hb]
  by_cases hsize : (shape b).size ≤ rest.length + 1
  · exact decode_append_of_size_le hsize more
  -- too few bytes, so one of them has already broken the promise
  simp only [isComplete, if_neg hsize] at h
  rcases rest with _ | ⟨c, _ | ⟨d, rest⟩⟩
  · simp at h
  · have hc : (shape b).admits c = false := by simpa using h
    rw [List.cons_append, decode_of_not_admits hb hc, decode_of_not_admits hb hc]
  · by_cases hc : (shape b).admits c = true
    · have hd : isContinuation d = false := by simpa [hc] using h
      have hs : (shape b).size = 4 := by
        simp only [List.length_cons] at hsize
        obtain hs | hs | hs | hs := shape_size b <;> omega
      rw [List.cons_append, List.cons_append, decode_of_not_isContinuation hb hs hd,
        decode_of_not_isContinuation hb hs hd]
    · have hc' : (shape b).admits c = false := by simpa using hc
      rw [List.cons_append, decode_of_not_admits hb hc', decode_of_not_admits hb hc']

/-! ## ASCII bytes -/

/-- An ASCII byte is a code point of its own, whatever comes behind it. -/
theorem decode_ascii {b : UInt8} (hb : b < 0x80) (rest : Bytes) :
    decode b rest = ⟨b.toNat, 1⟩ := by
  rw [decode, if_pos hb]

/-- A byte that a shape or a sequence allows behind the lead byte is not ASCII. -/
private theorem toNat_of_admits {b c : UInt8} (h : (shape b).admits c = true) :
    (shape b).low.toNat ≤ c.toNat ∧ c.toNat ≤ 191 := by
  simp only [Shape.admits, Bool.and_eq_true, decide_eq_true_eq, UInt8.le_iff_toNat_le] at h
  exact ⟨h.1, Nat.le_trans h.2 (shape_range b).2⟩

private theorem toNat_of_isContinuation {c : UInt8} (h : isContinuation c = true) :
    128 ≤ c.toNat := by
  simp only [isContinuation, Bool.and_eq_true, decide_eq_true_eq, UInt8.le_iff_toNat_le] at h
  exact h.1

/-- **A code point that does not start with an ASCII byte has nothing to do with ASCII**: neither
the code point nor any of its bytes is in that range. -/
theorem decode_high {b : UInt8} (hb : ¬ b < 0x80) (rest : Bytes) :
    128 ≤ (decode b rest).point ∧ ∀ c ∈ rest.take ((decode b rest).width - 1), 128 ≤ c.toNat := by
  have hinvalid : 128 ≤ Scalar.invalid.point ∧
      ∀ c ∈ rest.take (Scalar.invalid.width - 1), 128 ≤ c.toNat := by
    simp [Scalar.invalid, replacement]
  have hlow := (shape_range b).1
  unfold decode
  rw [if_neg hb]
  dsimp only
  split
  · next c _ hs =>
    have hb2 := shape_two hs
    split
    · next hc =>
      have hc' := toNat_of_admits hc
      refine ⟨by dsimp only; omega, ?_⟩
      simp only [Nat.add_one_sub_one, List.take_succ_cons, List.take_zero, List.mem_singleton]
      rintro _ rfl
      omega
    · exact hinvalid
  · next c d _ hs =>
    have hb3 := shape_three hs
    split
    · next hcd =>
      simp only [Bool.and_eq_true] at hcd
      have hc' := toNat_of_admits hcd.1
      have hd' := toNat_of_isContinuation hcd.2
      refine ⟨by simp only [payload]; omega, ?_⟩
      simp only [Nat.add_one_sub_one, List.take_succ_cons, List.take_zero, List.mem_cons,
        List.not_mem_nil, or_false]
      rintro _ (rfl | rfl) <;> omega
    · exact hinvalid
  · next c d e _ hs =>
    have hb4 := shape_four hs
    split
    · next hcde =>
      simp only [Bool.and_eq_true] at hcde
      have hc' := toNat_of_admits hcde.1.1
      have hd' := toNat_of_isContinuation hcde.1.2
      have he' := toNat_of_isContinuation hcde.2
      refine ⟨by simp only [payload]; omega, ?_⟩
      simp only [Nat.add_one_sub_one, List.take_succ_cons, List.take_zero, List.mem_cons,
        List.not_mem_nil, or_false]
      rintro _ (rfl | rfl | rfl) <;> omega
    · exact hinvalid
  · exact hinvalid

/-- All bytes of such a code point, the first one included. -/
theorem decode_high_bytes {b : UInt8} (hb : ¬ b < 0x80) (rest : Bytes) :
    ∀ c ∈ b :: rest.take ((decode b rest).width - 1), 128 ≤ c.toNat := by
  rw [List.forall_mem_cons]
  refine ⟨?_, (decode_high hb rest).2⟩
  simpa [UInt8.lt_iff_toNat_lt] using hb

/-- An ASCII code point is read exactly where its byte stands. -/
theorem decode_point_eq_iff {p : UInt8} (hp : p < 0x80) (b : UInt8) (rest : Bytes) :
    (decode b rest).point = p.toNat ↔ b = p := by
  constructor
  · intro h
    by_cases hb : b < 0x80
    · rw [decode_ascii hb] at h
      exact UInt8.toNat_inj.mp h
    · have hhigh := (decode_high hb rest).1
      have hlow : p.toNat < 128 := by simpa [UInt8.lt_iff_toNat_lt] using hp
      omega
  · rintro rfl
    rw [decode_ascii hp]

/-- The same for the first code point of a text. -/
theorem head?_decodeAll_point_eq_iff {p : UInt8} (hp : p < 0x80) (text : Bytes) :
    (decodeAll text).head?.map (·.point) = some p.toNat ↔ text.head? = some p := by
  cases text with
  | nil => simp [decodeAll]
  | cons b rest => simp [decodeAll, decode_point_eq_iff hp]

/-- A text of ASCII bytes is valid. -/
theorem isValid_of_ascii {text : Bytes} (h : text.all (· < 0x80) = true) : isValid text = true := by
  unfold isValid
  fun_induction decodeAll text with
  | case1 => rfl
  | case2 b rest s ih =>
    obtain ⟨hb, hrest⟩ : b < 0x80 ∧ rest.all (· < 0x80) = true := by simpa using h
    have hs : s = ⟨b.toNat, 1⟩ := decode_ascii hb rest
    have hvalid : s ≠ .invalid := by
      intro hinvalid
      have hpoint := congrArg Scalar.point (hs.symm.trans hinvalid)
      have hlt : b.toNat < 128 := UInt8.lt_iff_toNat_lt.mp hb
      simp only [Scalar.invalid, replacement] at hpoint
      omega
    rw [hs] at ih hvalid ⊢
    rw [List.all_cons, ih hrest]
    simpa using hvalid

/-- A text of ASCII bytes has as many code points as bytes. -/
theorem length_decodeAll_of_ascii {text : Bytes} (h : ∀ b ∈ text, b < 0x80) :
    (decodeAll text).length = text.length := by
  induction text with
  | nil => simp [decodeAll]
  | cons b rest ih =>
    obtain ⟨hb, hrest⟩ := List.forall_mem_cons.mp h
    rw [decodeAll, decode_ascii hb, List.length_cons, List.length_cons]
    exact congrArg (· + 1) (ih hrest)

/-! ## The byte order mark -/

/-- The bytes of the byte order mark. -/
def byteOrderMarkBytes : Bytes := [0xEF, 0xBB, 0xBF]

/-- The byte order mark has one spelling. -/
theorem decode_point_eq_byteOrderMark_iff (b : UInt8) (rest : Bytes) :
    (decode b rest).point = 0xFEFF ↔ byteOrderMarkBytes <+: b :: rest := by
  constructor
  · intro h
    have hb : ¬ b < 0x80 := by
      intro hb
      rw [decode_ascii hb] at h
      have := b.toNat_lt
      simp only at h
      omega
    have hinvalid : Scalar.invalid.point ≠ 0xFEFF := by decide
    unfold decode at h
    rw [if_neg hb] at h
    dsimp only at h
    split at h
    · -- two bytes hold too little
      split at h
      · simp only [payload] at h
        omega
      · exact absurd h hinvalid
    · next c d rest hs =>
      split at h
      · next hcd =>
        have hlead := shape_lead b
        simp only [Shape.admits, isContinuation, Bool.and_eq_true, decide_eq_true_eq,
          UInt8.le_iff_toNat_le] at hcd
        have hrange := shape_range b
        simp only [payload] at h
        have hd : d.toNat ≤ 191 := hcd.2.2
        have hd' : 128 ≤ d.toNat := hcd.2.1
        obtain ⟨rfl, rfl, rfl⟩ : b = 0xEF ∧ c = 0xBB ∧ d = 0xBF := by
          simp only [← UInt8.toNat_inj, UInt8.reduceToNat]
          omega
        exact ⟨rest, rfl⟩
      · exact absurd h hinvalid
    · next c d e rest hs =>
      -- four bytes are for what lies beyond
      split at h
      · next hcde =>
        have hlead := shape_four hs
        have hc := toNat_of_admits (Bool.and_eq_true_iff.mp (Bool.and_eq_true_iff.mp hcde).1).1
        simp only [payload] at h
        omega
      · exact absurd h hinvalid
    · exact absurd h hinvalid
  · rintro ⟨more, hmore⟩
    obtain ⟨rfl, rfl⟩ : (0xEF : UInt8) = b ∧ 0xBB :: 0xBF :: more = rest := by
      simpa [byteOrderMarkBytes] using hmore
    rfl

/-! ## Cutting a text -/

/-- A text has no more code points than bytes. -/
theorem length_decodeAll_le (text : Bytes) : (decodeAll text).length ≤ text.length := by
  fun_induction decodeAll text with
  | case1 => simp
  | case2 b rest s ih =>
    rw [List.length_drop] at ih
    simp only [List.length_cons]
    omega

/-- A code point depends on its own bytes only: what stands behind them may be cut off. -/
theorem decode_take (b : UInt8) (rest : Bytes) {n : Nat} (h : (decode b rest).width ≤ n + 1) :
    decode b (rest.take n) = decode b rest := by
  -- cutting bytes off the code point itself would leave too few bytes for its shape
  by_cases hb : b < 0x80
  · simp only [decode, if_pos hb]
  unfold decode at h ⊢
  rw [if_neg hb] at h ⊢
  rw [if_neg hb]
  obtain hs | hs | hs | hs := shape_size b <;> simp only [hs] at h ⊢
  · rcases rest with _ | ⟨c, rest⟩ <;> rcases n with _ | n <;>
      simp only [List.take_nil, List.take_zero, List.take_succ_cons] at h ⊢
    split at h <;> simp_all
  · rcases rest with _ | ⟨c, _ | ⟨d, rest⟩⟩ <;> rcases n with _ | _ | n <;>
      simp only [List.take_nil, List.take_zero, List.take_succ_cons] at h ⊢
    all_goals split at h <;> simp_all
  · rcases rest with _ | ⟨c, _ | ⟨d, _ | ⟨e, rest⟩⟩⟩ <;> rcases n with _ | _ | _ | n <;>
      simp only [List.take_nil, List.take_zero, List.take_succ_cons] at h ⊢
    all_goals split at h <;> simp_all

/-- The first code point, and then those of what stands behind its bytes. -/
theorem decodeAll_cons (b : UInt8) (rest : Bytes) :
    decodeAll (b :: rest) =
      decode b rest :: decodeAll (rest.drop ((decode b rest).width - 1)) := by
  rw [decodeAll]

/-- No code point reaches from the first part into the second. -/
def Splits (front rest : Bytes) : Prop :=
  decodeAll (front ++ rest) = decodeAll front ++ decodeAll rest

theorem splits_nil (rest : Bytes) : Splits [] rest := by simp [Splits, decodeAll]

/-- The bytes of a code point decode to it alone. -/
theorem decodeAll_own (b : UInt8) (rest : Bytes) :
    decodeAll (b :: rest.take ((decode b rest).width - 1)) = [decode b rest] := by
  have hwidth := decode_width_pos b rest
  have hown := decode_take b rest (n := (decode b rest).width - 1) (by omega)
  rw [decodeAll, hown]
  simp [decodeAll]

/-- **The code point behind a split is one more code point of the first part.** -/
theorem Splits.scalar {front rest : Bytes} {b : UInt8} (h : Splits front (b :: rest)) :
    decodeAll (front ++ b :: rest.take ((decode b rest).width - 1)) =
      decodeAll front ++ [decode b rest] := by
  match front with
  | [] =>
    rw [List.nil_append, decodeAll_own, decodeAll, List.nil_append]
  | a :: front =>
    -- the first code point is the same with all bytes, with the cut ones and without them
    have hfirst := h
    rw [Splits, List.cons_append, decodeAll_cons, decodeAll_cons, List.cons_append] at hfirst
    obtain ⟨hsame, htail⟩ := List.cons.inj hfirst
    rw [hsame] at htail
    have hwidth := decode_width_le a front
    have hcut :
        decode a (front ++ b :: rest.take ((decode b rest).width - 1)) = decode a front := by
      have htake : (front ++ b :: rest).take (front.length + (decode b rest).width) =
          front ++ b :: rest.take ((decode b rest).width - 1) := by
        have hpos := decode_width_pos b rest
        obtain ⟨w, hw⟩ : ∃ w, (decode b rest).width = w + 1 := ⟨(decode b rest).width - 1, by omega⟩
        rw [List.take_length_add_append, hw, List.take_succ_cons, Nat.add_sub_cancel]
      rw [← htake, decode_take a _ (by rw [hsame]; omega), hsame]
    have hsplit : Splits (front.drop ((decode a front).width - 1)) (b :: rest) := by
      rw [List.drop_append_of_le_length (by omega)] at htail
      exact htail
    have ih := hsplit.scalar
    rw [List.cons_append, decodeAll_cons, hcut, List.drop_append_of_le_length (by omega), ih,
      decodeAll_cons, List.cons_append]
termination_by front.length

/-- Behind the next code point the parts split again. -/
theorem Splits.next {front rest : Bytes} {b : UInt8} (h : Splits front (b :: rest)) :
    Splits (front ++ b :: rest.take ((decode b rest).width - 1))
      (rest.drop ((decode b rest).width - 1)) := by
  rw [Splits, h.scalar, List.append_assoc, List.cons_append, List.take_append_drop, h,
    decodeAll_cons, List.append_assoc]
  rfl

end Bracket.Utf8
