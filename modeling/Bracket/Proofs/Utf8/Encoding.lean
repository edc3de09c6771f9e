import Bracket.Proofs.Utf8

/-!
# Code points and their bytes

`Decodes` says what decoding a byte string has to give, in terms of the bytes of code points only:
where the bytes of some code point stand, that code point; where those of none do, one invalid byte.
Surrogates have no bytes. `decodes_iff` says that `decodeAll` is the one list with this property.

It rests on the two directions of one table: the bytes of a code point are decoded to it
(`decodeAll_encode_append`), and a code point that was decoded has just the bytes it was decoded from
(`encode_decode`).
-/

namespace Bracket.Utf8

/-- A code point that has bytes: one within the range of code points that is no surrogate. -/
def IsEncodable (point : Nat) : Prop :=
  point < 0xD800 ∨ (0xE000 ≤ point ∧ point ≤ 0x10FFFF)

/-- The code points of a byte string. Where no code point has its bytes, a single byte is invalid. -/
inductive Decodes : Bytes → List Scalar → Prop where
  | nil : Decodes [] []
  | point {point : Nat} {rest : Bytes} {scalars : List Scalar} : IsEncodable point →
      Decodes rest scalars →
      Decodes (encode point ++ rest) (⟨point, (encode point).length⟩ :: scalars)
  | invalid {b : UInt8} {rest : Bytes} {scalars : List Scalar} :
      (∀ point, IsEncodable point → ¬ encode point <+: b :: rest) →
      Decodes rest scalars → Decodes (b :: rest) (.invalid :: scalars)

/-! ## The table of lead bytes -/

theorem toNat_toUInt8 {n : Nat} (h : n < 256) : n.toUInt8.toNat = n := by
  simp [Nat.mod_eq_of_lt h]

theorem shape_of_lead_two {b : UInt8} (hlow : 194 ≤ b.toNat) (hhigh : b.toNat < 224) :
    shape b = ⟨2, 0x80, 0xBF⟩ := by
  unfold shape
  simp only [UInt8.lt_iff_toNat_lt, UInt8.reduceToNat]
  rw [if_neg (by omega), if_pos hhigh]

/-- The first lead byte of three bytes keeps out what has two, and the last but two surrogates. -/
theorem shape_of_lead_three {b : UInt8} (hlow : 224 ≤ b.toNat) (hhigh : b.toNat < 240) :
    shape b = ⟨3, if b.toNat = 224 then 0xA0 else 0x80, if b.toNat = 237 then 0x9F else 0xBF⟩ := by
  unfold shape
  simp only [UInt8.lt_iff_toNat_lt, ← UInt8.toNat_inj, UInt8.reduceToNat]
  rw [if_neg (by omega), if_neg (by omega)]
  by_cases hfirst : b.toNat = 224
  · simp [hfirst]
  · by_cases hsurrogate : b.toNat = 237
    · simp [hsurrogate]
    · simp [hfirst, hsurrogate, hhigh]

/-- The first lead byte of four bytes keeps out what has three, and the last what lies beyond the
code points. -/
theorem shape_of_lead_four {b : UInt8} (hlow : 240 ≤ b.toNat) (hhigh : b.toNat < 245) :
    shape b = ⟨4, if b.toNat = 240 then 0x90 else 0x80, if b.toNat = 244 then 0x8F else 0xBF⟩ := by
  unfold shape
  simp only [UInt8.lt_iff_toNat_lt, ← UInt8.toNat_inj, UInt8.reduceToNat]
  rw [if_neg (by omega), if_neg (by omega), if_neg (by omega), if_neg (by omega),
    if_neg (by omega)]
  by_cases hfirst : b.toNat = 240
  · simp [hfirst]
  · by_cases hlast : b.toNat = 244
    · simp [hlast]
    · have hbetween : b.toNat < 244 := by omega
      simp [hfirst, hlast, hbetween]

theorem admits_iff {s : Shape} {c : UInt8} :
    s.admits c = true ↔ s.low.toNat ≤ c.toNat ∧ c.toNat ≤ s.high.toNat := by
  simp [Shape.admits, UInt8.le_iff_toNat_le]

theorem isContinuation_iff {c : UInt8} :
    isContinuation c = true ↔ 128 ≤ c.toNat ∧ c.toNat ≤ 191 := by
  simp [isContinuation, UInt8.le_iff_toNat_le]

/-! ## Sequences of two, three and four bytes -/

/-- The two bytes of a code point. -/
structure IsPair (b c : UInt8) : Prop where
  lead : 194 ≤ b.toNat ∧ b.toNat < 224
  second : 128 ≤ c.toNat ∧ c.toNat ≤ 191

/-- The code point of two bytes. -/
def pairPoint (b c : UInt8) : Nat := (b.toNat - 192) * 64 + (c.toNat - 128)

/-- The three bytes of a code point. -/
structure IsTriple (b c d : UInt8) : Prop where
  lead : 224 ≤ b.toNat ∧ b.toNat < 240
  second : 128 ≤ c.toNat ∧ c.toNat ≤ 191
  notShorter : b.toNat = 224 → 160 ≤ c.toNat
  notSurrogate : b.toNat = 237 → c.toNat ≤ 159
  third : 128 ≤ d.toNat ∧ d.toNat ≤ 191

/-- The code point of three bytes. -/
def triplePoint (b c d : UInt8) : Nat :=
  (b.toNat - 224) * 4096 + (c.toNat - 128) * 64 + (d.toNat - 128)

/-- The four bytes of a code point. -/
structure IsQuadruple (b c d e : UInt8) : Prop where
  lead : 240 ≤ b.toNat ∧ b.toNat < 245
  second : 128 ≤ c.toNat ∧ c.toNat ≤ 191
  notShorter : b.toNat = 240 → 144 ≤ c.toNat
  notBeyond : b.toNat = 244 → c.toNat ≤ 143
  third : 128 ≤ d.toNat ∧ d.toNat ≤ 191
  fourth : 128 ≤ e.toNat ∧ e.toNat ≤ 191

/-- The code point of four bytes. -/
def quadruplePoint (b c d e : UInt8) : Nat :=
  (b.toNat - 240) * 262144 + (c.toNat - 128) * 4096 + (d.toNat - 128) * 64 + (e.toNat - 128)

theorem not_ascii {b : UInt8} (h : 128 ≤ b.toNat) : ¬ b < 0x80 := by
  rw [UInt8.lt_iff_toNat_lt]
  exact Nat.not_lt.mpr h

/-- A continuation byte carries what it has above 128. -/
theorem payload_eq {c : UInt8} (h : 128 ≤ c.toNat ∧ c.toNat ≤ 191) : payload c = c.toNat - 128 := by
  unfold payload
  omega

/-- Two bytes are decoded to the code point that they carry. -/
theorem IsPair.decode {b c : UInt8} (h : IsPair b c) (rest : Bytes) :
    Utf8.decode b (c :: rest) = ⟨pairPoint b c, 2⟩ := by
  obtain ⟨hb, hc⟩ := h
  have hlead : b.toNat % 32 = b.toNat - 192 := by omega
  have hadmits : Shape.admits ⟨2, 0x80, 0xBF⟩ c = true := admits_iff.mpr hc
  unfold Utf8.decode
  rw [if_neg (not_ascii (Nat.le_trans (by decide) hb.1)), shape_of_lead_two hb.1 hb.2]
  unfold pairPoint
  simp only [hadmits, if_true, hlead, payload_eq hc]

theorem IsTriple.decode {b c d : UInt8} (h : IsTriple b c d) (rest : Bytes) :
    Utf8.decode b (c :: d :: rest) = ⟨triplePoint b c d, 3⟩ := by
  obtain ⟨hb, hc, hshorter, hsurrogate, hd⟩ := h
  have hlead : b.toNat % 16 = b.toNat - 224 := by omega
  have hadmits : Shape.admits ⟨3, if b.toNat = 224 then 0xA0 else 0x80,
      if b.toNat = 237 then 0x9F else 0xBF⟩ c = true := by
    rw [admits_iff]
    constructor <;> dsimp only <;> split <;> simp only [UInt8.reduceToNat] <;> omega
  unfold Utf8.decode
  rw [if_neg (not_ascii (Nat.le_trans (by decide) hb.1)), shape_of_lead_three hb.1 hb.2]
  unfold triplePoint
  simp only [hadmits, isContinuation_iff.mpr hd, Bool.and_self, if_true, hlead, payload_eq hc,
    payload_eq hd]

theorem IsQuadruple.decode {b c d e : UInt8} (h : IsQuadruple b c d e) (rest : Bytes) :
    Utf8.decode b (c :: d :: e :: rest) = ⟨quadruplePoint b c d e, 4⟩ := by
  obtain ⟨hb, hc, hshorter, hbeyond, hd, he⟩ := h
  have hlead : b.toNat % 8 = b.toNat - 240 := by omega
  have hadmits : Shape.admits ⟨4, if b.toNat = 240 then 0x90 else 0x80,
      if b.toNat = 244 then 0x8F else 0xBF⟩ c = true := by
    rw [admits_iff]
    constructor <;> dsimp only <;> split <;> simp only [UInt8.reduceToNat] <;> omega
  unfold Utf8.decode
  rw [if_neg (not_ascii (Nat.le_trans (by decide) hb.1)), shape_of_lead_four hb.1 hb.2]
  unfold quadruplePoint
  simp only [hadmits, isContinuation_iff.mpr hd, isContinuation_iff.mpr he, Bool.and_self, if_true,
    hlead, payload_eq hc, payload_eq hd, payload_eq he]

/-- What is not invalid is an ASCII byte or one of these sequences. -/
theorem decode_cases {b : UInt8} {rest : Bytes} (h : decode b rest ≠ .invalid) :
    b < 0x80 ∨ (∃ c rest', rest = c :: rest' ∧ IsPair b c) ∨
      (∃ c d rest', rest = c :: d :: rest' ∧ IsTriple b c d) ∨
      ∃ c d e rest', rest = c :: d :: e :: rest' ∧ IsQuadruple b c d e := by
  by_cases hb : b < 0x80
  · exact .inl hb
  right
  have hlead := shape_lead b
  unfold decode at h
  rw [if_neg hb] at h
  dsimp only at h
  split at h
  · next c rest' hs =>
    obtain ⟨-, hlow, hhigh⟩ : (shape b).size = 2 ∧ 194 ≤ b.toNat ∧ b.toNat < 224 := by omega
    split at h
    · next hc =>
      rw [shape_of_lead_two hlow hhigh, admits_iff] at hc
      exact .inl ⟨c, rest', rfl, ⟨hlow, hhigh⟩, hc⟩
    · exact absurd rfl h
  · next c d rest' hs =>
    obtain ⟨hlow, hhigh⟩ : 224 ≤ b.toNat ∧ b.toNat < 240 := by omega
    split at h
    · next hcd =>
      rw [shape_of_lead_three hlow hhigh, Bool.and_eq_true, admits_iff, isContinuation_iff] at hcd
      obtain ⟨⟨hclow, hchigh⟩, hd⟩ := hcd
      refine .inr (.inl ⟨c, d, rest', rfl, ⟨hlow, hhigh⟩, ?_, ?_, ?_, hd⟩)
      all_goals
        dsimp only at hclow hchigh
        split at hclow <;> split at hchigh <;> simp only [UInt8.reduceToNat] at hclow hchigh <;>
          omega
    · exact absurd rfl h
  · next c d e rest' hs =>
    obtain ⟨hlow, hhigh⟩ : 240 ≤ b.toNat ∧ b.toNat < 245 := by omega
    split at h
    · next hcde =>
      rw [shape_of_lead_four hlow hhigh, Bool.and_eq_true, Bool.and_eq_true, admits_iff,
        isContinuation_iff, isContinuation_iff] at hcde
      obtain ⟨⟨⟨hclow, hchigh⟩, hd⟩, he⟩ := hcde
      refine .inr (.inr ⟨c, d, e, rest', rfl, ⟨hlow, hhigh⟩, ?_, ?_, ?_, hd, he⟩)
      all_goals
        dsimp only at hclow hchigh
        split at hclow <;> split at hchigh <;> simp only [UInt8.reduceToNat] at hclow hchigh <;>
          omega
    · exact absurd rfl h
  · exact absurd rfl h

/-! ## From code points to bytes and back -/

/-- The code point of two bytes is encoded to these bytes. -/
theorem IsPair.encode {b c : UInt8} (h : IsPair b c) :
    IsEncodable (pairPoint b c) ∧ Utf8.encode (pairPoint b c) = [b, c] := by
  obtain ⟨hb, hc⟩ := h
  unfold pairPoint
  refine ⟨by unfold IsEncodable; omega, ?_⟩
  unfold Utf8.encode
  rw [if_neg (by omega), if_pos (by omega)]
  simp only [List.cons.injEq, ← UInt8.toNat_inj, and_true]
  exact ⟨(toNat_toUInt8 (by omega)).trans (by omega), (toNat_toUInt8 (by omega)).trans (by omega)⟩

theorem IsTriple.encode {b c d : UInt8} (h : IsTriple b c d) :
    IsEncodable (triplePoint b c d) ∧ Utf8.encode (triplePoint b c d) = [b, c, d] := by
  obtain ⟨hb, hc, hshorter, hsurrogate, hd⟩ := h
  unfold triplePoint
  refine ⟨by unfold IsEncodable; omega, ?_⟩
  unfold Utf8.encode
  rw [if_neg (by omega), if_neg (by omega), if_neg (by omega), if_pos (by omega)]
  simp only [List.cons.injEq, ← UInt8.toNat_inj, and_true]
  exact ⟨(toNat_toUInt8 (by omega)).trans (by omega), (toNat_toUInt8 (by omega)).trans (by omega),
    (toNat_toUInt8 (by omega)).trans (by omega)⟩

theorem IsQuadruple.encode {b c d e : UInt8} (h : IsQuadruple b c d e) :
    IsEncodable (quadruplePoint b c d e) ∧ Utf8.encode (quadruplePoint b c d e) = [b, c, d, e] := by
  obtain ⟨hb, hc, hshorter, hbeyond, hd, he⟩ := h
  unfold quadruplePoint
  refine ⟨by unfold IsEncodable; omega, ?_⟩
  unfold Utf8.encode
  rw [if_neg (by omega), if_neg (by omega), if_neg (by omega), if_neg (by omega)]
  simp only [List.cons.injEq, ← UInt8.toNat_inj, and_true]
  exact ⟨(toNat_toUInt8 (by omega)).trans (by omega), (toNat_toUInt8 (by omega)).trans (by omega),
    (toNat_toUInt8 (by omega)).trans (by omega), (toNat_toUInt8 (by omega)).trans (by omega)⟩

theorem encode_ascii {b : UInt8} (h : b < 0x80) :
    IsEncodable b.toNat ∧ encode b.toNat = [b] := by
  have hlt : b.toNat < 128 := UInt8.lt_iff_toNat_lt.mp h
  refine ⟨.inl (by omega), ?_⟩
  rw [encode, if_pos hlt, ← UInt8.ofNat_toNat (x := b)]
  simp

/-- **A code point that was decoded has just the bytes it was decoded from.** -/
theorem encode_decode {b : UInt8} {rest : Bytes} (h : decode b rest ≠ .invalid) :
    IsEncodable (decode b rest).point ∧
      encode (decode b rest).point = b :: rest.take ((decode b rest).width - 1) := by
  rcases decode_cases h with hb | ⟨c, rest, rfl, hpair⟩ | ⟨c, d, rest, rfl, htriple⟩ |
    ⟨c, d, e, rest, rfl, hquadruple⟩
  · rw [decode_ascii hb]
    exact encode_ascii hb
  · rw [hpair.decode]
    exact hpair.encode
  · rw [htriple.decode]
    exact htriple.encode
  · rw [hquadruple.decode]
    exact hquadruple.encode

/-- The bytes of a code point are an ASCII byte or one of the sequences. -/
theorem encode_cases {point : Nat} (h : IsEncodable point) :
    (∃ b, b < 0x80 ∧ encode point = [b] ∧ b.toNat = point) ∨
    (∃ b c, IsPair b c ∧ encode point = [b, c] ∧ pairPoint b c = point) ∨
    (∃ b c d, IsTriple b c d ∧ encode point = [b, c, d] ∧ triplePoint b c d = point) ∨
    ∃ b c d e, IsQuadruple b c d e ∧ encode point = [b, c, d, e] ∧
      quadruplePoint b c d e = point := by
  unfold IsEncodable at h
  have hcont : ∀ n, (0x80 + n % 64).toUInt8.toNat = 0x80 + n % 64 :=
    fun n => toNat_toUInt8 (by omega)
  unfold encode
  by_cases hone : point < 0x80
  · have hb : point.toUInt8.toNat = point := toNat_toUInt8 (by omega)
    rw [if_pos hone]
    exact .inl ⟨_, by rw [UInt8.lt_iff_toNat_lt, hb]; exact hone, rfl, hb⟩
  rw [if_neg hone]
  right
  by_cases htwo : point < 0x800
  · have hb : (0xC0 + point / 64).toUInt8.toNat = 0xC0 + point / 64 := toNat_toUInt8 (by omega)
    have hc := hcont point
    rw [if_pos htwo]
    refine .inl ⟨_, _, ⟨?_, ?_⟩, rfl, ?_⟩
    all_goals try omega
    unfold pairPoint
    rw [hb, hc]
    omega
  rw [if_neg htwo, if_neg (by omega)]
  right
  by_cases hthree : point < 0x10000
  · have hb : (0xE0 + point / 4096).toUInt8.toNat = 0xE0 + point / 4096 :=
      toNat_toUInt8 (by omega)
    have hc := hcont (point / 64)
    have hd := hcont point
    rw [if_pos hthree]
    refine .inl ⟨_, _, _, ⟨?_, ?_, ?_, ?_, ?_⟩, rfl, ?_⟩
    all_goals try omega
    unfold triplePoint
    rw [hb, hc, hd]
    omega
  · have hb : (0xF0 + point / 262144).toUInt8.toNat = 0xF0 + point / 262144 :=
      toNat_toUInt8 (by omega)
    have hc := hcont (point / 4096)
    have hd := hcont (point / 64)
    have he := hcont point
    rw [if_neg hthree]
    refine .inr ⟨_, _, _, _, ⟨?_, ?_, ?_, ?_, ?_, ?_⟩, rfl, ?_⟩
    all_goals try omega
    unfold quadruplePoint
    rw [hb, hc, hd, he]
    omega

/-- No byte of a code point beyond ASCII is in ASCII. -/
theorem encode_high {point : Nat} (h : IsEncodable point) (hhigh : 0x80 ≤ point) :
    ∀ c ∈ encode point, 128 ≤ c.toNat := by
  rcases encode_cases h with ⟨b, hb, -, rfl⟩ | ⟨b, c, ⟨hb, hc⟩, hbytes, -⟩ |
    ⟨b, c, d, ⟨hb, hc, -, -, hd⟩, hbytes, -⟩ | ⟨b, c, d, e, ⟨hb, hc, -, -, hd, he⟩, hbytes, -⟩
  · exact absurd (UInt8.lt_iff_toNat_lt.mp hb) (Nat.not_lt.mpr hhigh)
  all_goals
    rw [hbytes]
    simp only [List.forall_mem_cons, List.not_mem_nil, false_implies, implies_true, and_true]
    omega

/-- **The bytes of a code point are decoded to it**, whatever stands behind them. -/
theorem decodeAll_encode_append {point : Nat} (h : IsEncodable point) (rest : Bytes) :
    decodeAll (encode point ++ rest) = ⟨point, (encode point).length⟩ :: decodeAll rest := by
  rcases encode_cases h with ⟨b, hb, hbytes, hpoint⟩ | ⟨b, c, hpair, hbytes, hpoint⟩ |
    ⟨b, c, d, htriple, hbytes, hpoint⟩ | ⟨b, c, d, e, hquadruple, hbytes, hpoint⟩
  all_goals simp only [hbytes, List.cons_append, List.nil_append, decodeAll_cons]
  · rw [decode_ascii hb, hpoint]
    rfl
  · rw [hpair.decode, hpoint]
    rfl
  · rw [htriple.decode, hpoint]
    rfl
  · rw [hquadruple.decode, hpoint]
    rfl

/-- The bytes of a code point are not taken for an invalid byte. -/
theorem ne_invalid_of_encode (point : Nat) : (⟨point, (encode point).length⟩ : Scalar) ≠ .invalid := by
  intro h
  obtain ⟨rfl, hlength⟩ : point = replacement ∧ (encode point).length = 1 := by
    simpa [Scalar.invalid] using h
  exact absurd hlength (by decide)

/-- **Decoding gives the code points of a byte string and nothing else.** -/
theorem decodes_iff {text : Bytes} {scalars : List Scalar} :
    Decodes text scalars ↔ scalars = decodeAll text := by
  constructor
  · intro h
    induction h with
    | nil => rw [decodeAll]
    | point hpoint _ ih => rw [decodeAll_encode_append hpoint, ih]
    | @invalid b rest scalars hnone _ ih =>
      have hinvalid : decode b rest = .invalid := by
        by_cases hb : decode b rest = .invalid
        · exact hb
        · -- a code point would have its bytes at the front
          obtain ⟨hpoint, hbytes⟩ := encode_decode hb
          refine absurd ?_ (hnone _ hpoint)
          rw [hbytes]
          exact (List.prefix_cons_inj b).mpr (List.take_prefix _ rest)
      rw [decodeAll_cons, hinvalid, ih]
      rfl
  · rintro rfl
    fun_induction decodeAll text with
    | case1 => exact .nil
    | case2 b rest s ih =>
      by_cases hb : s = .invalid
      · rw [hb] at ih ⊢
        refine .invalid (fun point hpoint hprefix => ?_) ih
        -- it would be the replacement character, whose own bytes are three
        obtain ⟨more, hmore⟩ := hprefix
        have hdecode := decodeAll_encode_append hpoint more
        rw [hmore, decodeAll_cons] at hdecode
        exact ne_invalid_of_encode point ((List.cons.inj hdecode).1.symm.trans hb)
      · obtain ⟨hpoint, hbytes⟩ :
            IsEncodable s.point ∧ encode s.point = b :: rest.take (s.width - 1) := encode_decode hb
        have hwidth : (encode s.point).length = s.width := by
          have hpos : 0 < s.width := decode_width_pos b rest
          have hle : s.width ≤ rest.length + 1 := decode_width_le b rest
          rw [hbytes, List.length_cons, List.length_take]
          omega
        have hdecodes := Decodes.point hpoint ih
        rw [hwidth, hbytes, List.cons_append, List.take_append_drop] at hdecodes
        exact hdecodes

/-! ## Valid texts -/

/-- **The valid texts are the bytes of code points.** -/
theorem isValid_iff {text : Bytes} :
    isValid text = true ↔ ∃ points : List Nat, (∀ p ∈ points, IsEncodable p) ∧
      text = points.flatMap encode := by
  constructor
  · intro h
    unfold isValid at h
    fun_induction decodeAll text with
    | case1 => exact ⟨[], by simp, rfl⟩
    | case2 b rest s ih =>
      obtain ⟨hs, hrest⟩ : s ≠ .invalid ∧
          (decodeAll (rest.drop (s.width - 1))).all (· != .invalid) = true := by simpa using h
      obtain ⟨hpoint, hbytes⟩ :
          IsEncodable s.point ∧ encode s.point = b :: rest.take (s.width - 1) := encode_decode hs
      obtain ⟨points, hpoints, htext⟩ := ih hrest
      refine ⟨s.point :: points, List.forall_mem_cons.mpr ⟨hpoint, hpoints⟩, ?_⟩
      rw [List.flatMap_cons, hbytes, ← htext, List.cons_append, List.take_append_drop]
  · rintro ⟨points, hpoints, rfl⟩
    unfold isValid
    induction points with
    | nil => simp [decodeAll]
    | cons p points ih =>
      obtain ⟨hp, hrest⟩ := List.forall_mem_cons.mp hpoints
      rw [List.flatMap_cons, decodeAll_encode_append hp, List.all_cons, ih hrest, Bool.and_true,
        bne_iff_ne]
      exact ne_invalid_of_encode p

theorem isValid_encode {point : Nat} (h : IsEncodable point) : isValid (encode point) = true :=
  isValid_iff.mpr ⟨[point], by simpa using h, by simp⟩

/-- A valid text in front of another one changes nothing. -/
theorem isValid_append {a : Bytes} (ha : isValid a = true) (b : Bytes) :
    isValid (a ++ b) = isValid b := by
  obtain ⟨points, hpoints, rfl⟩ := isValid_iff.mp ha
  induction points with
  | nil => rfl
  | cons p points ih =>
    obtain ⟨hp, hrest⟩ := List.forall_mem_cons.mp hpoints
    have hrest' := ih hrest (isValid_iff.mpr ⟨points, hrest, rfl⟩)
    unfold isValid at hrest' ⊢
    rw [List.flatMap_cons, List.append_assoc, decodeAll_encode_append hp, List.all_cons, hrest',
      bne_iff_ne.mpr (ne_invalid_of_encode p), Bool.true_and]

theorem isValid_flatMap {α : Type} {f : α → Bytes} {xs : List α}
    (h : ∀ x ∈ xs, isValid (f x) = true) : isValid (xs.flatMap f) = true := by
  induction xs with
  | nil => simp [isValid, decodeAll]
  | cons x xs ih =>
    obtain ⟨hx, hrest⟩ := List.forall_mem_cons.mp h
    rw [List.flatMap_cons, isValid_append hx]
    exact ih hrest

end Bracket.Utf8
