import Mathlib.Algebra.Group.Nat.Defs
import Bracket.Proofs.Commands

/-!
# The positions of tokens

The lexer counts lines, columns and offsets as it goes. What it should count can be said of a text
and a byte index alone:

* a line feed ends a line, and so does a carriage return without a line feed behind it
  (`endsLine`), so the line of a byte follows from the line breaks before it (`lineBreaks`);
* its column follows from the code points between the beginning of its line and the byte
  (`columnsBefore`). An invalid byte is a code point, and a byte order mark at the front of the text
  is not part of its first line (`textStart`).

`Mark.before` is the mark of a lexer computed from these. One code point takes it to the mark behind
that code point (`Reached.advance`), so a scan finds every command at the mark before it
(`scan_places`). The counters of `Lexer.advance` wrap around at 32 and 64 bits. A text of fewer than
`2 ^ 31` bytes is too short for that, and there the positions are the numbers themselves
(`read_positions`), but for one: behind a command in the last column of all stands no other column
(`last_column_wraps`).
-/

namespace Bracket

open Utf8

/-! ## Lines and columns -/

/-- The byte at `i` ends a line: a line feed, or a carriage return without a line feed behind it. -/
def endsLine (content : Bytes) (i : Nat) : Bool :=
  content[i]? == some 0x0A || (content[i]? == some 0x0D && content[i + 1]? != some 0x0A)

/-- The number of line breaks before byte `k`. -/
def lineBreaks (content : Bytes) (k : Nat) : Nat := (List.range k).countP (endsLine content)

/-- Where a text begins: behind the byte order mark if there is one at its front. -/
def textStart (content : Bytes) : Nat :=
  if byteOrderMarkBytes.isPrefixOf content then byteOrderMarkBytes.length else 0

/-- Where the line of byte `k` begins: behind the last line break before it, or where the text
begins. -/
def lineStart (content : Bytes) : Nat → Nat
  | 0 => textStart content
  | k + 1 => if endsLine content k then k + 1 else lineStart content k

/-- The bytes before byte `k` in its line. -/
def lineBefore (content : Bytes) (k : Nat) : Bytes := (content.take k).drop (lineStart content k)

/-- The number of code points before byte `k` in its line; an invalid byte counts as one. -/
def columnsBefore (content : Bytes) (k : Nat) : Nat := (decodeAll (lineBefore content k)).length

/-- The bytes at and behind an index say whether a line ends there. -/
theorem endsLine_iff {content rest : Bytes} {k : Nat} {b : UInt8} (h : content.drop k = b :: rest) :
    endsLine content k = true ↔ b = 0x0A ∨ (b = 0x0D ∧ rest.head? ≠ some 0x0A) := by
  have hat : content[k]? = some b := by rw [← List.head?_drop, h, List.head?_cons]
  have hbehind : content[k + 1]? = rest.head? := by
    rw [← List.head?_drop, ← List.drop_drop, h, List.drop_one, List.tail_cons]
  simp [endsLine, hat, hbehind]

/-- No line ends at a byte which is not ASCII. -/
theorem endsLine_of_high {content : Bytes} {i : Nat} {c : UInt8} (h : content[i]? = some c)
    (hc : 128 ≤ c.toNat) : endsLine content i = false := by
  have hlf : c ≠ 0x0A := by
    rintro rfl
    simp at hc
  have hcr : c ≠ 0x0D := by
    rintro rfl
    simp at hc
  simp [endsLine, h, hlf, hcr]

/-- One byte further there is one line break more if a line ends at it. -/
theorem lineBreaks_succ (content : Bytes) (k : Nat) :
    lineBreaks content (k + 1) =
      lineBreaks content k + if endsLine content k = true then 1 else 0 := by
  rw [lineBreaks, List.range_succ, List.countP_append, List.countP_singleton, lineBreaks]

/-- Bytes at which no line ends change neither the number of the line nor its beginning. -/
theorem line_add {content : Bytes} {k w : Nat}
    (h : ∀ i, k ≤ i → i < k + w → endsLine content i = false) :
    lineBreaks content (k + w) = lineBreaks content k ∧
      lineStart content (k + w) = lineStart content k := by
  induction w with
  | zero => exact ⟨rfl, rfl⟩
  | succ w ih =>
    obtain ⟨hbreaks, hstart⟩ := ih fun i hi hi' => h i hi (by omega)
    have hlast : endsLine content (k + w) = false := h (k + w) (by omega) (by omega)
    rw [← Nat.add_assoc, lineBreaks_succ, lineStart, hlast, hbreaks, hstart]
    exact ⟨rfl, rfl⟩

theorem lineBreaks_le (content : Bytes) (k : Nat) : lineBreaks content k ≤ k := by
  have hle := List.countP_le_length (p := endsLine content) (l := List.range k)
  rwa [List.length_range] at hle

theorem columnsBefore_le (content : Bytes) (k : Nat) : columnsBefore content k ≤ k := by
  have hle := length_decodeAll_le (lineBefore content k)
  rw [lineBefore, List.length_drop, List.length_take] at hle
  rw [columnsBefore, lineBefore]
  omega

/-! ## Marks -/

/-- The mark of a lexer before byte `k`. -/
def Mark.before (content : Bytes) (k : Nat) : Mark :=
  ⟨Int32.ofNat (lineBreaks content k + 1), Int32.ofNat (columnsBefore content k), Int64.ofNat k⟩

/-- A lexer can stand before byte `k`: no code point of the line reaches over it. -/
structure Reached (content : Bytes) (k : Nat) : Prop where
  inLine : lineStart content k ≤ k
  splits : Splits (lineBefore content k) (content.drop k)

/-- The lexer and the text agree where lines end. -/
theorem endsLine_iff_scalar {content rest : Bytes} {k : Nat} {b : UInt8}
    (h : content.drop k = b :: rest) :
    ((decode b rest).point = 0x0A ∨ ((decode b rest).point = 0x0D ∧
        (decodeAll (rest.drop ((decode b rest).width - 1))).head?.map (·.point) ≠ some 0x0A)) ↔
      endsLine content k = true := by
  rw [endsLine_iff h]
  refine or_congr (decode_point_eq_iff (p := 0x0A) (by decide) b rest) ?_
  have hcr := decode_point_eq_iff (p := 0x0D) (by decide) b rest
  refine (and_congr_left' hcr).trans (and_congr_right fun hb => not_congr ?_)
  -- a carriage return is one byte wide
  rw [hb, decode_ascii (by decide)]
  exact head?_decodeAll_point_eq_iff (p := 0x0A) (by decide) rest

namespace Reached

variable {content rest : Bytes} {k : Nat} {b : UInt8}

/-- A line begins without columns. -/
theorem of_lineStart (h : lineStart content k = k) :
    Reached content k ∧ columnsBefore content k = 0 := by
  have hempty : lineBefore content k = [] := by
    rw [lineBefore, h]
    exact List.drop_eq_nil_of_le (List.length_take_le _ _)
  refine ⟨⟨Nat.le_of_eq h, ?_⟩, ?_⟩
  · rw [hempty]
    exact splits_nil _
  · rw [columnsBefore, hempty, decodeAll, List.length_nil]

/-- No line ends at or inside a code point that is no line break. -/
theorem endsLine_inside (hdrop : content.drop k = b :: rest) (hend : endsLine content k = false)
    {i : Nat} (hi : k ≤ i) (hi' : i < k + (decode b rest).width) : endsLine content i = false := by
  by_cases hk : i = k
  · rw [hk, hend]
  · -- a byte behind the first one belongs to a longer sequence
    have hb : ¬ b < 0x80 := by
      intro hb
      simp only [decode_ascii hb] at hi'
      omega
    obtain ⟨j, rfl⟩ : ∃ j, i = k + 1 + j := ⟨i - (k + 1), by omega⟩
    have hwidth := decode_width_le b rest
    have hj : j < rest.length := by omega
    have hbyte : content[k + 1 + j]? = some rest[j] := by
      rw [← List.getElem?_drop, ← List.drop_drop, hdrop, List.drop_one, List.tail_cons,
        List.getElem?_eq_getElem hj]
    refine endsLine_of_high hbyte ((decode_high hb rest).2 _ ?_)
    exact List.mem_take_iff_getElem.mpr ⟨j, by omega, rfl⟩

/-- A code point that is no line break joins the bytes of its line. -/
theorem lineBefore_add (h : Reached content k) (hdrop : content.drop k = b :: rest)
    (hstart : lineStart content (k + (decode b rest).width) = lineStart content k) :
    lineBefore content (k + (decode b rest).width) =
      lineBefore content k ++ b :: rest.take ((decode b rest).width - 1) := by
  have hlength : k < content.length := by
    have := congrArg List.length hdrop
    simp only [List.length_drop, List.length_cons] at this
    omega
  have hinLine : lineStart content k ≤ (content.take k).length := by
    rw [List.length_take]
    have := h.inLine
    omega
  obtain ⟨w, hw⟩ : ∃ w, (decode b rest).width = w + 1 :=
    ⟨(decode b rest).width - 1, by have := decode_width_pos b rest; omega⟩
  rw [lineBefore, hstart, List.take_add, hdrop, List.drop_append_of_le_length hinLine, hw,
    List.take_succ_cons, Nat.add_sub_cancel]
  rfl

/-- The bytes behind a code point. -/
theorem drop_width (hdrop : content.drop k = b :: rest) :
    content.drop (k + (decode b rest).width) = rest.drop ((decode b rest).width - 1) := by
  rw [← List.drop_drop, hdrop, List.drop_cons (decode_width_pos b rest)]

/-- **One code point takes the mark before it to the mark behind it.** -/
theorem advance (h : Reached content k) (hdrop : content.drop k = b :: rest) :
    Reached content (k + (decode b rest).width) ∧
      (Mark.before content k).advance (decode b rest)
          (decodeAll (rest.drop ((decode b rest).width - 1))).head? =
        Mark.before content (k + (decode b rest).width) := by
  have hiff := endsLine_iff_scalar hdrop
  simp only [Mark.advance]
  by_cases hend : endsLine content k = true
  · -- a line break is one byte wide
    have hwidth : (decode b rest).width = 1 := by
      rcases (endsLine_iff hdrop).mp hend with rfl | ⟨rfl, -⟩ <;> rw [decode_ascii (by decide)]
    obtain ⟨hreached, hcolumns⟩ :=
      of_lineStart (show lineStart content (k + 1) = k + 1 by rw [lineStart, if_pos hend])
    rw [if_pos (hiff.mpr hend), hwidth]
    refine ⟨hreached, ?_⟩
    rw [Mark.before, Mark.before, hcolumns, lineBreaks_succ, if_pos hend,
      Int32.ofNat_add (lineBreaks content k + 1), Int64.ofNat_add]
    rfl
  · have hquiet : endsLine content k = false := by simpa using hend
    obtain ⟨hbreaks, hstart⟩ := line_add fun i hi hi' => endsLine_inside hdrop hquiet hi hi'
    have hline := h.lineBefore_add hdrop hstart
    have hsplits : Splits (lineBefore content k) (b :: rest) := hdrop ▸ h.splits
    have hcolumns : columnsBefore content (k + (decode b rest).width) =
        columnsBefore content k + 1 := by
      rw [columnsBefore, hline, hsplits.scalar, List.length_append, List.length_singleton,
        columnsBefore]
    rw [if_neg (mt hiff.mp hend)]
    refine ⟨⟨?_, ?_⟩, ?_⟩
    · have := h.inLine
      omega
    · rw [hline, drop_width hdrop]
      exact hsplits.next
    · rw [Mark.before, Mark.before, hbreaks, hcolumns, Int32.ofNat_add (columnsBefore content k),
        Int64.ofNat_add]
      rfl

end Reached

/-! ## Commands and their indices -/

/-- The commands of a text before its first zero byte, each with its index; the first byte has the
index `k`. -/
def commandsFrom (k : Nat) (text : Bytes) : List (UInt8 × Nat) :=
  ((text.zipIdx k).takeWhile (·.1 ≠ 0)).filter (·.1 ∈ commands)

/-- The indices of the commands of a text before its first zero byte. -/
def commandIndices (content : Bytes) : List Nat := (commandsFrom 0 content).map Prod.snd

theorem commandsFrom_comment {b : UInt8} (hzero : b ≠ 0) (hb : b ∉ commands) (k : Nat)
    (rest : Bytes) : commandsFrom k (b :: rest) = commandsFrom (k + 1) rest := by
  simp [commandsFrom, hzero, hb]

/-- A command is found with its index. -/
theorem commandsFrom_command {b : UInt8} (hzero : b ≠ 0) (hb : b ∈ commands) (k : Nat)
    (rest : Bytes) : commandsFrom k (b :: rest) = (b, k) :: commandsFrom (k + 1) rest := by
  simp [commandsFrom, hzero, hb]

/-- Comments hide no command behind them. -/
theorem commandsFrom_append {front : Bytes} (h : ∀ c ∈ front, c ≠ 0 ∧ c ∉ commands) (k : Nat)
    (rest : Bytes) : commandsFrom k (front ++ rest) = commandsFrom (k + front.length) rest := by
  induction front generalizing k with
  | nil => rfl
  | cons c front ih =>
    obtain ⟨⟨hzero, hcomment⟩, hfront⟩ := List.forall_mem_cons.mp h
    rw [List.cons_append, commandsFrom_comment hzero hcomment, ih hfront, List.length_cons,
      Nat.add_assoc, Nat.add_comm 1]

/-- Bytes that are not ASCII hide no command. -/
theorem commandsFrom_high_append {high : Bytes} (h : ∀ c ∈ high, 128 ≤ c.toNat) (k : Nat)
    (rest : Bytes) : commandsFrom k (high ++ rest) = commandsFrom (k + high.length) rest := by
  refine commandsFrom_append (fun c hc => ?_) k rest
  obtain ⟨hzero, hnone⟩ := comment_of_high (h c hc)
  exact ⟨hzero, Symbol.notMem_commands hnone⟩

/-- A code point that is no command hides none. -/
theorem commandsFrom_scalar {b : UInt8} {rest : Bytes} (hzero : (decode b rest).point ≠ 0)
    (hcomment : Symbol.ofCodePoint? (decode b rest).point = none) (k : Nat) :
    commandsFrom k (b :: rest) =
      commandsFrom (k + (decode b rest).width) (rest.drop ((decode b rest).width - 1)) := by
  by_cases hb : b < 0x80
  · rw [decode_ascii hb] at hzero hcomment ⊢
    have hzero' : b ≠ 0 := by
      rintro rfl
      exact hzero rfl
    exact commandsFrom_comment hzero' (Symbol.notMem_commands hcomment) k rest
  · have hsplit : b :: rest = (b :: rest.take ((decode b rest).width - 1)) ++
        rest.drop ((decode b rest).width - 1) := by simp
    have hlength : (b :: rest.take ((decode b rest).width - 1)).length = (decode b rest).width := by
      have hpos := decode_width_pos b rest
      have hle := decode_width_le b rest
      simp only [List.length_cons, List.length_take]
      omega
    calc commandsFrom k (b :: rest)
        = commandsFrom k ((b :: rest.take ((decode b rest).width - 1)) ++
            rest.drop ((decode b rest).width - 1)) := by rw [← hsplit]
      _ = _ := by rw [commandsFrom_high_append (decode_high_bytes hb rest), hlength]

/-! ## Scanning -/

/-- The place of byte `k`. -/
def place (content : Bytes) (k : Nat) : Position := (Mark.before content k).position

/-- The place one column and one byte further. -/
def Position.behind (p : Position) : Position := ⟨p.line, p.column + 1, p.offset + 1⟩

/-- The text of a token and its place. -/
def Token.view (t : Token) : Bytes × Position × Position := (t.symbol.text, t.start, t.stop)

/-- An offset of zero is the beginning of a text that is not too long. -/
theorem eq_zero_of_offset {k : Nat} (hk : k < 2 ^ 63) (h : Int64.ofNat k = 0) : k = 0 := by
  have hint := congrArg Int64.toInt h
  rw [Int64.toInt_ofNat_of_lt (by omega)] at hint
  simpa using hint

/-- A command is one byte wide and ends no line. -/
theorem Mark.advance_command {m : Mark} {b : UInt8} {symbol : Symbol}
    (h : Symbol.ofByte? b = some symbol) (next? : Option Scalar) :
    (m.advance ⟨b.toNat, 1⟩ next?).position = m.position.behind := by
  have hlf : b.toNat ≠ 0x0A := by
    intro hb
    simp [Symbol.ofByte?, hb, Symbol.ofCodePoint?] at h
  have hcr : b.toNat ≠ 0x0D := by
    intro hb
    simp [Symbol.ofByte?, hb, Symbol.ofCodePoint?] at h
  simp only [Mark.advance, hlf, hcr, false_and, or_self, if_false]
  rfl

/-- A code point that spells a command is the byte of that command. -/
theorem decode_of_ofCodePoint? {b : UInt8} {rest : Bytes} {symbol : Symbol}
    (h : Symbol.ofCodePoint? (decode b rest).point = some symbol) :
    decode b rest = ⟨b.toNat, 1⟩ ∧ Symbol.ofByte? b = some symbol := by
  by_cases hb : b < 0x80
  · rw [decode_ascii hb] at h ⊢
    exact ⟨rfl, h⟩
  · simp [Symbol.ofCodePoint?_high (decode_high hb rest).1] at h

/-- **A scan finds every command at its place.** -/
theorem scan_places {content : Bytes} (hlength : content.length < 2 ^ 63) {k : Nat}
    (hreached : Reached content k) (hmark : k = 0 → ¬ byteOrderMarkBytes <+: content) :
    (Token.scan (.before content k) (decodeAll (content.drop k))).map Token.view =
      (commandsFrom k (content.drop k)).map
        (fun c => ([c.1], place content c.2, (place content c.2).behind)) := by
  match hdrop : content.drop k with
  | [] => simp [decodeAll, Token.scan, commandsFrom]
  | b :: rest =>
    obtain ⟨hreached', hadvance⟩ := hreached.advance hdrop
    have hk : k < content.length := by
      have := congrArg List.length hdrop
      simp only [List.length_drop, List.length_cons] at this
      omega
    have hpos := decode_width_pos b rest
    have ih := scan_places hlength hreached' (by omega)
    rw [Reached.drop_width hdrop] at ih
    rw [decodeAll_cons, Token.scan]
    by_cases hzero : (decode b rest).point = 0
    · obtain rfl : b = 0 := (decode_point_eq_iff (p := 0) (by decide) b rest).mp hzero
      rw [if_pos hzero]
      simp [commandsFrom]
    rw [if_neg hzero]
    -- a byte order mark counts as a column from the second code point on
    have hnoMark : ¬ ((decode b rest).point = Lexer.byteOrderMark ∧
        (Mark.before content k).offset = 0) := by
      rintro ⟨hpoint, hoffset⟩
      obtain rfl : k = 0 := eq_zero_of_offset (by omega) hoffset
      obtain rfl : content = b :: rest := hdrop
      exact hmark rfl ((decode_point_eq_byteOrderMark_iff b rest).mp hpoint)
    rw [if_neg hnoMark, hadvance]
    cases hsymbol : Symbol.ofCodePoint? (decode b rest).point with
    | none =>
      rw [commandsFrom_scalar hzero hsymbol]
      exact ih
    | some symbol =>
      obtain ⟨hscalar, hbyte⟩ := decode_of_ofCodePoint? hsymbol
      rw [hscalar] at hadvance ih
      have hstop : (Mark.before content (k + 1)).position = (place content k).behind := by
        rw [← hadvance]
        exact Mark.advance_command hbyte _
      have hcommand := Symbol.mem_commands hbyte
      rw [hscalar, commandsFrom_command (Symbol.ne_zero_of_ofByte? hbyte) hcommand, List.map_cons,
        List.map_cons]
      refine List.cons_eq_cons.mpr ⟨?_, ih⟩
      show (symbol.text, place content k, (Mark.before content (k + 1)).position) = _
      rw [Symbol.text_of_ofByte? hbyte, hstop]
termination_by content.length - k

/-- The same from the beginning of a text, where a byte order mark is skipped. -/
theorem scan_start_places {content : Bytes} (hlength : content.length < 2 ^ 63) :
    (Token.scan .start (decodeAll content)).map Token.view =
      (commandsFrom 0 content).map
        (fun c => ([c.1], place content c.2, (place content c.2).behind)) := by
  by_cases hmark : byteOrderMarkBytes <+: content
  · obtain ⟨more, rfl⟩ := hmark
    have hstart : lineStart (byteOrderMarkBytes ++ more) 3 = 3 := rfl
    obtain ⟨hreached, hcolumns⟩ := Reached.of_lineStart hstart
    have hbefore : Mark.before (byteOrderMarkBytes ++ more) 3 =
        { Mark.start with offset := Int64.ofNat 3 } := by
      rw [Mark.before, hcolumns]
      rfl
    have hscan : Token.scan .start (decodeAll (byteOrderMarkBytes ++ more)) =
        Token.scan { Mark.start with offset := Int64.ofNat 3 } (decodeAll more) := by
      rw [byteOrderMarkBytes, List.cons_append, decodeAll_cons]
      rfl
    have hcommands : commandsFrom 0 (byteOrderMarkBytes ++ more) = commandsFrom 3 more :=
      commandsFrom_high_append (by simp [byteOrderMarkBytes]) 0 more
    rw [hscan, hcommands, ← hbefore]
    exact scan_places hlength hreached (by simp)
  · have hstart : lineStart content 0 = 0 := by
      rw [lineStart, textStart, if_neg (by simpa [List.isPrefixOf_iff_prefix] using hmark)]
    obtain ⟨hreached, hcolumns⟩ := Reached.of_lineStart hstart
    have hbefore : Mark.before content 0 = .start := by
      rw [Mark.before, hcolumns]
      rfl
    rw [← hbefore]
    exact scan_places hlength hreached fun _ => hmark

/-! ## Positions as numbers -/

/-- A command that is found stands in the text at its index. -/
theorem getElem?_of_mem_commandsFrom {content : Bytes} {c : UInt8 × Nat}
    (h : c ∈ commandsFrom 0 content) : content[c.2]? = some c.1 := by
  have hmem : c ∈ content.zipIdx :=
    (List.takeWhile_sublist _).subset (List.mem_filter.mp h).1
  exact List.mem_zipIdx_iff_getElem?.mp hmem

/-- The indices of the commands ascend. -/
theorem pairwise_commandIndices (content : Bytes) : (commandIndices content).Pairwise (· < ·) := by
  have hsub : (commandsFrom 0 content).Sublist content.zipIdx :=
    List.filter_sublist.trans (List.takeWhile_sublist _)
  have hrange := hsub.map Prod.snd
  rw [List.zipIdx_map_snd] at hrange
  exact List.Pairwise.sublist hrange (List.pairwise_lt_range' 1)

/-- The token spells byte `k` of the text, and its positions are the numbers which the text tells.
It stops on the same line, one column and one byte further. Columns have 32 bits, so the next column
is a larger number unless the command stands in the last one of them, which takes a line of
`2 ^ 31 - 1` code points. -/
structure Token.StandsAt (content : Bytes) (k : Nat) (t : Token) : Prop where
  spelled : ∃ b, content[k]? = some b ∧ t.symbol.text = [b]
  offset : t.start.offset.toInt = k
  line : t.start.line.toInt = 1 + lineBreaks content k
  column : t.start.column.toInt = 1 + columnsBefore content k
  stop_line : t.stop.line = t.start.line
  stop_offset : t.stop.offset.toInt = t.start.offset.toInt + 1
  stop_column : t.stop.column = t.start.column + 1
  stop_column_toInt :
    t.start.column ≠ Int32.maxValue → t.stop.column.toInt = t.start.column.toInt + 1

/-- A token that was found at its place in a text that is not too long. -/
theorem Token.standsAt_of_view {content : Bytes} (hlength : content.length < 2 ^ 31)
    {c : UInt8 × Nat} (hc : content[c.2]? = some c.1) {t : Token}
    (h : t.view = ([c.1], place content c.2, (place content c.2).behind)) :
    t.StandsAt content c.2 := by
  obtain ⟨htext, hstart, hstop⟩ : t.symbol.text = [c.1] ∧ t.start = place content c.2 ∧
      t.stop = (place content c.2).behind := by simpa [view] using h
  have hk : c.2 < content.length := (List.getElem?_eq_some_iff.mp hc).1
  have hbreaks := lineBreaks_le content c.2
  have hcolumns := columnsBefore_le content c.2
  have hoffset : t.start.offset.toInt = c.2 := by
    rw [hstart]
    exact Int64.toInt_ofNat_of_lt (by omega)
  have hcolumn : t.start.column = Int32.ofNat (columnsBefore content c.2 + 1) := by
    rw [hstart, Int32.ofNat_add]
    rfl
  have hcolumn' : t.start.column.toInt = 1 + columnsBefore content c.2 := by
    rw [hcolumn, Int32.toInt_ofNat_of_lt (by omega)]
    omega
  refine ⟨⟨c.1, hc, htext⟩, hoffset, ?_, hcolumn', ?_, ?_, ?_, ?_⟩
  · have hline : t.start.line = Int32.ofNat (lineBreaks content c.2 + 1) := by
      rw [hstart]
      rfl
    rw [hline, Int32.toInt_ofNat_of_lt (by omega)]
    omega
  · rw [hstop, hstart]
    rfl
  · have hbehind : t.stop.offset = Int64.ofNat (c.2 + 1) := by
      rw [hstop, Int64.ofNat_add]
      rfl
    rw [hbehind, hoffset, Int64.toInt_ofNat_of_lt (by omega)]
    omega
  · rw [hstop, hstart]
    rfl
  · intro hlast
    have hroom : columnsBefore content c.2 + 1 ≠ 2147483647 := by
      intro hfull
      rw [hcolumn, hfull] at hlast
      exact hlast rfl
    have hbehind : t.stop.column = Int32.ofNat (columnsBefore content c.2 + 2) := by
      rw [hstop, Position.behind, ← hstart, hcolumn, Int32.ofNat_add _ 2, Int32.ofNat_add _ 1,
        Int32.add_assoc]
      rfl
    rw [hbehind, hcolumn', Int32.toInt_ofNat_of_lt (by omega)]
    omega

namespace Lexer

variable (uri : Bytes) {content : Bytes}

/-- The tokens of a file are its commands, each at its place. -/
theorem view_read (hlength : content.length < 2 ^ 63) :
    (read uri content).map Token.view =
      (commandsFrom 0 content).map
        (fun c => ([c.1], place content c.2, (place content c.2).behind)) := by
  rw [read_eq]
  exact scan_start_places hlength

/-- Every token of a text that is not too long stands at some byte. -/
theorem standsAt_of_mem_read (hlength : content.length < 2 ^ 31) {t : Token}
    (ht : t ∈ read uri content) : ∃ k, t.StandsAt content k := by
  have hview : t.view ∈ (read uri content).map Token.view := List.mem_map_of_mem ht
  rw [view_read uri (by omega)] at hview
  obtain ⟨c, hc, hplace⟩ := List.mem_map.mp hview
  exact ⟨c.2, Token.standsAt_of_view hlength (getElem?_of_mem_commandsFrom hc) hplace.symm⟩

/-- The offsets of the tokens are the indices of the commands. -/
theorem offsets_read (hlength : content.length < 2 ^ 31) :
    (read uri content).map (·.start.offset.toInt) = (commandIndices content).map Int.ofNat := by
  have hlength' : content.length < 2 ^ 63 := by omega
  have hoffsets := congrArg (List.map fun v => v.2.1.offset.toInt) (view_read uri hlength')
  rw [List.map_map, List.map_map] at hoffsets
  rw [commandIndices, List.map_map]
  refine hoffsets.trans (List.map_congr_left fun c hc => ?_)
  have hk := (List.getElem?_eq_some_iff.mp (getElem?_of_mem_commandsFrom hc)).1
  exact Int64.toInt_ofNat_of_lt (by omega)

/-- **Token positions are correct.** In a text of fewer than `2 ^ 31` bytes every token stands at a
byte that it spells, with the line, the column and the offset of that byte, and ends one column and
one byte further, unless it stands in the last column. The offsets of the tokens are the indices of
the command bytes before the first zero byte, and they ascend strictly. -/
theorem read_positions (hlength : content.length < 2 ^ 31) :
    (∀ t ∈ read uri content, ∃ k, t.StandsAt content k) ∧
    (read uri content).map (·.start.offset.toInt) = (commandIndices content).map Int.ofNat ∧
    (read uri content).Pairwise (fun t u => t.start.offset.toInt < u.start.offset.toInt) := by
  have hoffsets := offsets_read uri hlength
  refine ⟨fun t ht => standsAt_of_mem_read uri hlength ht, hoffsets, ?_⟩
  have hascend : ((commandIndices content).map Int.ofNat).Pairwise (· < ·) :=
    List.Pairwise.map _ (fun _ _ h => Int.ofNat_lt.mpr h) (pairwise_commandIndices content)
  rw [← hoffsets] at hascend
  exact List.pairwise_map.mp hascend

/-- A byte order mark, a carriage return with a line feed, a sequence of two bytes and an invalid
byte, with a command before and one behind them. -/
def mixedText : Bytes := [0xEF, 0xBB, 0xBF, 0x2B, 0x0D, 0x0A, 0xC3, 0xA9, 0xFF, 0x5B]

/-- The left bracket at byte 9 stands on the second line, behind two code points. -/
theorem read_positions_mixed :
    (read [] mixedText).map (·.start.offset.toInt) = [3, 9] ∧
    (∀ t ∈ read [] mixedText, ∃ k, t.StandsAt mixedText k) ∧
    lineBreaks mixedText 9 = 1 ∧ columnsBefore mixedText 9 = 2 := by
  have hlength : mixedText.length < 2 ^ 31 := by decide
  obtain ⟨hstands, hoffsets, -⟩ := read_positions [] hlength
  refine ⟨hoffsets, hstands, rfl, ?_⟩
  cbv

/-! ## The last column -/

/-- A plus sign behind `n` spaces. -/
def indented (n : Nat) : Bytes := List.replicate n 0x20 ++ [0x2B]

theorem length_indented (n : Nat) : (indented n).length = n + 1 := by
  rw [indented, List.length_append, List.length_replicate, List.length_singleton]

/-- Spaces end no line. -/
theorem endsLine_indented {n i : Nat} (hi : i < n) : endsLine (indented n) i = false := by
  have hspace : (indented n)[i]? = some 0x20 := by
    rw [indented, List.getElem?_append_left (by rwa [List.length_replicate]),
      List.getElem?_replicate_of_lt hi]
  rw [endsLine, hspace]
  rfl

/-- The plus sign stands on the first line, in the column behind the spaces. -/
theorem place_indented (n : Nat) :
    place (indented n) n = ⟨1, Int32.ofNat n + 1, Int64.ofNat n⟩ := by
  have hquiet : ∀ i, 0 ≤ i → i < 0 + n → endsLine (indented n) i = false :=
    fun i _ hi => endsLine_indented (by omega)
  obtain ⟨hbreaks, hstart⟩ := line_add hquiet
  rw [Nat.zero_add] at hbreaks hstart
  have htext : lineStart (indented n) 0 = 0 := by
    cases n <;> rfl
  have hcolumns : columnsBefore (indented n) n = n := by
    rw [columnsBefore, lineBefore, hstart, htext, List.drop_zero, indented,
      List.take_left' List.length_replicate, length_decodeAll_of_ascii, List.length_replicate]
    intro b hb
    rw [List.eq_of_mem_replicate hb]
    decide
  rw [place, Mark.before, hbreaks, hcolumns]
  rfl

/-- The plus sign is the only token. -/
theorem view_read_indented {n : Nat} (hn : n + 1 < 2 ^ 63) :
    (read uri (indented n)).map Token.view =
      [([0x2B], place (indented n) n, (place (indented n) n).behind)] := by
  have hcommands : commandsFrom 0 (indented n) = [(0x2B, n)] := by
    rw [indented, commandsFrom_append, List.length_replicate, Nat.zero_add]
    · rfl
    · intro b hb
      rw [List.eq_of_mem_replicate hb]
      decide
  rw [view_read uri (by rwa [length_indented]), hcommands]
  rfl

/-- **The column behind a token is not always one larger.** Behind 2147483646 spaces a command
stands in the last column that 32 bits can hold, and the column behind it is negative. -/
theorem last_column_wraps :
    (indented 2147483646).length < 2 ^ 31 ∧
    ∃ t ∈ read [] (indented 2147483646),
      t.start.column.toInt = 2147483647 ∧ t.stop.column.toInt = -2147483648 ∧
      t.stop.column.toInt ≠ t.start.column.toInt + 1 := by
  -- the lemmas above hold for any number of spaces, so the text itself is never built
  have hlength : (indented 2147483646).length < 2 ^ 31 := by
    rw [length_indented]
    decide
  have hview := view_read_indented [] (n := 2147483646) (by decide)
  rw [place_indented] at hview
  obtain ⟨t, hread, ht⟩ := List.map_eq_singleton_iff.mp hview
  obtain ⟨-, hplace⟩ := Prod.mk.inj ht
  obtain ⟨hstart, hstop⟩ := Prod.mk.inj hplace
  refine ⟨hlength, t, ?_, ?_⟩
  · rw [hread]
    exact List.mem_singleton_self t
  · rw [hstart, hstop]
    decide

end Lexer

end Bracket
