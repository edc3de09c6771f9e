import Bracket.Proofs.Path
import Bracket.Target

/-!
# What a target names

A target that is a path or a file URI is brought into a rooted, clean form, which is meant to be the
name of its module. The local file system takes that name for a reference and reads it once more:
what stands behind a question mark or a number sign is no part of its path, and escapes in it are
replaced, so a file whose name has such characters is looked for under another name.

`path_normalize_eq_iff` says when the two agree: exactly if the name cannot be read as a reference,
so that the file system falls back on the name itself, or if no character in it has a meaning in
references. Each such character makes the path that is read shorter (`length_unescape_upTo_lt`), and
neither replacing escapes nor cleaning makes up for it.
-/

namespace Bracket

namespace Reference

/-! ## Parts of a reference -/

theorem upTo_cons {separator b : UInt8} (h : b ≠ separator) (text : Bytes) :
    upTo separator (b :: text) = b :: upTo separator text := by
  simp [upTo, h]

/-- Without the separator nothing is cut off. -/
theorem upTo_eq_self {separator : UInt8} {text : Bytes} (h : separator ∉ text) :
    upTo separator text = text := by
  induction text with
  | nil => rfl
  | cons b rest ih =>
    obtain ⟨hb, hrest⟩ := not_or.mp (mt List.mem_cons.mpr h)
    rw [upTo_cons fun hs => hb hs.symm, ih hrest]

theorem length_upTo_le (separator : UInt8) (text : Bytes) :
    (upTo separator text).length ≤ text.length :=
  (List.takeWhile_sublist _).length_le

/-- A separator cuts something off. -/
theorem length_upTo_lt {separator : UInt8} {text : Bytes} (h : separator ∈ text) :
    (upTo separator text).length < text.length := by
  induction text with
  | nil => simp at h
  | cons b rest ih =>
    by_cases hb : b = separator
    · simp [upTo, hb]
    · rw [upTo_cons hb, List.length_cons, List.length_cons]
      rcases List.mem_cons.mp h with rfl | hrest
      · exact absurd rfl hb
      · exact Nat.succ_lt_succ (ih hrest)

/-- What stands before the first separator. -/
theorem upTo_append {separator : UInt8} {before : Bytes} (h : separator ∉ before)
    (behind : Bytes) : upTo separator (before ++ separator :: behind) = before := by
  induction before with
  | nil => simp [upTo]
  | cons b rest ih =>
    obtain ⟨hb, hrest⟩ := not_or.mp (mt List.mem_cons.mpr h)
    rw [List.cons_append, upTo_cons fun hs => hb hs.symm, ih hrest]

/-! ## Escapes -/

/-- What a byte in front does to a text: an escape takes three bytes for one, and any other byte
stays. -/
theorem unescape_cons_cases {b : UInt8} {rest result : Bytes}
    (h : unescape (b :: rest) = some result) :
    (b = 0x25 ∧ ∃ c d rest' byte result', rest = c :: d :: rest' ∧
      unescape rest' = some result' ∧ result = byte :: result') ∨
    (b ≠ 0x25 ∧ ∃ result', unescape rest = some result' ∧ result = b :: result') := by
  unfold unescape unescapeWith at h
  split at h
  · next heq => simp at heq
  · next c d rest' heq =>
    obtain ⟨rfl, rfl⟩ := List.cons.inj heq
    simp only [if_true, Option.bind_eq_bind, Option.bind_eq_some_iff, Option.pure_def,
      Option.some.injEq] at h
    obtain ⟨high, -, low, -, result', hrest, rfl⟩ := h
    exact .inl ⟨rfl, c, d, rest', _, result', rfl, hrest, rfl⟩
  · next c rest' _ heq =>
    obtain ⟨rfl, rfl⟩ := List.cons.inj heq
    by_cases hb : b = 0x25
    · simp [hb] at h
    · rw [if_neg (by simp [hb])] at h
      obtain ⟨result', hrest, rfl⟩ := Option.map_eq_some_iff.mp h
      exact .inr ⟨hb, result', hrest, rfl⟩

theorem unescape_nil : unescape [] = some [] := rfl

/-- Replacing escapes makes a text shorter by what the escapes take, and leaves a text without
escapes alone. -/
theorem unescape_spec {text result : Bytes} (h : unescape text = some result) :
    (0x25 ∉ text → result = text) ∧ (0x25 ∈ text → result.length < text.length) := by
  match text with
  | [] =>
    obtain rfl : [] = result := by simpa [unescape_nil] using h
    simp
  | b :: rest =>
    rcases unescape_cons_cases h with ⟨rfl, c, d, rest', byte, result', hescape, hrest, rfl⟩ |
      ⟨hb, result', hrest, rfl⟩
    · have hlength : rest.length = rest'.length + 2 := by rw [hescape]; rfl
      obtain ⟨hsame, hshorter⟩ := unescape_spec hrest
      refine ⟨fun hnone => absurd (by simp) hnone, fun _ => ?_⟩
      have hle : result'.length ≤ rest'.length := by
        by_cases hmem : 0x25 ∈ rest'
        · exact Nat.le_of_lt (hshorter hmem)
        · exact Nat.le_of_eq (congrArg List.length (hsame hmem))
      simp only [List.length_cons]
      omega
    · obtain ⟨hsame, hshorter⟩ := unescape_spec hrest
      refine ⟨fun hnone => ?_, fun hmem => ?_⟩
      · rw [hsame fun hmem => hnone (List.mem_cons_of_mem b hmem)]
      · rcases List.mem_cons.mp hmem with rfl | hmem
        · exact absurd rfl hb
        · simpa using hshorter hmem
termination_by text.length
decreasing_by all_goals (simp only [List.length_cons]; omega)

/-! ## Rooted names -/

/-- A character with a meaning in references: it begins an escape, a query or a fragment. -/
def isMark (b : UInt8) : Bool := b = 0x25 || b = 0x3F || b = 0x23

/-- A character with a meaning makes the path of a reference shorter than the text. -/
theorem length_unescape_upTo_lt {text result : Bytes} (hmark : text.any isMark = true)
    (h : unescape (upTo 0x3F (upTo 0x23 text)) = some result) : result.length < text.length := by
  obtain ⟨hsame, hshorter⟩ := unescape_spec h
  have hquery := length_upTo_le 0x3F (upTo 0x23 text)
  have hfragment := length_upTo_le 0x23 text
  by_cases hescape : 0x25 ∈ upTo 0x3F (upTo 0x23 text)
  · have := hshorter hescape
    omega
  · rw [hsame hescape]
    by_cases hhash : 0x23 ∈ text
    · have := length_upTo_lt hhash
      omega
    · rw [upTo_eq_self hhash] at hescape ⊢
      by_cases hask : 0x3F ∈ text
      · exact length_upTo_lt hask
      · rw [upTo_eq_self hask] at hescape
        obtain ⟨b, hb, hmark⟩ := List.any_eq_true.mp hmark
        simp only [isMark, Bool.or_eq_true, decide_eq_true_eq] at hmark
        rcases hmark with (rfl | rfl) | rfl
        · exact absurd hb hescape
        · exact absurd hb hask
        · exact absurd hb hhash

/-- Where no byte is a mark of references, nothing is cut off and nothing is escaped. -/
theorem upTo_eq_self_of_unmarked {text : Bytes} (h : text.any isMark = false) :
    upTo 0x3F (upTo 0x23 text) = text ∧ 0x25 ∉ text := by
  have hnone : ∀ b, isMark b = true → b ∉ text := by
    intro b hb hmem
    have hall := List.any_eq_false.mp h b hmem
    exact hall hb
  rw [upTo_eq_self (hnone 0x23 rfl), upTo_eq_self (hnone 0x3F rfl)]
  exact ⟨rfl, hnone 0x25 rfl⟩

/-- A rooted text has no scheme. -/
theorem splitScheme_rooted (rest : Bytes) :
    splitScheme (0x2F :: rest) = some ([], 0x2F :: rest) := by
  have hbyte : isSchemeByte 0x2F = false := by decide
  simp [splitScheme, hbyte]

/-- A path behind a single slash is read without an authority. -/
theorem parseRest_rooted {rest : Bytes} (h : rest.head? ≠ some 0x2F) :
    parseRest [] (0x2F :: rest) = (unescape (0x2F :: rest)).map (⟨[], ·⟩) := by
  have hsingle : (bytes "//").isPrefixOf (0x2F :: rest) = false := by
    cases rest with
    | nil => rfl
    | cons b rest =>
      have hb : b ≠ 0x2F := by simpa using h
      have hslashes : bytes "//" = [0x2F, 0x2F] := by decide
      simp [hslashes, List.isPrefixOf, hb.symm]
  simp [parseRest, hsingle]

/-- A reference is read up to its fragment. -/
theorem parseBody_of_parse? {text : Bytes} {reference : Reference}
    (h : parse? text = some reference) : parseBody (upTo 0x23 text) = some reference := by
  unfold parse? at h
  split at h
  · next hcut => rwa [upTo_eq_self (Bytes.cut_eq_none_iff.mp hcut)]
  · next before behind hcut =>
    simp only [Option.bind_eq_bind, Option.bind_eq_some_iff] at h
    obtain ⟨reference', hbody, -, -, hsame⟩ := h
    obtain rfl : reference' = reference := by simpa using hsame
    obtain ⟨hbefore, rfl⟩ := Bytes.cut_eq_some_iff.mp hcut
    rwa [upTo_append hbefore]

/-- **The path of a rooted reference** is its text without query and fragment, and with its escapes
replaced. -/
theorem path_of_parse?_rooted {rest : Bytes} (hrest : rest.head? ≠ some 0x2F)
    {reference : Reference} (h : parse? (0x2F :: rest) = some reference) :
    unescape (upTo 0x3F (upTo 0x23 (0x2F :: rest))) = some reference.path := by
  have hbody := parseBody_of_parse? h
  rw [upTo_cons (by decide)] at hbody ⊢
  rw [upTo_cons (by decide)]
  have hbehind : (upTo 0x3F (upTo 0x23 rest)).head? ≠ some 0x2F := by
    -- cutting off a query or a fragment brings no slash to the front
    cases rest with
    | nil => simp [upTo]
    | cons b rest =>
      have hb : b ≠ 0x2F := by simpa using hrest
      by_cases hhash : b = 0x23
      · simp [upTo, hhash]
      · rw [upTo_cons hhash]
        by_cases hask : b = 0x3F
        · simp [upTo, hask]
        · rw [upTo_cons hask]
          simpa using hb
  unfold parseBody at hbody
  split at hbody
  · simp at hbody
  · rw [splitScheme_rooted, Option.bind_eq_bind, Option.bind_some] at hbody
    dsimp only at hbody
    rw [upTo_cons (by decide), parseRest_rooted hbehind] at hbody
    obtain ⟨path, hpath, rfl⟩ := Option.map_eq_some_iff.mp hbody
    exact hpath

end Reference

namespace Target

open Bracket.Path

/-! ## Rooted forms -/

theorem rooted_eq (path : Bytes) : rooted path = clean (separator :: separator :: path) := by
  have hjoin : join [[separator], path] = clean (separator :: separator :: path) := by
    simp [join, List.intercalate_cons_cons, List.intercalate_singleton]
  rw [rooted, hjoin, clean_clean rfl]

/-- The rooted form of a path is made of names. -/
theorem exists_names_rooted (path : Bytes) :
    ∃ names, (∀ name ∈ names, IsName name) ∧ rooted path = ofElements true names :=
  ⟨_, fun _ => isName_of_mem_cleanElements rfl, by rw [rooted_eq, clean_of_isRooted rfl]⟩

theorem rooted_of_isRooted {path : Bytes} (h : isRooted path = true) : rooted path = clean path := by
  rw [rooted_eq, clean_cons_separator (isRooted_cons_separator path), clean_cons_separator h]

/-- A target that is a path or a file URI. -/
def IsLocal (target : Bytes) : Prop :=
  ∃ reference, Reference.parse? target = some reference ∧
    (reference.scheme = [] ∨ reference.scheme = bytes "file")

/-- The normal form of a local target is made of names below the top. -/
theorem exists_names_normalize {target : Bytes} (h : IsLocal target) :
    ∃ names, (∀ name ∈ names, IsName name) ∧ normalize target = ofElements true names := by
  obtain ⟨reference, hread, hscheme⟩ := h
  have hfile : bytes "file" ≠ [] := by decide
  rcases hscheme with hscheme | hscheme
  · simpa [normalize, hread, hscheme] using exists_names_rooted target
  · simpa [normalize, hread, hscheme, hfile] using exists_names_rooted reference.path

/-- **The name of a local target and the path that is opened for it.** The name is rooted. The file
system opens exactly that path if and only if the name cannot be read as a reference, or no character
in it begins an escape, a query or a fragment. -/
theorem path_normalize_eq_iff {target : Bytes} (h : IsLocal target) :
    isRooted (normalize target) = true ∧
    (path (normalize target) = normalize target ↔
      Reference.parse? (normalize target) = none ∨
        (normalize target).any Reference.isMark = false) := by
  obtain ⟨names, hnames, hnormal⟩ := exists_names_normalize h
  have hclean : rooted (ofElements true names) = ofElements true names := by
    rw [rooted_of_isRooted rfl, clean_ofElements hnames]
  rw [hnormal]
  refine ⟨rfl, ?_⟩
  cases hread : Reference.parse? (ofElements true names) with
  | none => simp [path, hread, hclean]
  | some reference =>
    have hpath := Reference.path_of_parse?_rooted (not_separator_behind hnames) hread
    have hopened : path (ofElements true names) = rooted reference.path := by
      simp only [path, hread]
    rw [hopened]
    cases hmark : (ofElements true names).any Reference.isMark with
    | false =>
      obtain ⟨hall, hescape⟩ := Reference.upTo_eq_self_of_unmarked hmark
      have hwhole : Reference.unescape (ofElements true names) = some reference.path := by
        rw [← hall]
        exact hpath
      simp [(Reference.unescape_spec hwhole).1 hescape, hclean]
    | true =>
      -- the opened path is no longer than what was read, which is shorter than the name
      have hshorter := Reference.length_unescape_upTo_lt hmark hpath
      have hroot : isRooted reference.path = true := by
        rw [Reference.upTo_cons (by decide), Reference.upTo_cons (by decide)] at hpath
        rcases Reference.unescape_cons_cases hpath with ⟨hescape, -⟩ | ⟨-, result, -, hresult⟩
        · exact absurd hescape (by decide)
        · rw [hresult]
          rfl
      have hle := length_clean_le hroot
      rw [rooted_of_isRooted hroot]
      refine iff_of_false (fun hsame => ?_) (by simp)
      rw [hsame] at hle
      exact absurd hshorter (by omega)

/-- A file URI with an escaped per cent sign names the file `a%41.bf`, but `aA.bf` is opened. A
space has no meaning of its own. -/
theorem path_normalize_eq_iff_escaped :
    IsLocal (bytes "file:///a%2541.bf") ∧
    normalize (bytes "file:///a%2541.bf") = bytes "/a%41.bf" ∧
    path (bytes "/a%41.bf") = bytes "/aA.bf" ∧
    path (normalize (bytes "file:///a%2541.bf")) ≠ normalize (bytes "file:///a%2541.bf") ∧
    path (normalize (bytes "./a b.bf")) = normalize (bytes "./a b.bf") := by
  have hescaped : IsLocal (bytes "file:///a%2541.bf") :=
    ⟨⟨bytes "file", bytes "/a%41.bf"⟩, by decide, by decide⟩
  have hspace : IsLocal (bytes "./a b.bf") := ⟨⟨[], bytes "./a b.bf"⟩, by decide, by decide⟩
  refine ⟨hescaped, by decide, by decide, fun hsame => ?_, ?_⟩
  · exact absurd ((path_normalize_eq_iff hescaped).2.mp hsame) (by decide)
  · exact (path_normalize_eq_iff hspace).2.mpr (by decide)

end Target

end Bracket
