import Bracket.Proofs.Target

/-!
# Canonical names

The name of a local target is a canonical path (`Path.IsCanonical`): it starts at the root, no
element of it is empty or stands for a directory itself or its parent, and no slash is at its end
unless it is the root. Canonical paths are the paths of names (`Path.isCanonical_iff`), which is all
that cleaning leaves.

The escapes of a file URI are replaced on the way, so there may be per cent signs, colons and control
characters in a name. It is still taken for a path if it is normalised again: a slash in front leaves
no room for a scheme (`Reference.scheme_of_parse?_rooted`), and without a scheme no escape is
replaced. So a canonical path is its own name (`Target.normalize_of_isCanonical`).
-/

namespace Bracket

namespace Path

/-- A rooted path without empty and dotted elements, and without a slash at its end. The root is
such a path, although its slash is at its end. -/
structure IsCanonical (path : Bytes) : Prop where
  rooted : isRooted path = true
  proper : path ≠ [separator] →
    ∀ element ∈ elements path.tail, element ≠ [] ∧ element ≠ here ∧ element ≠ parent
  last_ne : path ≠ [separator] → path.getLast? ≠ some separator

/-- A slash at the end of a path leaves an empty element behind it. -/
theorem nil_mem_elements_of_getLast? {path : Bytes} (h : path.getLast? = some separator) :
    [] ∈ elements path := by
  obtain ⟨front, rfl⟩ := List.getLast?_eq_some_iff.mp h
  have hempty : elements [] = [[]] := rfl
  rw [elements_append_separator, hempty]
  simp

theorem isCanonical_ofElements {names : List Bytes} (h : ∀ name ∈ names, IsName name) :
    IsCanonical (ofElements true names) := by
  by_cases hnil : names = []
  · rw [hnil]
    exact ⟨rfl, fun hroot => absurd rfl hroot, fun hroot => absurd rfl hroot⟩
  · have helements : elements (ofElements true names).tail = names := by
      rw [ofElements_rooted, List.tail_cons,
        elements_intercalate (fun name hname => (h name hname).separator_notMem) hnil]
    refine ⟨rfl, fun _ element helement => ?_, fun hroot hslash => ?_⟩
    · have hname := h element (helements ▸ helement)
      exact ⟨hname.ne_nil, hname.ne_here, hname.ne_parent⟩
    · -- behind the slash in front there is something, which ends in the same slash
      have hbehind : (ofElements true names).tail.getLast? = some separator := by
        rw [ofElements_rooted] at hroot hslash ⊢
        rwa [List.getLast?_cons_of_ne_nil (mt (congrArg (separator :: ·)) hroot)] at hslash
      have hempty : [] ∈ names := helements ▸ nil_mem_elements_of_getLast? hbehind
      exact (h [] hempty).ne_nil rfl

/-- **The canonical paths are the rooted paths of names.** -/
theorem isCanonical_iff {path : Bytes} :
    IsCanonical path ↔ ∃ names, (∀ name ∈ names, IsName name) ∧ path = ofElements true names := by
  constructor
  · intro h
    obtain ⟨rest, rfl⟩ := eq_cons_of_isRooted h.rooted
    by_cases hroot : separator :: rest = [separator]
    · exact ⟨[], List.forall_mem_nil _, hroot⟩
    · refine ⟨elements rest, fun name hname => ?_, ?_⟩
      · obtain ⟨hnil, hhere, hparent⟩ := h.proper hroot name hname
        exact ⟨hnil, hhere, hparent, separator_notMem_of_mem_elements hname⟩
      · rw [ofElements_rooted, intercalate_elements]
  · rintro ⟨names, hnames, rfl⟩
    exact isCanonical_ofElements hnames

end Path

namespace Reference

/-- What stands behind a scheme does not change it. -/
theorem scheme_of_parseRest {scheme rest : Bytes} {reference : Reference}
    (h : parseRest scheme rest = some reference) : reference.scheme = scheme := by
  have hunescaped : ∀ text, (unescape text).map (⟨scheme, ·⟩) = some reference →
      reference.scheme = scheme := by
    intro text htext
    obtain ⟨path, -, rfl⟩ := Option.map_eq_some_iff.mp htext
    rfl
  unfold parseRest at h
  split at h
  · split at h
    · obtain rfl := Option.some.inj h
      rfl
    · split at h
      · simp at h
      · exact hunescaped _ h
  · split at h
    · dsimp only at h
      split at h
      · exact hunescaped _ h
      · simp at h
    · exact hunescaped _ h

/-- **A rooted text is never read as having a scheme**, whatever stands behind the slash. -/
theorem scheme_of_parse?_rooted {rest : Bytes} {reference : Reference}
    (h : parse? (0x2F :: rest) = some reference) : reference.scheme = [] := by
  have hbody := parseBody_of_parse? h
  rw [upTo_cons (by decide)] at hbody
  unfold parseBody at hbody
  split at hbody
  · simp at hbody
  · rw [splitScheme_rooted, Option.bind_eq_bind, Option.bind_some] at hbody
    split at hbody
    · obtain rfl := Option.some.inj hbody
      rfl
    · exact scheme_of_parseRest hbody

end Reference

namespace Target

open Bracket.Path

/-- **A canonical path is its own name.** -/
theorem normalize_of_isCanonical {path : Bytes} (h : IsCanonical path) : normalize path = path := by
  obtain ⟨names, hnames, rfl⟩ := isCanonical_iff.mp h
  unfold normalize
  split
  · rfl
  · next reference hread =>
    rw [if_pos (Reference.scheme_of_parse?_rooted hread), rooted_of_isRooted rfl,
      clean_ofElements hnames]

/-- **Normalizing a local target gives a canonical one.** -/
theorem isCanonical_normalize {target : Bytes} (h : IsLocal target) :
    IsCanonical (normalize target) :=
  isCanonical_iff.mpr (exists_names_normalize h)

/-- What is no local target is left alone. -/
theorem normalize_of_not_isLocal {target : Bytes} (h : ¬ IsLocal target) :
    normalize target = target := by
  unfold normalize
  split
  · rfl
  · next reference hread =>
    have hscheme : reference.scheme ≠ [] ∧ reference.scheme ≠ bytes "file" :=
      not_or.mp fun hscheme => h ⟨reference, hread, hscheme⟩
    rw [if_neg hscheme.1, if_neg hscheme.2]

/-- **Normalising is idempotent and yields canonical paths.** Normalising a name once more gives the
same name. A target that cannot be read as a reference, or has a scheme other than that of files, is
left alone, and the name of every other target is a canonical path. -/
theorem normalize_canonical (target : Bytes) :
    normalize (normalize target) = normalize target ∧
      ((¬ IsLocal target ∧ normalize target = target) ∨
        (IsLocal target ∧ IsCanonical (normalize target))) := by
  by_cases h : IsLocal target
  · have hcanonical := isCanonical_normalize h
    exact ⟨normalize_of_isCanonical hcanonical, .inr ⟨h, hcanonical⟩⟩
  · have hsame := normalize_of_not_isLocal h
    exact ⟨congrArg normalize hsame, .inl ⟨h, hsame⟩⟩

/-- The escapes of a file URI leave a colon and a per cent sign in a name, which stays the same. -/
example : normalize (bytes "file:///a/../x%3Ab%2541//") = bytes "/x:b%41" ∧
    normalize (bytes "/x:b%41") = bytes "/x:b%41" := by
  decide

end Target

end Bracket
