import Bracket.Proofs.Environment

/-!
# Where the default roots lead

A data directory is cleaned before its variables are expanded. If a variable holds anything but one
name, that makes a difference: a parent element takes away the variable in front of it, and not what
the variable holds. The root is the one inside the data directory exactly if cleaning first leads to
the same directory (`clean_rootIn_eq_iff`).

It does for ordinary directories (`IsOrdinary`), which have no parent elements, do not start with the
element for the directory itself, and close their braces between two slashes. Such a directory is
expanded element by element (`expand_intercalate`), and an element that cleaning drops expands to
nothing that cleaning keeps (`foldl_push_kept`).
-/

namespace Bracket.Environment

open Bracket.Path

variable (env : Environment)

/-! ## Cleaning first -/

/-- The clean root has the name of the program behind what the clean directory expands to. -/
theorem clean_rootIn {directory : Bytes} (h : directory ≠ []) :
    clean (env.rootIn directory) =
      clean (env.expand (clean directory) ++ separator :: programDirectory) := by
  rw [rootIn_eq env h]
  -- the two clean directories without any name have no dollar sign in them
  split
  · next hhere =>
    rw [hhere, expand_of_notMem env (by decide)]
    decide
  · split
    · next hroot =>
      rw [hroot, expand_of_notMem env (by decide)]
      decide
    · rfl

/-- **The root is inside the data directory exactly if cleaning first does not lead elsewhere.** -/
theorem clean_rootIn_eq_iff {directory : Bytes} (h : directory ≠ [])
    (hexpand : env.expand directory ≠ []) :
    clean (env.rootIn directory) = join [env.expand directory, programDirectory] ↔
      clean (env.expand (clean directory) ++ [separator]) = clean (env.expand directory) := by
  rw [clean_rootIn env h, join_pair hexpand,
    clean_append_name_eq_iff _ _ isName_programDirectory, clean_append_separator hexpand]

/-! ## Ordinary directories -/

/-- A data directory without parent elements, which does not start with the element for the directory
itself, and in which every brace is closed before the next slash. -/
structure IsOrdinary (directory : Bytes) : Prop where
  parent_notMem : parent ∉ elements directory
  head?_ne : (elements directory).head? ≠ some here
  closes : ∀ element ∈ elements directory, BracesClose element

/-- Such a directory is expanded element by element. -/
theorem expand_intercalate {parts : List Bytes} (h : ∀ part ∈ parts, BracesClose part) :
    env.expand (List.intercalate [separator] parts) =
      List.intercalate [separator] (parts.map env.expand) := by
  induction parts with
  | nil => exact expand_nil env
  | cons part rest ih =>
    obtain ⟨hpart, hrest⟩ := List.forall_mem_cons.mp h
    cases rest with
    | nil => simp
    | cons next rest =>
      have hmore := ih hrest
      rw [List.map_cons] at hmore ⊢
      rw [List.map_cons, List.intercalate_cons_cons, List.intercalate_cons_cons, ← hmore,
        List.append_assoc, List.append_assoc, List.singleton_append, List.singleton_append,
        expand_append env (.inr hpart)]

/-- An element that stays when a directory without parent elements is cleaned. -/
def isKept (element : Bytes) : Bool := element != [] && element != here

/-- Cleaning keeps an element unless it is empty or a single dot. -/
theorem isKept_iff {element : Bytes} : isKept element = true ↔ element ≠ [] ∧ element ≠ here := by
  simp [isKept]

theorem not_isKept_iff {element : Bytes} :
    ¬ isKept element = true ↔ element = [] ∨ element = here := by
  rw [isKept_iff, not_and_or, not_not, not_not]

/-- Where nothing leads up, cleaning only drops elements. -/
theorem foldl_push_of_parent_notMem (rooted : Bool) {parts : List Bytes} (h : parent ∉ parts)
    (before : List Bytes) :
    parts.foldl (push rooted) before = (parts.filter isKept).reverse ++ before := by
  induction parts generalizing before with
  | nil => rfl
  | cons part rest ih =>
    obtain ⟨hpart, hrest⟩ := not_or.mp (mt List.mem_cons.mpr h)
    rw [List.foldl_cons, ih hrest]
    unfold push
    by_cases hkept : isKept part = true
    · rw [List.filter_cons_of_pos hkept, if_neg (fun h => not_isKept_iff.mpr h hkept),
        if_neg (Ne.symm hpart), List.reverse_cons, List.append_assoc]
      rfl
    · rw [List.filter_cons_of_neg hkept, if_pos (not_isKept_iff.mp hkept)]

/-- The elements of texts with slashes between them are those of the texts. -/
theorem foldl_push_intercalate (rooted : Bool) (before texts : List Bytes) :
    (elements (List.intercalate [separator] texts)).foldl (push rooted) before =
      (texts.flatMap elements).foldl (push rooted) before := by
  induction texts generalizing before with
  | nil => rfl
  | cons text rest ih =>
    cases rest with
    | nil => simp
    | cons next rest =>
      rw [List.intercalate_cons_cons, List.append_assoc, List.singleton_append,
        elements_append_separator, List.foldl_append, ih, ← List.foldl_append, ← List.flatMap_cons]

/-- **What cleaning drops expands to nothing that counts.** -/
theorem foldl_push_kept (rooted : Bool) (before parts : List Bytes) :
    ((parts.map env.expand).flatMap elements).foldl (push rooted) before =
      (((parts.filter isKept).map env.expand).flatMap elements).foldl (push rooted) before := by
  induction parts generalizing before with
  | nil => rfl
  | cons part rest ih =>
    rw [List.map_cons, List.flatMap_cons, List.foldl_append, ih]
    by_cases hkept : isKept part = true
    · rw [List.filter_cons_of_pos hkept, List.map_cons, List.flatMap_cons, List.foldl_append]
    · rw [List.filter_cons_of_neg hkept]
      congr 1
      -- an element that is dropped expands to itself, and would have been dropped later, too
      rcases not_isKept_iff.mp hkept with rfl | rfl
      · rw [expand_nil]
        rfl
      · rw [expand_of_notMem env (by decide)]
        rfl

/-- The front of texts with slashes between them and behind them. -/
theorem isRooted_intercalate (text : Bytes) (rest : List Bytes) :
    isRooted (List.intercalate [separator] (text :: rest) ++ [separator]) =
      isRooted (text ++ [separator]) := by
  cases rest with
  | nil => rw [List.intercalate_singleton]
  | cons next rest =>
    rw [List.intercalate_cons_cons, List.append_assoc, List.append_assoc, List.singleton_append,
      isRooted_append_separator]

section Ordinary

variable {directory : Bytes}

/-- The clean form of an ordinary directory is made of the elements that are kept. -/
theorem IsOrdinary.clean_eq (h : IsOrdinary directory) :
    clean directory = ofElements (isRooted directory) ((elements directory).filter isKept) := by
  rw [clean, cleanElements, foldl_push_of_parent_notMem _ h.parent_notMem, List.append_nil,
    List.reverse_reverse]

/-- An ordinary directory is expanded element by element. -/
theorem IsOrdinary.expand_eq (h : IsOrdinary directory) :
    env.expand directory = List.intercalate [separator] ((elements directory).map env.expand) := by
  rw [← expand_intercalate env h.closes, intercalate_elements]

/-- The first element of an ordinary directory that is not rooted is kept. -/
theorem IsOrdinary.exists_first (h : IsOrdinary directory) (hne : directory ≠ [])
    (hrooted : isRooted directory = false) :
    ∃ first rest, elements directory = first :: rest ∧ isKept first = true := by
  obtain ⟨first, rest, hfirst⟩ := List.exists_cons_of_ne_nil (elements_ne_nil directory)
  have hself := intercalate_elements directory
  refine ⟨first, rest, hfirst, isKept_iff.mpr ⟨?_, ?_⟩⟩
  · rintro rfl
    rw [hfirst] at hself
    cases rest with
    | nil => exact hne hself.symm
    | cons next rest =>
      rw [List.intercalate_cons_cons] at hself
      rw [← hself] at hrooted
      simp [isRooted] at hrooted
  · rintro rfl
    exact h.head?_ne (by rw [hfirst]; rfl)

/-- **Cleaning an ordinary directory first leads to the same directory.** -/
theorem IsOrdinary.clean_expand (h : IsOrdinary directory) (hexpand : env.expand directory ≠ []) :
    clean (env.expand (clean directory) ++ [separator]) = clean (env.expand directory) := by
  have hne : directory ≠ [] := by
    rintro rfl
    exact hexpand (expand_nil env)
  have hcloses : ∀ part ∈ (elements directory).filter isKept, BracesClose part :=
    fun part hpart => h.closes part (List.mem_filter.mp hpart).1
  -- cleaning before or after expanding walks through the same elements
  have hwalk : ∀ rooted, (elements (env.expand directory)).foldl (push rooted) [] =
      (elements (List.intercalate [separator]
        (((elements directory).filter isKept).map env.expand))).foldl (push rooted) [] := by
    intro rooted
    rw [h.expand_eq env, foldl_push_intercalate, foldl_push_intercalate, foldl_push_kept]
  rw [h.clean_eq]
  cases hrooted : isRooted directory with
  | true =>
    obtain ⟨rest, hrest⟩ := eq_cons_of_isRooted hrooted
    have hfront : isRooted (env.expand directory) = true := by
      rw [hrest, expand_separator]
      rfl
    rw [ofElements_rooted, expand_separator, expand_intercalate env hcloses,
      clean_append_separator (by simp), clean_of_isRooted rfl, clean_of_isRooted hfront,
      cleanElements_cons_separator, cleanElements, hfront, hwalk]
  | false =>
    -- the first element is kept, so it decides for both whether they are rooted
    obtain ⟨first, rest, hfirst, hkept⟩ := h.exists_first hne hrooted
    have hparts : (elements directory).filter isKept = first :: rest.filter isKept := by
      rw [hfirst, List.filter_cons_of_pos hkept]
    have hfront : isRooted (env.expand directory ++ [separator]) =
        isRooted (List.intercalate [separator]
          (((elements directory).filter isKept).map env.expand) ++ [separator]) := by
      rw [h.expand_eq env, hfirst, List.map_cons, isRooted_intercalate, ← hfirst, hparts,
        List.map_cons, isRooted_intercalate]
    rw [ofElements_relative (by simp [hparts]), expand_intercalate env hcloses,
      ← clean_append_separator hexpand, clean, clean, cleanElements, cleanElements, ← hfront,
      foldl_push_append_slash, foldl_push_append_slash, hwalk]

end Ordinary

/-! ## Default roots -/

/-- **A default root is the program's directory inside the data directory it was listed for exactly
if cleaning that directory before its variables are expanded leads to the same directory**, and so it
is for every ordinary one, whatever the variables hold. -/
theorem clean_defaultRoots_iff :
    List.Forall₂ (fun directory root => env.expand directory ≠ [] →
      (clean root = join [env.expand directory, programDirectory] ↔
        clean (env.expand (clean directory) ++ [separator]) = clean (env.expand directory)) ∧
      (IsOrdinary directory → clean root = join [env.expand directory, programDirectory]))
      env.directories env.defaultRoots := by
  rw [defaultRoots_eq, List.forall₂_map_right_iff, List.forall₂_same]
  intro directory hdirectory hexpand
  have hlaw := clean_rootIn_eq_iff env (ne_nil_of_mem_directories env hdirectory) hexpand
  exact ⟨hlaw, fun hordinary => hlaw.mpr (hordinary.clean_expand env hexpand)⟩

/-- The parent of what a variable holds is not the parent of the variable: the first root below is in
the working directory, while the second is where its data directory is. -/
theorem clean_defaultRoots_iff_parent :
    ∃ env : Environment,
      env.directories = [bytes "$A/../b", bytes "$A//./b"] ∧
      env.defaultRoots = [bytes "b/bfc", bytes "/q/r/b/bfc"] ∧
      clean (bytes "b/bfc") ≠ join [env.expand (bytes "$A/../b"), programDirectory] ∧
      clean (bytes "/q/r/b/bfc") = join [env.expand (bytes "$A//./b"), programDirectory] := by
  let env : Environment :=
    [(bytes "A", bytes "/q/r"), (dataDirectories, bytes "$A/../b:$A//./b")]
  have hdirectories : env.directories = [bytes "$A/../b", bytes "$A//./b"] := by decide
  have hroots : env.defaultRoots = [bytes "b/bfc", bytes "/q/r/b/bfc"] := by decide +kernel
  have hordinary : IsOrdinary (bytes "$A//./b") := by
    refine ⟨by decide, by decide, fun element helement inside hinside => ?_⟩
    have hnone : ∀ element ∈ elements (bytes "$A//./b"), 0x7B ∉ element := by decide
    exact absurd (hinside.subset (by simp)) (hnone element helement)
  have hlaw := clean_defaultRoots_iff env
  rw [hdirectories, hroots, List.forall₂_cons, List.forall₂_cons] at hlaw
  obtain ⟨hfirst, hsecond, -⟩ := hlaw
  refine ⟨env, hdirectories, hroots, ?_, (hsecond (by decide +kernel)).2 hordinary⟩
  rw [Ne, (hfirst (by decide +kernel)).1]
  decide +kernel

end Bracket.Environment
