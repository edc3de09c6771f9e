import Bracket.Proofs.Path

/-!
# Clean paths that are not rooted

A path that is not rooted keeps the parent elements at its front when it is cleaned, so its clean
elements need not be names. They are parts all the same (`IsPart`): not empty, not the element for
the directory itself, and without a slash. That is enough to find them again in the clean path
(`ofElements_inj`).

A name behind a slash is always one more clean element, whatever stands in front of the slash
(`clean_append_name`), so two paths that are clean alike with a name behind them are clean alike
without it (`clean_append_name_eq_iff`).
-/

namespace Bracket.Path

/-! ## Parts -/

/-- An element that cleaning leaves: a name, or a parent that nothing takes away. -/
structure IsPart (element : Bytes) : Prop where
  ne_nil : element ≠ []
  ne_here : element ≠ here
  separator_notMem : separator ∉ element

theorem isPart_parent : IsPart parent := ⟨by decide, by decide, by decide⟩

theorem IsName.isPart {element : Bytes} (h : IsName element) : IsPart element :=
  ⟨h.ne_nil, h.ne_here, h.separator_notMem⟩

/-- Pushing an element leaves parts only. -/
theorem isPart_push {before : List Bytes} {element : Bytes} (hbefore : ∀ e ∈ before, IsPart e)
    (helement : separator ∉ element) (rooted : Bool) : ∀ e ∈ push rooted before element, IsPart e := by
  unfold push
  split
  · exact hbefore
  · next hskip =>
    split
    · split
      · split
        · exact hbefore
        -- a relative path may lead up from where it starts, so here `..` is kept
        · exact List.forall_mem_singleton.mpr isPart_parent
      · split
        · exact List.forall_mem_cons.mpr ⟨isPart_parent, hbefore⟩
        · exact (List.forall_mem_cons.mp hbefore).2
    · obtain ⟨hnil, hhere⟩ := not_or.mp hskip
      exact List.forall_mem_cons.mpr ⟨⟨hnil, hhere, helement⟩, hbefore⟩

theorem isPart_foldl_push {before parts : List Bytes} (hbefore : ∀ e ∈ before, IsPart e)
    (hparts : ∀ part ∈ parts, separator ∉ part) (rooted : Bool) :
    ∀ e ∈ parts.foldl (push rooted) before, IsPart e := by
  induction parts generalizing before with
  | nil => exact hbefore
  | cons part parts ih =>
    obtain ⟨hpart, hrest⟩ := List.forall_mem_cons.mp hparts
    exact ih (isPart_push hbefore hpart rooted) hrest

/-- **The clean elements of any path are parts.** -/
theorem isPart_of_mem_cleanElements {path element : Bytes} (h : element ∈ cleanElements path) :
    IsPart element :=
  isPart_foldl_push (by simp) (fun _ => separator_notMem_of_mem_elements) _ element
    (List.mem_reverse.mp h)

/-! ## Paths of parts -/

/-- Parts that are joined are the elements again. -/
theorem elements_intercalate_parts {parts : List Bytes} (h : ∀ e ∈ parts, IsPart e)
    (hne : parts ≠ []) : elements (List.intercalate [separator] parts) = parts :=
  elements_intercalate (fun part hpart => (h part hpart).separator_notMem) hne

/-- Whether a clean path is rooted can be seen from it. -/
theorem isRooted_ofElements (rooted : Bool) {parts : List Bytes} (h : ∀ e ∈ parts, IsPart e) :
    isRooted (ofElements rooted parts) = rooted := by
  cases rooted with
  | true => rfl
  | false =>
    cases parts with
    | nil => rfl
    | cons first rest =>
      have hfirst := h first List.mem_cons_self
      obtain ⟨b, tail, rfl⟩ := List.exists_cons_of_ne_nil hfirst.ne_nil
      have hb : b ≠ separator := fun hb => hfirst.separator_notMem (by simp [hb])
      cases rest <;>
        simp [isRooted, ofElements, List.intercalate_cons_cons, List.intercalate_singleton, hb]

/-- A path that is not rooted is that of the directory itself only if it has no part. -/
theorem intercalate_parts_ne {parts : List Bytes} (h : ∀ e ∈ parts, IsPart e) (hne : parts ≠ []) :
    List.intercalate [separator] parts ≠ [] ∧ List.intercalate [separator] parts ≠ here := by
  have hself := elements_intercalate_parts h hne
  constructor
  · intro hnil
    have hempty : elements [] = [[]] := rfl
    rw [hnil, hempty] at hself
    exact (h [] (by simp [← hself])).ne_nil rfl
  · intro hhere
    have hsingle : elements here = [here] := by decide
    rw [hhere, hsingle] at hself
    exact (h here (by simp [← hself])).ne_here rfl

/-- Parts that are joined to the same text are the same. -/
theorem intercalate_parts_inj {parts parts' : List Bytes} (h : ∀ e ∈ parts, IsPart e)
    (h' : ∀ e ∈ parts', IsPart e)
    (heq : List.intercalate [separator] parts = List.intercalate [separator] parts') :
    parts = parts' := by
  by_cases hnil : parts = []
  · by_contra hne
    rw [hnil] at heq hne
    exact (intercalate_parts_ne h' (Ne.symm hne)).1 heq.symm
  · by_cases hnil' : parts' = []
    · rw [hnil'] at heq
      exact absurd heq (intercalate_parts_ne h hnil).1
    · rw [← elements_intercalate_parts h hnil, heq, elements_intercalate_parts h' hnil']

/-- **The parts of a clean path are found again in it**, and whether it is rooted. -/
theorem ofElements_inj {rooted rooted' : Bool} {parts parts' : List Bytes}
    (h : ∀ e ∈ parts, IsPart e) (h' : ∀ e ∈ parts', IsPart e) :
    ofElements rooted parts = ofElements rooted' parts' ↔ rooted = rooted' ∧ parts = parts' := by
  refine ⟨fun heq => ?_, fun ⟨hrooted, hparts⟩ => by rw [hrooted, hparts]⟩
  obtain rfl : rooted = rooted' := by
    rw [← isRooted_ofElements rooted h, heq, isRooted_ofElements rooted' h']
  refine ⟨rfl, ?_⟩
  cases rooted with
  | true => exact intercalate_parts_inj h h' (List.cons.inj heq).2
  | false =>
    -- without any part the relative path is `.`, which no parts are joined to
    by_cases hnil : parts = []
    · by_contra hne
      rw [hnil] at heq hne
      rw [ofElements_relative (Ne.symm hne)] at heq
      exact (intercalate_parts_ne h' (Ne.symm hne)).2 heq.symm
    · by_cases hnil' : parts' = []
      · rw [hnil', ofElements_relative hnil] at heq
        exact absurd heq (intercalate_parts_ne h hnil).2
      · rw [ofElements_relative hnil, ofElements_relative hnil'] at heq
        exact intercalate_parts_inj h h' heq

/-! ## A name behind a path -/

theorem isRooted_append_separator (front back : Bytes) :
    isRooted (front ++ separator :: back) = isRooted (front ++ [separator]) := by
  cases front <;> rfl

/-- A name behind a path goes behind its clean elements. -/
theorem cleanElements_append_name (front : Bytes) {name : Bytes} (hname : IsName name) :
    cleanElements (front ++ separator :: name) = cleanElements (front ++ [separator]) ++ [name] := by
  rw [cleanElements, cleanElements, isRooted_append_separator front name,
    foldl_push_append_slash, elements_append_separator, List.foldl_append,
    elements_of_notMem hname.separator_notMem, List.foldl_cons, List.foldl_nil,
    push_of_isName hname, List.reverse_cons]

/-- A slash at the end does not count, unless it is all there is. -/
theorem clean_append_separator {front : Bytes} (h : front ≠ []) :
    clean (front ++ [separator]) = clean front := by
  have hrooted : isRooted (front ++ [separator]) = isRooted front := by
    cases front with
    | nil => exact absurd rfl h
    | cons b rest => rfl
  rw [clean, clean, cleanElements, cleanElements, hrooted, foldl_push_append_slash]

/-- **A name behind a slash is one more element.** -/
theorem clean_append_name (front : Bytes) {name : Bytes} (hname : IsName name) :
    clean (front ++ separator :: name) =
      ofElements (isRooted (front ++ [separator])) (cleanElements (front ++ [separator]) ++ [name]) := by
  rw [clean, isRooted_append_separator front name, cleanElements_append_name front hname]

/-- Two paths are clean alike with a name behind them exactly if they are clean alike. -/
theorem clean_append_name_eq_iff (front front' : Bytes) {name : Bytes} (hname : IsName name) :
    clean (front ++ separator :: name) = clean (front' ++ separator :: name) ↔
      clean (front ++ [separator]) = clean (front' ++ [separator]) := by
  have hparts : ∀ path, ∀ e ∈ cleanElements path, IsPart e :=
    fun _ _ => isPart_of_mem_cleanElements
  have hmore : ∀ path, ∀ e ∈ cleanElements path ++ [name], IsPart e := fun path =>
    List.forall_mem_append.mpr ⟨hparts path, List.forall_mem_singleton.mpr hname.isPart⟩
  rw [clean_append_name front hname, clean_append_name front' hname,
    ofElements_inj (hmore _) (hmore _), List.append_cancel_right_eq, clean, clean,
    ofElements_inj (hparts _) (hparts _)]

theorem ofElements_concat (rooted : Bool) {parts : List Bytes} (h : parts ≠ []) (name : Bytes) :
    ofElements rooted (parts ++ [name]) = ofElements rooted parts ++ separator :: name := by
  have happend : List.intercalate [separator] (parts ++ [name]) =
      List.intercalate [separator] parts ++ separator :: name := by
    rw [intercalate_append h (by simp), List.intercalate_singleton]
  cases rooted with
  | true => rw [ofElements_rooted, ofElements_rooted, happend, List.cons_append]
  | false => rw [ofElements_relative (by simp), ofElements_relative h, happend]

/-- **A name joined behind a path** stands behind its clean form, but for the directory itself and
the root. -/
theorem join_name_eq {path name : Bytes} (hpath : path ≠ []) (hname : IsName name) :
    join [path, name] =
      if clean path = here then name
      else if clean path = [separator] then separator :: name
      else clean path ++ separator :: name := by
  have hparts : ∀ e ∈ cleanElements path, IsPart e := fun _ => isPart_of_mem_cleanElements
  have hjoin : join [path, name] = ofElements (isRooted path) (cleanElements path ++ [name]) := by
    rw [join_pair hpath, clean_append_name path hname]
    have hself := clean_append_separator hpath
    rw [clean, clean, ofElements_inj (fun _ => isPart_of_mem_cleanElements) hparts] at hself
    rw [hself.1, hself.2]
  -- the two exceptions are the clean paths without any element, one for each way to be rooted
  have hbare : ∀ rooted, clean path = ofElements rooted [] ↔
      isRooted path = rooted ∧ cleanElements path = [] :=
    fun rooted => by rw [clean, ofElements_inj hparts (List.forall_mem_nil _)]
  have hhere : here = ofElements false [] := rfl
  have hroot : [separator] = ofElements true [] := rfl
  rw [hjoin, hhere, hroot]
  simp only [hbare]
  by_cases hnil : cleanElements path = []
  · rw [hnil]
    cases isRooted path with
    | true => simp [ofElements]
    | false => simp [ofElements]
  · rw [if_neg (fun h => hnil h.2), if_neg (fun h => hnil h.2), clean, ofElements_concat _ hnil]

end Bracket.Path
