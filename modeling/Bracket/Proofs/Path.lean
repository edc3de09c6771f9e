import Mathlib.Algebra.GroupWithZero.Nat
import Mathlib.Data.List.TakeWhile
import Bracket.Path

/-!
# Clean paths

A rooted path is a slash and the elements behind it. Cleaning leaves names only (`IsName`): no
element is empty, stands for a directory itself or for its parent, or holds a slash
(`isName_of_mem_cleanElements`). Names are what cleaning keeps, so cleaning once is enough
(`clean_clean`). It never makes a rooted path longer (`length_clean_le`), because every element
either stays, goes, or takes another one with it.

Paths of names are joined by appending their names (`join_ofElements`), and rooted ones are taken
apart into the path of all names but the last and the last name (`directory_ofElements`,
`base_ofElements`).
-/

namespace Bracket

/-- Splitting is the library's. -/
theorem Bytes.splitOn_eq (separator : UInt8) (text : Bytes) :
    Bytes.splitOn separator text = List.splitOn separator text := by
  induction text with
  | nil => rfl
  | cons b rest ih =>
    rw [Bytes.splitOn, List.splitOn_cons_eq_if_modifyHead, ih]
    have hne := List.splitOn_ne_nil separator rest
    by_cases hb : b = separator
    · simp [hb]
    · cases hrest : List.splitOn separator rest with
      | nil => exact absurd hrest hne
      | cons part parts => simp [hb]

namespace Path

/-! ## Elements -/

/-- A name of a file or directory: not empty, not one of the two elements with a meaning of their
own, and without a slash. -/
structure IsName (element : Bytes) : Prop where
  ne_nil : element ≠ []
  ne_here : element ≠ here
  ne_parent : element ≠ parent
  separator_notMem : separator ∉ element

/-- Splitting a path and joining its elements again gives the path. -/
theorem intercalate_elements (path : Bytes) :
    List.intercalate [separator] (elements path) = path := by
  rw [elements, Bytes.splitOn_eq, List.intercalate_splitOn]

theorem elements_ne_nil (path : Bytes) : elements path ≠ [] := by
  rw [elements, Bytes.splitOn_eq]
  exact List.splitOn_ne_nil separator path

/-- A slash in front makes an empty first element. -/
theorem elements_cons_separator (path : Bytes) :
    elements (separator :: path) = [] :: elements path := by
  rw [elements, Bytes.splitOn, if_pos rfl, elements]

/-- Joining elements and splitting again gives the elements, if none of them has a slash in it. -/
theorem elements_intercalate {parts : List Bytes} (h : ∀ part ∈ parts, separator ∉ part)
    (hne : parts ≠ []) : elements (List.intercalate [separator] parts) = parts := by
  rw [elements, Bytes.splitOn_eq, List.splitOn_intercalate separator h hne]

/-- No element of a path holds a slash. -/
theorem separator_notMem_of_mem_elements {path element : Bytes} (h : element ∈ elements path) :
    separator ∉ element := by
  induction path generalizing element with
  | nil =>
    obtain rfl : element = [] := by simpa [elements, Bytes.splitOn] using h
    exact List.not_mem_nil
  | cons b rest ih =>
    by_cases hb : b = separator
    · rw [hb, elements_cons_separator, List.mem_cons] at h
      rcases h with rfl | h
      · exact List.not_mem_nil
      · exact ih h
    -- the byte goes in front of the first element of the rest
    · cases hrest : elements rest with
      | nil => exact absurd hrest (elements_ne_nil rest)
      | cons part parts =>
        have hsplit : elements (b :: rest) = (b :: part) :: parts := by
          rw [elements] at hrest ⊢
          rw [Bytes.splitOn, if_neg hb, hrest]
        rw [hsplit, List.mem_cons] at h
        rcases h with rfl | h
        · have hpart : separator ∉ part := ih (by simp [hrest])
          simpa [hpart] using fun hs : separator = b => hb hs.symm
        · exact ih (by simp [hrest, h])

/-! ## Pushing elements -/

theorem push_of_isName {element : Bytes} (h : IsName element) (rooted : Bool)
    (before : List Bytes) : push rooted before element = element :: before := by
  unfold push
  rw [if_neg (not_or.mpr ⟨h.ne_nil, h.ne_here⟩), if_neg h.ne_parent]

/-- What a step can do to the names of a rooted path: nothing, take the last one away, or add
one. -/
theorem push_cases {before : List Bytes} {element : Bytes} (hbefore : ∀ e ∈ before, IsName e)
    (helement : separator ∉ element) :
    push true before element = before ∨ push true before element = before.tail ∨
      (IsName element ∧ push true before element = element :: before) := by
  by_cases hskip : element = [] ∨ element = here
  · exact .inl (if_pos hskip)
  · by_cases hparent : element = parent
    -- what leads up takes a name away, or nothing at the top
    · right; left
      unfold push
      rw [if_neg hskip, if_pos hparent]
      cases before with
      | nil => rfl
      | cons last rest =>
        have hlast := (hbefore last (by simp)).ne_parent
        simp [hlast]
    · obtain ⟨hnil, hhere⟩ := not_or.mp hskip
      have hname : IsName element := ⟨hnil, hhere, hparent, helement⟩
      exact .inr (.inr ⟨hname, push_of_isName hname true before⟩)

/-- The room that elements take in a path, each with its slash. -/
def room (parts : List Bytes) : Nat := (parts.map fun part => part.length + 1).sum

theorem length_intercalate {parts : List Bytes} (h : parts ≠ []) :
    (List.intercalate [separator] parts).length + 1 = room parts := by
  induction parts with
  | nil => exact absurd rfl h
  | cons part rest ih =>
    cases rest with
    | nil => simp [room, List.intercalate_singleton]
    | cons part' rest =>
      have hrest := ih (by simp)
      rw [List.intercalate_cons_cons, List.length_append, List.length_append]
      simp only [room, List.map_cons, List.sum_cons, List.length_singleton] at hrest ⊢
      omega

/-- **Pushing elements one by one** keeps names, and takes no more room than the elements. -/
theorem foldl_push {before : List Bytes} (hbefore : ∀ e ∈ before, IsName e) {parts : List Bytes}
    (hparts : ∀ part ∈ parts, separator ∉ part) :
    (∀ e ∈ parts.foldl (push true) before, IsName e) ∧
      room (parts.foldl (push true) before) ≤ room before + room parts := by
  induction parts generalizing before with
  | nil => exact ⟨hbefore, by simp [room]⟩
  | cons part parts ih =>
    obtain ⟨hpart, hrest⟩ := List.forall_mem_cons.mp hparts
    have hroom : room (part :: parts) = part.length + 1 + room parts := by simp [room]
    rw [List.foldl_cons, hroom]
    -- every element either adds its own room, or leaves the names as they are, or takes one away
    rcases push_cases hbefore hpart with hpush | hpush | ⟨hname, hpush⟩
    · rw [hpush]
      obtain ⟨hnames, hle⟩ := ih hbefore hrest
      exact ⟨hnames, by omega⟩
    · rw [hpush]
      have htail : room before.tail ≤ room before := by
        cases before with
        | nil => exact Nat.le_refl _
        | cons last rest => simp [room]
      obtain ⟨hnames, hle⟩ := ih (fun e he => hbefore e (List.mem_of_mem_tail he)) hrest
      exact ⟨hnames, by omega⟩
    · rw [hpush]
      obtain ⟨hnames, hle⟩ := ih (List.forall_mem_cons.mpr ⟨hname, hbefore⟩) hrest
      have hcons : room (part :: before) = part.length + 1 + room before := by simp [room]
      exact ⟨hnames, by omega⟩

/-- Names are pushed as they are. -/
theorem foldl_push_of_isName {parts : List Bytes} (h : ∀ part ∈ parts, IsName part) (rooted : Bool)
    (before : List Bytes) : parts.foldl (push rooted) before = parts.reverse ++ before := by
  induction parts generalizing before with
  | nil => rfl
  | cons part parts ih =>
    obtain ⟨hpart, hrest⟩ := List.forall_mem_cons.mp h
    rw [List.foldl_cons, push_of_isName hpart, ih hrest, List.reverse_cons, List.append_assoc]
    rfl

/-! ## Rooted paths -/

theorem isRooted_cons_separator (path : Bytes) : isRooted (separator :: path) = true := rfl

theorem eq_cons_of_isRooted {path : Bytes} (h : isRooted path = true) :
    ∃ rest, path = separator :: rest := by
  cases path with
  | nil => simp [isRooted] at h
  | cons b rest =>
    obtain rfl : b = separator := by simpa [isRooted] using h
    exact ⟨rest, rfl⟩

theorem cleanElements_cons_separator (path : Bytes) :
    cleanElements (separator :: path) = ((elements path).foldl (push true) []).reverse := by
  rw [cleanElements, elements_cons_separator, List.foldl_cons, isRooted_cons_separator]
  rfl

/-- **The clean elements of a rooted path are names.** -/
theorem isName_of_mem_cleanElements {path : Bytes} (h : isRooted path = true) {element : Bytes}
    (he : element ∈ cleanElements path) : IsName element := by
  obtain ⟨rest, rfl⟩ := eq_cons_of_isRooted h
  rw [cleanElements_cons_separator, List.mem_reverse] at he
  exact (foldl_push (by simp) fun _ => separator_notMem_of_mem_elements).1 element he

/-- The rooted path with the given names. -/
theorem ofElements_rooted (names : List Bytes) :
    ofElements true names = separator :: List.intercalate [separator] names := rfl

/-- The clean form of a rooted path is rooted. -/
theorem clean_of_isRooted {path : Bytes} (h : isRooted path = true) :
    clean path = ofElements true (cleanElements path) := by
  rw [clean, h]

/-- The names of a rooted path are found again in it. -/
theorem cleanElements_ofElements {names : List Bytes} (h : ∀ name ∈ names, IsName name) :
    cleanElements (ofElements true names) = names := by
  rw [ofElements_rooted, cleanElements_cons_separator]
  cases names with
  | nil => rfl
  | cons name rest =>
    rw [elements_intercalate (fun part hp => (h part hp).separator_notMem) (by simp),
      foldl_push_of_isName h, List.append_nil, List.reverse_reverse]

/-- Names below the top are clean already. -/
theorem clean_ofElements {names : List Bytes} (h : ∀ name ∈ names, IsName name) :
    clean (ofElements true names) = ofElements true names := by
  rw [clean_of_isRooted rfl, cleanElements_ofElements h]

/-- **Cleaning a rooted path once is enough.** -/
theorem clean_clean {path : Bytes} (h : isRooted path = true) : clean (clean path) = clean path := by
  rw [clean_of_isRooted h]
  exact clean_ofElements fun _ he => isName_of_mem_cleanElements h he

/-- A slash more in front of a rooted path changes nothing. -/
theorem clean_cons_separator {path : Bytes} (h : isRooted path = true) :
    clean (separator :: path) = clean path := by
  obtain ⟨rest, rfl⟩ := eq_cons_of_isRooted h
  have hsame : cleanElements (separator :: separator :: rest) =
      cleanElements (separator :: rest) := by
    rw [cleanElements_cons_separator, elements_cons_separator, List.foldl_cons,
      cleanElements_cons_separator]
    rfl
  rw [clean_of_isRooted rfl, clean_of_isRooted rfl, hsame]

/-- **Cleaning never makes a rooted path longer.** -/
theorem length_clean_le {path : Bytes} (h : isRooted path = true) :
    (clean path).length ≤ path.length := by
  obtain ⟨rest, rfl⟩ := eq_cons_of_isRooted h
  have hroom : room (elements rest) = rest.length + 1 := by
    rw [← length_intercalate (elements_ne_nil rest), intercalate_elements]
  have hslashes : ∀ part ∈ elements rest, separator ∉ part :=
    fun _ => separator_notMem_of_mem_elements
  have hle := (foldl_push (List.forall_mem_nil IsName) hslashes).2
  rw [clean_of_isRooted rfl, ofElements_rooted, List.length_cons, List.length_cons]
  -- the names take no more room than the elements that they are among, and the elements together
  -- with their slashes are the path
  by_cases hnone : cleanElements (separator :: rest) = []
  · simp [hnone]
  · have hnames := length_intercalate hnone
    have hreverse : room (cleanElements (separator :: rest)) =
        room ((elements rest).foldl (push true) []) := by
      rw [cleanElements_cons_separator, room, room, List.map_reverse, List.sum_reverse]
    have hempty : room [] = 0 := rfl
    omega

/-- Behind the slash of a clean rooted path there is no other one. -/
theorem not_separator_behind {names : List Bytes} (h : ∀ name ∈ names, IsName name) :
    (List.intercalate [separator] names).head? ≠ some separator := by
  cases names with
  | nil => simp
  | cons name rest =>
    have hname := h name (by simp)
    cases name with
    | nil => exact absurd rfl hname.ne_nil
    | cons b name =>
      have hb : b ≠ separator := fun hb => hname.separator_notMem (by simp [hb])
      cases rest with
      | nil => simpa [List.intercalate_singleton] using hb
      | cons name' rest => simpa [List.intercalate_cons_cons] using hb

/-! ## Paths put together

The names of a path, whether it is rooted or not, are all that its elements add to the elements
before them, so joining paths is appending their names.
-/

/-- A slash in a path parts its elements. -/
theorem elements_append_separator (front back : Bytes) :
    elements (front ++ separator :: back) = elements front ++ elements back := by
  simp only [elements, Bytes.splitOn_eq, List.splitOn_append_cons_self]

theorem elements_of_notMem {element : Bytes} (h : separator ∉ element) :
    elements element = [element] := by
  have hparts : ∀ part ∈ [element], separator ∉ part := by simpa using h
  simpa using elements_intercalate hparts (List.cons_ne_nil element [])

/-- A slash at the end adds nothing. -/
theorem foldl_push_append_slash (rooted : Bool) (before : List Bytes) (path : Bytes) :
    (elements (path ++ [separator])).foldl (push rooted) before =
      (elements path).foldl (push rooted) before := by
  rw [elements_append_separator, List.foldl_append]
  rfl

/-- A slash at the end of a rooted path does not count. -/
theorem cleanElements_append_slash {path : Bytes} (h : isRooted path = true) :
    cleanElements (path ++ [separator]) = cleanElements path := by
  obtain ⟨rest, rfl⟩ := eq_cons_of_isRooted h
  rw [List.cons_append, cleanElements_cons_separator, cleanElements_cons_separator,
    foldl_push_append_slash]

theorem ofElements_relative {names : List Bytes} (h : names ≠ []) :
    ofElements false names = List.intercalate [separator] names := by
  cases names with
  | nil => exact absurd rfl h
  | cons name rest => rfl

/-- A path that is not rooted does not start with a slash. -/
theorem exists_cons_ofElements {names : List Bytes} (h : ∀ name ∈ names, IsName name) :
    ∃ b rest, b ≠ separator ∧ ofElements false names = b :: rest := by
  cases names with
  | nil => exact ⟨_, [], by decide, rfl⟩
  | cons name rest =>
    have hfirst := not_separator_behind h
    obtain ⟨b, tail, rfl⟩ := List.exists_cons_of_ne_nil (h name List.mem_cons_self).ne_nil
    cases rest <;> simp_all [ofElements, List.intercalate_cons_cons, List.intercalate_singleton]

/-- Whether a path is rooted does not depend on what stands behind it. -/
theorem isRooted_ofElements_append (rooted : Bool) {names : List Bytes}
    (h : ∀ name ∈ names, IsName name) (back : Bytes) :
    isRooted (ofElements rooted names ++ back) = rooted := by
  cases rooted with
  | true => rfl
  | false =>
    obtain ⟨b, rest, hb, hpath⟩ := exists_cons_ofElements h
    simp [isRooted, hpath, hb]

/-- The elements of a path of names add its names to those before. -/
theorem foldl_push_ofElements {names : List Bytes} (h : ∀ name ∈ names, IsName name)
    (rooted rooted' : Bool) (before : List Bytes) :
    (elements (ofElements rooted names)).foldl (push rooted') before = names.reverse ++ before := by
  cases names with
  | nil => cases rooted <;> rfl
  | cons name rest =>
    have helements : elements (List.intercalate [separator] (name :: rest)) = name :: rest :=
      elements_intercalate (fun part hp => (h part hp).separator_notMem) (by simp)
    have hskip : push rooted' before [] = before := rfl
    cases rooted with
    | false => rw [ofElements_relative (by simp), helements, foldl_push_of_isName h]
    | true =>
      rw [ofElements_rooted, elements_cons_separator, List.foldl_cons, hskip, helements,
        foldl_push_of_isName h]

theorem join_pair {front : Bytes} (h : front ≠ []) (back : Bytes) :
    join [front, back] = clean (front ++ separator :: back) := by
  simp [join, h, List.intercalate_cons_cons, List.intercalate_singleton]

/-- **The names of two paths are joined one behind the other**, and the first of them tells whether
the whole is rooted. -/
theorem join_ofElements (rooted rooted' : Bool) {names more : List Bytes}
    (hnames : ∀ name ∈ names, IsName name) (hmore : ∀ name ∈ more, IsName name) :
    join [ofElements rooted names, ofElements rooted' more] = ofElements rooted (names ++ more) := by
  have hne : ofElements rooted names ≠ [] := by
    cases rooted with
    | true => simp [ofElements_rooted]
    | false =>
      obtain ⟨b, rest, -, hpath⟩ := exists_cons_ofElements hnames
      simp [hpath]
  rw [join_pair hne, clean, cleanElements, isRooted_ofElements_append rooted hnames,
    elements_append_separator, List.foldl_append, foldl_push_ofElements hnames,
    foldl_push_ofElements hmore]
  simp

/-- A single name is joined behind the others. -/
theorem join_name (rooted : Bool) {names : List Bytes} (hnames : ∀ name ∈ names, IsName name)
    {name : Bytes} (hname : IsName name) :
    join [ofElements rooted names, name] = ofElements rooted (names ++ [name]) := by
  have hsingle : ofElements false [name] = name := by simp [ofElements]
  rw [← join_ofElements rooted false hnames (List.forall_mem_singleton.mpr hname), hsingle]

theorem intercalate_append {front back : List Bytes} (hfront : front ≠ []) (hback : back ≠ []) :
    List.intercalate [separator] (front ++ back) =
      List.intercalate [separator] front ++ separator :: List.intercalate [separator] back := by
  induction front with
  | nil => exact absurd rfl hfront
  | cons first rest ih =>
    cases rest with
    | nil =>
      rw [List.singleton_append, List.intercalate_cons_of_ne_nil hback, List.intercalate_singleton]
      simp
    | cons second rest =>
      have hrest := ih (by simp)
      simp only [List.cons_append] at hrest ⊢
      rw [List.intercalate_cons_cons, List.intercalate_cons_cons, hrest]
      simp

/-- Names behind a rooted path, which has a slash of its own only if it is the root. -/
theorem ofElements_append {front back : List Bytes} (hback : back ≠ []) :
    ofElements true (front ++ back) =
      (if front = [] then [] else ofElements true front) ++
        separator :: List.intercalate [separator] back := by
  by_cases hfront : front = []
  · simp [hfront, ofElements_rooted]
  · rw [if_neg hfront, ofElements_rooted, intercalate_append hfront hback, ofElements_rooted,
      List.cons_append]

/-! ## Paths taken apart -/

/-- A rooted path ends in a slash and its last name. -/
theorem exists_front (names : List Bytes) (name : Bytes) :
    ∃ front, ofElements true (names ++ [name]) = front ++ separator :: name ∧
      clean (front ++ [separator]) = ofElements true (cleanElements (ofElements true names)) := by
  refine ⟨if names = [] then [] else ofElements true names, ?_, ?_⟩
  · rw [ofElements_append (by simp), List.intercalate_singleton]
  · split
    · next hnil =>
      subst hnil
      decide
    · rw [clean_of_isRooted rfl, cleanElements_append_slash rfl]

theorem ne_separator_of_mem_reverse {name : Bytes} (h : separator ∉ name) :
    ∀ b ∈ name.reverse, (b != separator) = true := by
  intro b hb
  simpa using fun hs : b = separator => h (hs ▸ List.mem_reverse.mp hb)

/-- The last part of a path is what stands behind its last slash. -/
theorem lastPart_append {name : Bytes} (h : separator ∉ name) (front : Bytes) :
    lastPart (front ++ separator :: name) = name := by
  rw [lastPart, List.reverse_append, List.reverse_cons, List.append_assoc,
    List.takeWhile_append_of_pos (ne_separator_of_mem_reverse h)]
  simp

theorem lastPart_of_isName {name : Bytes} (h : IsName name) : lastPart name = name := by
  rw [lastPart,
    List.takeWhile_eq_self_iff.mpr (ne_separator_of_mem_reverse h.separator_notMem),
    List.reverse_reverse]

/-- The extension of a path is that of its last name. -/
theorem extension_relative (names : List Bytes) {name : Bytes} (h : IsName name) :
    extension (ofElements false (names ++ [name])) = extension name := by
  have hlast : lastPart (ofElements false (names ++ [name])) = name := by
    rw [ofElements_relative (by simp)]
    by_cases hnames : names = []
    · simp [hnames, lastPart_of_isName h]
    · rw [intercalate_append hnames (by simp), List.intercalate_singleton,
        lastPart_append h.separator_notMem]
  rw [extension, extension, hlast, lastPart_of_isName h]

/-- The directory of a path is made of all its names but the last. -/
theorem directory_ofElements {names : List Bytes} {name : Bytes}
    (hnames : ∀ name ∈ names, IsName name) (hname : IsName name) :
    directory (ofElements true (names ++ [name])) = ofElements true names := by
  obtain ⟨front, hpath, hclean⟩ := exists_front names name
  have htake : (front ++ separator :: name).take ((front ++ separator :: name).length - name.length)
      = front ++ [separator] := by
    have hlength : (front ++ separator :: name).length - name.length =
        (front ++ [separator]).length := by
      simp
      omega
    have hsplit : front ++ separator :: name = (front ++ [separator]) ++ name := by simp
    rw [hlength, hsplit, List.take_left]
  rw [directory, hpath, lastPart_append hname.separator_notMem, htake, hclean,
    cleanElements_ofElements hnames]

/-- The last element of a path is the name behind its last slash. -/
theorem base_append {name : Bytes} (hname : IsName name) (front : Bytes) :
    base (front ++ separator :: name) = name := by
  obtain ⟨b, rest, hb⟩ := List.exists_cons_of_ne_nil (mt List.reverse_eq_nil_iff.mp hname.ne_nil)
  have hlast : b ≠ separator := by
    rintro rfl
    exact hname.separator_notMem (List.mem_reverse.mp (hb ▸ List.mem_cons_self))
  -- a name does not end in a slash, so that no slash is trimmed
  have hdrop : ((front ++ separator :: name).reverse.dropWhile (· == separator)).reverse =
      front ++ separator :: name := by
    rw [List.reverse_append, List.reverse_cons, hb]
    simp [hlast, ← List.reverse_eq_iff.mpr hb.symm]
  rw [base, if_neg (by simp), hdrop, lastPart_append hname.separator_notMem]
  cases name with
  | nil => exact absurd rfl hname.ne_nil
  | cons c name => rfl

/-- The base of a path is its last name. -/
theorem base_ofElements {name : Bytes} (names : List Bytes) (hname : IsName name) :
    base (ofElements true (names ++ [name])) = name := by
  obtain ⟨front, hpath, -⟩ := exists_front names name
  rw [hpath, base_append hname]

end Path

end Bracket
