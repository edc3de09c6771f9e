import Bracket.Proofs.FileSystem.Expansion
import Bracket.Proofs.Utf8.Encoding

/-!
# What is written is read back

A local file system writes to a path that is cleaned and joined, and opens a name that is put behind
the root as text. Both are the same path, as long as the name leads to something below the root
(`Disk.pathBelow_ofElements`).

A write that succeeds leaves directories on the way to its file, so the path is found again unless a
limit forbids it (`Disk.find_of_isAllowed`); and a limit would have kept the file from being written
(`Disk.isAllowed_of_writeFile`).

The root itself is different. It can be written to where it is missing or a file, but then it is no
directory, and its name opens nothing else. So what is written can be read back exactly if its name
does not stand for the root (`FileSystem.written_reads_back_iff`).
-/

namespace Bracket

open Bracket.Path

namespace Disk

/-! ## Finding what was written -/

/-- The path can be asked for: it holds no zero byte, and neither itself nor a name in it is too
long. -/
structure IsAllowed (path : Bytes) : Prop where
  zero_notMem : 0 ∉ path
  length_le : path.length ≤ pathLimit
  length_name_le : ∀ name ∈ cleanElements path, name.length ≤ nameLimit

variable {d : Disk} {place above names : List Bytes} {name path content : Bytes}

/-- One step from a directory. -/
theorem follow_cons (h : d.node? place = some .directory) (name : Bytes) (rest : List Bytes) :
    d.follow place (name :: rest) =
      if nameLimit < name.length then .error tooLong else d.follow (place ++ [name]) rest := by
  rw [follow, h]

/-- Where directories lead to the last of some names, none of which is too long, it is reached. -/
theorem follow_of_leadsTo (h : d.LeadsTo (place ++ above))
    (hshort : ∀ n ∈ above ++ [name], n.length ≤ nameLimit) :
    d.follow place (above ++ [name]) = d.follow (place ++ (above ++ [name])) [] := by
  induction above generalizing place with
  | nil =>
    have hname : ¬ nameLimit < name.length := Nat.not_lt.mpr (hshort name (by simp))
    rw [List.nil_append, follow_cons (h place (List.prefix_append _ _)), if_neg hname]
  | cons first rest ih =>
    obtain ⟨hfirst, hrest⟩ := List.forall_mem_cons.mp hshort
    have hleads : d.LeadsTo ((place ++ [first]) ++ rest) := by simpa using h
    rw [List.cons_append, follow_cons (h place (List.prefix_append _ _)),
      if_neg (Nat.not_lt.mpr hfirst), ih hleads hrest]
    simp

/-- Otherwise it is not reached, and not because it is missing. -/
theorem follow_eq_tooLong (h : d.LeadsTo (place ++ above))
    (hlong : ∃ n ∈ above ++ [name], nameLimit < n.length) :
    d.follow place (above ++ [name]) = .error tooLong := by
  induction above generalizing place with
  | nil =>
    have hname : nameLimit < name.length := by simpa using hlong
    rw [List.nil_append, follow_cons (h place (List.prefix_append _ _)), if_pos hname]
  | cons first rest ih =>
    have hleads : d.LeadsTo ((place ++ [first]) ++ rest) := by simpa using h
    rw [List.cons_append, follow_cons (h place (List.prefix_append _ _))]
    split
    · rfl
    -- a name that is short enough is followed, and the long one comes later
    · next hfirst =>
      obtain ⟨n, hn, hlength⟩ := hlong
      rcases List.mem_cons.mp hn with rfl | hn
      · exact absurd hlength hfirst
      · exact ih hleads ⟨n, hn, hlength⟩

/-- A path within the limits finds the node at its end. -/
theorem find_of_isAllowed (h : IsAllowed path) (hleads : d.LeadsTo above)
    (hpath : cleanElements path = above ++ [name]) {node : Node}
    (hnode : d.node? (above ++ [name]) = some node) : d.find path = .ok node := by
  have hzero : path.contains 0 = false := by simpa using h.zero_notMem
  have hshort := h.length_name_le
  rw [hpath] at hshort
  rw [find, hzero, if_neg Bool.false_ne_true, if_neg (Nat.not_lt.mpr h.length_le), hpath,
    follow_of_leadsTo hleads hshort, List.nil_append, follow, hnode]

/-- A path that cannot be asked for is not missing. -/
theorem exists_find_of_not_isAllowed (h : ¬ IsAllowed path) (hleads : d.LeadsTo above)
    (hpath : cleanElements path = above ++ [name]) :
    ∃ f, d.find path = .error f ∧ f.hasClass .notExist = false := by
  unfold find
  split
  · exact ⟨invalid, rfl, by decide⟩
  · next hzero =>
    split
    · exact ⟨tooLong, rfl, by decide⟩
    · next hlength =>
      -- what is left of the limits is the one for names
      refine ⟨tooLong, ?_, by decide⟩
      have hlong : ∃ n ∈ above ++ [name], nameLimit < n.length := by
        by_contra hnone
        push Not at hnone
        exact h ⟨by simpa using hzero, Nat.not_lt.mp hlength, hpath ▸ hnone⟩
      rw [hpath]
      exact follow_eq_tooLong hleads hlong

/-- A file is written only to a path that can be asked for. -/
theorem isAllowed_of_writeFile {d' : Disk} (hleads : d.LeadsTo above)
    (hpath : cleanElements path = above ++ [name]) (h : d.writeFile path content = .ok d') :
    IsAllowed path := by
  by_contra hnot
  obtain ⟨f, hfind, hclass⟩ := exists_find_of_not_isAllowed hnot hleads hpath
  simp [writeFile, hfind, hclass] at h

/-- A write that succeeds has made directories up to the last name, and then written the file. -/
theorem exists_writeFile_of_write (h : ∀ name ∈ names, IsName name)
    (hok : (d.write (ofElements true names) content).1 = none) :
    ∃ above name, ∃ d₁ : Disk, names = above ++ [name] ∧ d₁.LeadsTo above ∧
      d₁.writeFile (ofElements true names) content =
        .ok (d.write (ofElements true names) content).2 := by
  obtain ⟨-, hwritten, -⟩ := write_spec h d content
  obtain ⟨above, name, rfl⟩ := (List.eq_nil_or_concat names).resolve_left (hwritten hok).1
  rw [List.concat_eq_append] at h hok ⊢
  obtain ⟨habove, hname⟩ := List.forall_mem_append.mp h
  obtain ⟨-, hleads⟩ := makeDirectories_spec (leadsTo_nil d) (by simp) habove
  unfold write at hok ⊢
  dsimp only at hok ⊢
  rw [directory_ofElements habove (List.forall_mem_singleton.mp hname),
    cleanElements_ofElements habove] at hok ⊢
  -- the directories on the way come first, and a failure there would have been told
  cases hdirs : d.makeDirectories [] above with
  | mk failure? d₁ =>
    rw [hdirs] at hok hleads
    cases failure? with
    | some f => simp at hok
    | none =>
      dsimp only at hok ⊢
      cases hwrite : d₁.writeFile (ofElements true (above ++ [name])) content with
      | error f => simp [hwrite] at hok
      | ok d₂ => exact ⟨above, name, d₁, rfl, by simpa using hleads rfl, hwrite⟩

/-- **What was written is found**, by the path that it was written to. -/
theorem find_write (h : ∀ name ∈ names, IsName name)
    (hok : (d.write (ofElements true names) content).1 = none) :
    (d.write (ofElements true names) content).2.find (ofElements true names) =
      .ok (.file content) := by
  obtain ⟨above, name, d₁, hnames, hleads, hwrite⟩ := exists_writeFile_of_write h hok
  have hpath : cleanElements (ofElements true names) = above ++ [name] := by
    rw [cleanElements_ofElements h, hnames]
  have hallowed := isAllowed_of_writeFile hleads hpath hwrite
  obtain ⟨-, hput⟩ := writeFile_eq_ok hwrite
  rw [hpath] at hput
  rw [hput]
  exact find_of_isAllowed hallowed (hleads.put_below name _) hpath (node?_put_self (by simp) d₁ _)

/-! ## Names behind the root -/

/-- The root ends in a slash only if it has no name. -/
theorem getLast?_ofElements (hnames : ∀ name ∈ names, IsName name) :
    (ofElements true names).getLast? = some separator ↔ names = [] := by
  constructor
  · intro hlast
    by_contra hne
    obtain ⟨above, name, rfl⟩ := (List.eq_nil_or_concat names).resolve_left hne
    rw [List.concat_eq_append] at hlast hnames
    have hname : IsName name := hnames name (by simp)
    obtain ⟨front, hpath, -⟩ := exists_front above name
    obtain ⟨first, rest, rfl⟩ := List.exists_cons_of_ne_nil hname.ne_nil
    rw [hpath, List.getLast?_append, List.getLast?_cons_cons] at hlast
    have hmem : separator ∈ first :: rest := by
      refine List.mem_of_getLast? ?_
      simpa [List.getLast?_cons] using hlast
    exact hname.separator_notMem hmem
  · rintro rfl
    rfl

/-- **A name put behind the root is the joined path.** -/
theorem pathBelow_ofElements (hnames : ∀ name ∈ names, IsName name) {below : List Bytes}
    (hbelow : below ≠ []) :
    pathBelow (ofElements true names) (ofElements false below) =
      ofElements true (names ++ below) := by
  rw [pathBelow, ofElements_append hbelow, ofElements_relative hbelow]
  simp only [getLast?_ofElements hnames]
  split
  · next hroot =>
    subst hroot
    rfl
  · rfl

/-- The name of the tree behind the root stands for the root. -/
theorem cleanElements_pathBelow_here (hnames : ∀ name ∈ names, IsName name) :
    cleanElements (pathBelow (ofElements true names) here) = names := by
  have hskip : ∀ before, (elements here).foldl (push true) before = before := fun _ => rfl
  have hself := cleanElements_ofElements hnames
  unfold pathBelow
  simp only [getLast?_ofElements hnames]
  split
  · next hroot =>
    subst hroot
    decide
  · rw [ofElements_rooted, cleanElements_cons_separator] at hself
    rw [ofElements_rooted, List.cons_append, cleanElements_cons_separator,
      elements_append_separator, List.foldl_append, hskip, hself]

theorem isVolumeName_here : isVolumeName here = true := by decide +kernel

/-- A file that the disk finds is opened under its name. -/
theorem look_of_find {root : Bytes} (hname : isVolumeName name = true) (hne : name ≠ here)
    (hfind : d.find (pathBelow root name) = .ok (.file content)) :
    d.look root name = .ok (.ofFile (.ofContent content)) := by
  simp only [look, hname, if_true, hfind, if_neg hne]

/-- A file in the place of the root is not opened. -/
theorem exists_look_here {root : Bytes}
    (h : d.node? (cleanElements (pathBelow root here)) = some (.file content)) :
    ∃ f, d.look root here = .error f := by
  simp only [look, isVolumeName_here, if_true]
  cases hfind : d.find (pathBelow root here) with
  | error reason => exact ⟨_, rfl⟩
  | ok node =>
    rw [node?_of_find hfind, Option.some.injEq] at h
    subst h
    exact ⟨_, rfl⟩

end Disk

/-- The name of a valid path can be asked for. -/
theorem isVolumeName_ofElements {names : List Bytes} (h : ∀ name ∈ names, IsName name)
    (hvalid : Utf8.isValid (ofElements true names) = true) :
    isVolumeName (ofElements false names) = true := by
  by_cases hne : names = []
  · rw [hne, ofElements]
    exact Disk.isVolumeName_here
  · have hslash : Utf8.isValid [separator] = true := Utf8.isValid_of_ascii (by decide)
    have hproper : ∀ name ∈ names, isProperElement name = true := by
      intro name hname
      simp [isProperElement, (h name hname).ne_nil, (h name hname).ne_here,
        (h name hname).ne_parent]
    rw [ofElements_rooted, ← List.singleton_append, Utf8.isValid_append hslash] at hvalid
    rw [ofElements_relative hne, isVolumeName, hvalid,
      elements_intercalate (fun name hname => (h name hname).separator_notMem) hne,
      List.all_eq_true.mpr hproper]
    simp

namespace Volume

variable {σ : Type} {volume : Volume σ} {accepts : Bytes → Bool} {uri : Bytes} {s : σ}

theorem resolve_of_look_file {device : Device}
    (h : (volume.look (nameOf (Target.path uri)) s).1 = .ok (.ofFile device)) :
    (volume.resolve accepts uri s).1 =
      .ok [volume.file (Target.path uri) (nameOf (Target.path uri))] := by
  rw [fst_resolve, h]
  rfl

/-- What cannot be looked up stands for no files. -/
theorem resolve_of_look_error {f : Failure}
    (h : (volume.look (nameOf (Target.path uri)) s).1 = .error f) (files : List (File σ)) :
    (volume.resolve accepts uri s).1 ≠ .ok files := by
  rw [fst_resolve, h]
  simp [answerTo]

end Volume

namespace FileSystem

variable {root uri content : Bytes} {accepts : Bytes → Bool} {s s' : Storage}

section Names

variable {names below : List Bytes} (hnames : ∀ name ∈ names, IsName name)
  (hroot : root = ofElements true names)
include hnames hroot

/-- A file below the root answers for itself, and reads its content. -/
theorem exists_resolve_of_find (hbelow : ∀ name ∈ below, IsName name) (hne : below ≠ [])
    (huri : Target.path uri = ofElements true below)
    (hvalid : Utf8.isValid (Target.path uri) = true)
    (hfind : s.disk.find (ofElements true (names ++ below)) = .ok (.file content)) :
    ∃ file, ((Volume.ofDisk root).resolve accepts uri s).1 = .ok [file] ∧
      file.path = Target.path uri ∧
      ∃ body, (file.body s).1 = .ok body ∧ body.close = none ∧ body.Holds content := by
  have hname : Volume.nameOf (Target.path uri) = ofElements false below := by
    rw [huri, Volume.nameOf_ofElements hbelow]
  have hlook : s.disk.look root (Volume.nameOf (Target.path uri)) =
      .ok (.ofFile (.ofContent content)) := by
    rw [hname]
    refine Disk.look_of_find (isVolumeName_ofElements hbelow (huri ▸ hvalid))
      (ofElements_ne_here hbelow hne) ?_
    rw [hroot, Disk.pathBelow_ofElements hnames hne, hfind]
  refine ⟨_, Volume.resolve_of_look_file hlook, rfl, File.exists_body_of_access ?_⟩
  simp only [Volume.file, Volume.ofDisk, hlook]
  rfl

/-- A file in the place of the root does not answer. -/
theorem resolve_root_ne_ok (huri : Target.path uri = [separator])
    (hfile : s.disk.node? names = some (.file content)) (files : List (File Storage)) :
    ((Volume.ofDisk root).resolve accepts uri s).1 ≠ .ok files := by
  have hself : cleanElements (Disk.pathBelow root here) = names := by
    rw [hroot, Disk.cleanElements_pathBelow_here hnames]
  obtain ⟨f, hlook⟩ := Disk.exists_look_here (hself.symm ▸ hfile)
  have hname : Volume.nameOf (Target.path uri) = here := by rw [huri]; rfl
  exact Volume.resolve_of_look_error (by rw [hname]; exact hlook) files

end Names

/-- **What is written is read back, unless it is the root.** After a write that succeeds, the name
answers for exactly one file, whose path is that of the name and which reads the content, if and only
if the name does not stand for the root itself. Either way the content stands at one place, and
every other place is kept but for directories that were missing on the way. -/
theorem written_reads_back_iff (hrooted : isRooted root = true) (hclean : clean root = root)
    (hvalid : Utf8.isValid (Target.path uri) = true)
    (hwrite : (ofVolume root accepts (.ofDisk root)).write uri content s = (none, s')) :
    ((∃ file, ((ofVolume root accepts (.ofDisk root)).resolve uri s').1 = .ok [file] ∧
        file.path = Target.path uri ∧
        ∃ body, (file.body s').1 = .ok body ∧ body.close = none ∧ body.Holds content) ↔
      Target.path uri ≠ [separator]) ∧
    s'.disk.node? (cleanElements (placeOf root uri)) = some (.file content) ∧
    ∀ other, other ≠ cleanElements (placeOf root uri) →
      Disk.KeptAt s.disk s'.disk (cleanElements (placeOf root uri)) other := by
  obtain ⟨below, hbelow, huri⟩ := Target.exists_names_path uri
  have hnames : ∀ name ∈ cleanElements root, IsName name :=
    fun _ => isName_of_mem_cleanElements hrooted
  have hall : ∀ name ∈ cleanElements root ++ below, IsName name :=
    List.forall_mem_append.mpr ⟨hnames, hbelow⟩
  have hroot : root = ofElements true (cleanElements root) := by
    rw [← clean_of_isRooted hrooted, hclean]
  have hplace := placeOf_eq hnames hbelow hroot huri
  rw [write_ofVolume, hplace] at hwrite
  obtain ⟨hok, hstorage⟩ := Prod.mk.inj hwrite
  have hdisk : (s.disk.write (ofElements true (cleanElements root ++ below)) content).2 = s'.disk := by
    rw [← hstorage]
  obtain ⟨hkept, hwritten, -⟩ := Disk.write_spec hall s.disk content
  have hfile := (hwritten hok).2
  have hfind := Disk.find_write hall hok
  rw [hdisk] at hkept hfile hfind
  rw [hplace, cleanElements_ofElements hall]
  refine ⟨?_, hfile, hkept⟩
  -- with nothing below it the file stands in the place of the root, where no volume can be
  by_cases hne : below = []
  · have hslash : Target.path uri = [separator] := by rw [huri, hne]; rfl
    rw [hne, List.append_nil] at hfile
    refine iff_of_false ?_ (not_not.mpr hslash)
    rintro ⟨file, hresolve, -⟩
    exact resolve_root_ne_ok hnames hroot hslash hfile [file] hresolve
  · refine iff_of_true (exists_resolve_of_find hnames hroot hbelow hne huri hvalid hfind) ?_
    intro hslash
    have hself := cleanElements_ofElements hbelow
    rw [← huri, hslash] at hself
    exact hne hself.symm

/-- A disk with one file below `srv`, and one in the place of the root `r`. -/
def fewFiles : Storage :=
  ⟨⟨[([bytes "srv"], .directory), ([bytes "srv", bytes "old.bf"], .file (bytes "-")),
    ([bytes "r"], .file (bytes "+"))]⟩, []⟩

/-- A file in a directory that was missing is read back, and the other one is kept. -/
theorem written_reads_back_iff_missing :
    isRooted (bytes "/srv") = true ∧ clean (bytes "/srv") = bytes "/srv" ∧
    Utf8.isValid (Target.path (bytes "file:///out/%41.bf")) = true ∧
    ∃ s', (ofRoot (bytes "/srv")).write (bytes "file:///out/%41.bf") (bytes "+") fewFiles =
        (none, s') ∧
      (∃ file, ((ofRoot (bytes "/srv")).resolve (bytes "file:///out/%41.bf") s').1 = .ok [file] ∧
        file.path = bytes "/out/A.bf" ∧
        ∃ body, (file.body s').1 = .ok body ∧ body.close = none ∧ body.Holds (bytes "+")) ∧
      s'.disk.node? [bytes "srv", bytes "old.bf"] = some (.file (bytes "-")) := by
  have hrooted : isRooted (bytes "/srv") = true := by decide
  have hclean : clean (bytes "/srv") = bytes "/srv" := by decide
  have hpath : Target.path (bytes "file:///out/%41.bf") = bytes "/out/A.bf" := by decide +kernel
  have hvalid : Utf8.isValid (Target.path (bytes "file:///out/%41.bf")) = true := by
    rw [hpath]
    exact Utf8.isValid_of_ascii (by decide)
  have hplace : cleanElements (placeOf (bytes "/srv") (bytes "file:///out/%41.bf")) =
      [bytes "srv", bytes "out", bytes "A.bf"] := by
    rw [placeOf, hpath]
    decide
  have hok : ((ofRoot (bytes "/srv")).write (bytes "file:///out/%41.bf") (bytes "+") fewFiles).1 =
      none := by
    decide +kernel
  have hold : fewFiles.disk.node? [bytes "srv", bytes "old.bf"] = some (.file (bytes "-")) := by
    decide
  obtain ⟨s', hwrite⟩ : ∃ s', (ofRoot (bytes "/srv")).write (bytes "file:///out/%41.bf")
      (bytes "+") fewFiles = (none, s') := ⟨_, by rw [← hok]⟩
  obtain ⟨hiff, -, hkept⟩ := written_reads_back_iff hrooted hclean hvalid hwrite
  refine ⟨hrooted, hclean, hvalid, s', hwrite, ?_, ?_⟩
  · rw [hpath] at hiff
    exact hiff.mpr (by decide)
  · rcases hkept [bytes "srv", bytes "old.bf"] (by rw [hplace]; decide) with hsame | ⟨hnone, -⟩
    · exact hsame.trans hold
    · rw [hold] at hnone
      simp at hnone

/-- Writing to a root that is a file succeeds, and then nothing can be opened by its name. -/
theorem written_root_unread :
    isRooted (bytes "/r") = true ∧ clean (bytes "/r") = bytes "/r" ∧
    Utf8.isValid (Target.path (bytes "/")) = true ∧
    ∃ s', (ofRoot (bytes "/r")).write (bytes "/") (bytes "+") fewFiles = (none, s') ∧
      ∀ files, ((ofRoot (bytes "/r")).resolve (bytes "/") s').1 ≠ .ok files := by
  have hpath : Target.path (bytes "/") = [separator] := by decide +kernel
  have hok : ((ofRoot (bytes "/r")).write (bytes "/") (bytes "+") fewFiles).1 = none := by
    decide +kernel
  have hfile : ((ofRoot (bytes "/r")).write (bytes "/") (bytes "+") fewFiles).2.disk.node?
      [bytes "r"] = some (.file (bytes "+")) := by
    decide +kernel
  have hname : IsName (bytes "r") := ⟨by decide, by decide, by decide, by decide⟩
  obtain ⟨s', hwrite⟩ : ∃ s', (ofRoot (bytes "/r")).write (bytes "/") (bytes "+") fewFiles =
      (none, s') := ⟨_, by rw [← hok]⟩
  rw [hwrite] at hfile
  refine ⟨by decide, by decide, ?_, s', hwrite, ?_⟩
  · rw [hpath]
    exact Utf8.isValid_of_ascii (by decide)
  · exact resolve_root_ne_ok (List.forall_mem_singleton.mpr hname) (by decide) hpath hfile

end FileSystem

end Bracket
