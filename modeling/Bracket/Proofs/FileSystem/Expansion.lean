import Mathlib.Data.List.Forall2
import Mathlib.Tactic.Choose
import Bracket.Proofs.Causes
import Bracket.Proofs.Delivery
import Bracket.Proofs.FileSystem.Memory
import Bracket.Proofs.Report

/-!
# What a directory answers for

A directory of a table answers for the files that stand directly inside it and pass the filter. The
table knows them by their full names: a name is one element longer than that of the directory
exactly if it is seen from there as a single element (`Memory.below?_eq_some_iff`), and so an entry
that is no directory is a file of the table (`Memory.mem_entries_iff`). Names in a table are
different, so are those of the entries, and sorting them leaves one order
(`Memory.IsTree.pairwise_chosen`).

Each file is opened by the full name of its entry, which leads back to the content in the table
(`Memory.IsTree.holds_entryFile`).
-/

namespace Bracket

open Bracket.Path

/-- A path of names is that of the tree itself only if there is none. -/
theorem Path.ofElements_ne_here {names : List Bytes} (h : ∀ name ∈ names, IsName name)
    (hne : names ≠ []) : ofElements false names ≠ here := by
  intro hhere
  have helements := congrArg elements hhere
  rw [ofElements_relative hne,
    elements_intercalate (fun name hname => (h name hname).separator_notMem) hne] at helements
  have hself : elements here = [here] := by decide
  exact (h here (by simp [helements, hself])).ne_here rfl

/-! ## Reading to the end -/

/-- What reads of the given sizes hand out one after the other, up to the first that fails, and the
failure. -/
def Body.reads (b : Body) : List Nat → Bytes × Option Failure
  | [] => ([], none)
  | n :: sizes =>
    match b.read false n with
    | (.failed f, _) => ([], some f)
    | (.data piece, b') => (piece ++ (b'.reads sizes).1, (b'.reads sizes).2)

/-- In pieces of whatever size, the body hands out these bytes and then its end. One read for each
byte and one more is enough to get there. -/
def Body.Holds (b : Body) (content : Bytes) : Prop :=
  ∀ sizes : List Nat, (∀ n ∈ sizes, 0 < n) → content.length < sizes.length →
    ∃ f, b.reads sizes = (content, some f) ∧ f.hasCode Code.endOfBody = true

/-- The file can be opened and closed at any time, and its body holds these bytes. -/
def File.Holds {σ : Type} (file : File σ) (content : Bytes) : Prop :=
  ∀ s, ∃ body, (file.body s).1 = .ok body ∧ body.close = none ∧ body.Holds content

/-- A body whose device comes to an end of input holds what it delivers before. -/
theorem Body.holds_deliverable {b : Body} (hflows : b.device.Flows)
    (hending : b.device.ending = .fail .endOfInput) : b.Holds b.deliverable := by
  intro sizes
  -- every read but the last takes a piece off what is left, which is how so many reads suffice
  induction sizes generalizing b with
  | nil => simp
  | cons n sizes ih =>
    intro hsizes hlength
    obtain ⟨hn, hrest⟩ := List.forall_mem_cons.mp hsizes
    by_cases hdone : b.deliverable = []
    · have hanswer : b.endAnswer = .failed (b.diagnose .endOfInput).toFailure := by
        rw [endAnswer, hending]
      refine ⟨(b.diagnose .endOfInput).toFailure, ?_, ?_⟩
      · rw [reads, read_end hdone hn, hanswer, hdone]
      · exact (Diagnosis.hasCode_toFailure _ _).mpr (.inl rfl)
    · obtain ⟨piece, b', hread, hpiece, -, hyields⟩ := read_piece hflows hdone hn
      have hflows' : b'.device.Flows := by rwa [Device.Flows, hyields.chunk]
      have hbytes := congrArg List.length hyields.bytes
      have hpos := List.length_pos_of_ne_nil hpiece
      rw [List.length_append] at hbytes
      rw [List.length_cons] at hlength
      obtain ⟨f, hreads, hcode⟩ :=
        ih hflows' (hyields.ending.trans hending) hrest (by omega)
      refine ⟨f, ?_, hcode⟩
      rw [reads, hread, hyields.bytes]
      simp only [hreads]

/-- A file that opens as its content can be read to the end. -/
theorem File.exists_body_of_access {σ : Type} {file : File σ} {content : Bytes} {s : σ}
    (h : (file.access s).1 = .ok (.ofContent content)) :
    ∃ body, (file.body s).1 = .ok body ∧ body.close = none ∧ body.Holds content := by
  refine ⟨.ofDevice file.path (.ofContent content), ?_, rfl, ?_⟩
  · have hbody : (file.body s).1 = Body.ofOpened file.path (file.access s).1 := rfl
    rw [hbody, h]
    rfl
  · exact Body.holds_deliverable (by simp [Device.Flows, Body.ofDevice, Device.ofContent]) rfl

/-- A file that always gives the same content holds it. -/
theorem File.holds_of_access {σ : Type} {file : File σ} {content : Bytes}
    (h : ∀ s, (file.access s).1 = .ok (.ofContent content)) : file.Holds content :=
  fun s => exists_body_of_access (h s)

namespace Volume

variable {σ : Type}

/-- **No answer is empty**: whatever a name stands for, there is a file or a failure. -/
theorem ne_nil_of_resolve {volume : Volume σ} {accepts : Bytes → Bool} {uri : Bytes} {s : σ}
    {files : List (File σ)} (h : (volume.resolve accepts uri s).1 = .ok files) : files ≠ [] := by
  rw [fst_resolve] at h
  unfold answerTo at h
  split at h
  · simp at h
  · split at h
    · simp at h
    · obtain rfl := Except.ok.inj h
      simp
    -- a directory from which nothing is chosen is answered with a failure
    · unfold expand at h
      split at h
      · simp at h
      · simp at h
      · split at h
        · simp at h
        · next hsome =>
          obtain rfl := Except.ok.inj h
          simpa using hsome

end Volume

namespace Memory

/-! ## Names in a directory -/

/-- Different names are different as seen from a directory. -/
theorem below?_inj {directory name name' rest : Bytes} (h : below? directory name = some rest)
    (h' : below? directory name' = some rest) : name = name' := by
  unfold below? at h h'
  split at h
  · next hhere =>
    rw [if_pos hhere] at h'
    split at h
    · simp at h
    · split at h'
      · simp at h'
      · exact (Option.some.inj h).trans (Option.some.inj h').symm
  · next hhere =>
    rw [if_neg hhere] at h'
    dsimp only at h h'
    split at h
    · next hstem =>
      split at h'
      · next hstem' =>
        obtain ⟨back, rfl⟩ := List.isPrefixOf_iff_prefix.mp hstem
        obtain ⟨back', rfl⟩ := List.isPrefixOf_iff_prefix.mp hstem'
        simp only [List.drop_left, Option.some.injEq] at h h'
        rw [h, h']
      · simp at h'
    · simp at h

/-- **A name is seen from a directory as what stands behind the name of the directory.** -/
theorem below?_eq_some_iff {names : List Bytes} (h : ∀ name ∈ names, IsName name)
    {name rest : Bytes} (hname : name ≠ here) :
    below? (ofElements false names) name = some rest ↔
      name = ofElements false (names ++ [rest]) := by
  by_cases hnil : names = []
  · have hsingle : ofElements false [rest] = rest := by simp [ofElements]
    have htree : ofElements false [] = here := rfl
    rw [hnil, List.nil_append, hsingle, htree, below?, if_pos rfl, if_neg hname, Option.some.injEq]
  · have hpath : ofElements false (names ++ [rest]) =
        ofElements false names ++ [separator] ++ rest := by
      rw [ofElements_relative (by simp), intercalate_append hnil (by simp),
        ofElements_relative hnil, List.intercalate_singleton, List.append_assoc]
      rfl
    rw [below?, if_neg (ofElements_ne_here h hnil), hpath]
    dsimp only
    constructor
    · intro hbelow
      split at hbelow
      · next hstem =>
        obtain ⟨back, rfl⟩ := List.isPrefixOf_iff_prefix.mp hstem
        rw [List.drop_left, Option.some.injEq] at hbelow
        rw [hbelow]
      · simp at hbelow
    · rintro rfl
      rw [if_pos (List.isPrefixOf_iff_prefix.mpr (List.prefix_append _ _)), List.drop_left]

/-! ## Trees -/

/-- A table of names is a tree if every name in it can be asked for and stands there once. -/
structure IsTree (m : Memory) : Prop where
  named : m.WellNamed
  nodup : (m.nodes.map (·.1)).Nodup

/-- Directly inside the directory that is asked for there is a file with this name and content. -/
def HoldsFile (m : Memory) (uri name content : Bytes) : Prop :=
  IsName name ∧ (Volume.nameOf (join [Target.path uri, name]), .file content) ∈ m.nodes

/-- The entries that the directory which is asked for answers for. -/
def chosen (m : Memory) (accepts : Bytes → Bool) (uri : Bytes) : List Entry :=
  Volume.selected accepts (m.entries (Volume.nameOf (Target.path uri)))

/-- The names of the table that are seen from a directory as single elements, with their nodes. -/
def named (m : Memory) (directory : Bytes) : List (Bytes × Node) :=
  (m.nodes.filterMap fun x => (below? directory x.1).map fun rest => (rest, x.2)).filter
    fun x => !x.1.contains separator

variable {m : Memory}

/-- All other entries are directories. -/
theorem exists_entries_eq (m : Memory) (directory : Bytes) :
    ∃ implied : List Bytes, m.entries directory =
      (m.named directory).map (fun x => ⟨x.1, x.2.isDirectory⟩) ++
        implied.map (⟨·, true⟩) :=
  ⟨_, rfl⟩

/-- What a directory names is what stands directly below it. -/
theorem mem_named {directory rest : Bytes} {node : Node} :
    (rest, node) ∈ m.named directory ↔
      separator ∉ rest ∧ ∃ name, (name, node) ∈ m.nodes ∧ below? directory name = some rest := by
  simp [named, and_comm]

/-- **An entry that is no directory is a file of the table**, whose name leads one element further
down. -/
theorem mem_entries_iff (hm : m.WellNamed) {names : List Bytes} (hnames : ∀ name ∈ names, IsName name)
    {name : Bytes} :
    ⟨name, false⟩ ∈ m.entries (ofElements false names) ↔
      IsName name ∧ ∃ content, (ofElements false (names ++ [name]), .file content) ∈ m.nodes := by
  obtain ⟨implied, hentries⟩ := m.exists_entries_eq (ofElements false names)
  constructor
  · intro hentry
    refine ⟨hm.isName_of_mem_entries hentry rfl, ?_⟩
    rw [hentries] at hentry
    rcases List.mem_append.mp hentry with hnamed | himplied
    · obtain ⟨⟨rest, node⟩, hrest, heq⟩ := List.mem_map.mp hnamed
      obtain ⟨rfl, hnode⟩ := Entry.mk.inj heq
      obtain ⟨hslash, full, hfull, hbelow⟩ := mem_named.mp hrest
      obtain rfl := (below?_eq_some_iff hnames (mem_elements_of_below hbelow hslash).2).mp hbelow
      cases node with
      | file content => exact ⟨content, hfull⟩
      | directory => simp [Node.isDirectory] at hnode
    -- directories that no node stands for are implied by what is in them, and are no files
    · simp at himplied
  · rintro ⟨hname, content, hfull⟩
    have hall : ∀ part ∈ names ++ [name], IsName part :=
      List.forall_mem_append.mpr ⟨hnames, List.forall_mem_singleton.mpr hname⟩
    have hbelow := (below?_eq_some_iff hnames (ofElements_ne_here hall (by simp))).mpr
      (rfl : ofElements false (names ++ [name]) = _)
    rw [hentries]
    refine List.mem_append_left _ (List.mem_map.mpr ⟨(name, .file content), ?_, rfl⟩)
    exact mem_named.mpr ⟨hname.separator_notMem, _, hfull, hbelow⟩

/-- The names of a tree that are directly inside a directory are different. -/
theorem IsTree.pairwise_named (hm : m.IsTree) (directory : Bytes) :
    (m.named directory).Pairwise (fun a b => a.1 ≠ b.1) := by
  have hnodes : m.nodes.Pairwise (fun a b => a.1 ≠ b.1) := List.pairwise_map.mp hm.nodup
  refine List.Pairwise.filter _ (hnodes.filterMap _ ?_)
  intro a b hne x hx y hy hsame
  obtain ⟨rest, hrest, rfl⟩ := Option.map_eq_some_iff.mp hx
  obtain ⟨rest', hrest', rfl⟩ := Option.map_eq_some_iff.mp hy
  obtain rfl : rest = rest' := hsame
  exact hne (below?_inj hrest hrest')

/-- The files among the entries of a directory have different names. -/
theorem IsTree.pairwise_files (hm : m.IsTree) (directory : Bytes) (accepts : Bytes → Bool) :
    ((m.entries directory).filter fun entry => !entry.isDirectory && accepts entry.name).Pairwise
      (fun a b => a.name ≠ b.name) := by
  obtain ⟨implied, hentries⟩ := m.exists_entries_eq directory
  have hnone : (implied.map (⟨·, true⟩ : Bytes → Entry)).filter
      (fun entry => !entry.isDirectory && accepts entry.name) = [] := by
    simp
  rw [hentries, List.filter_append, hnone, List.append_nil]
  exact List.Pairwise.filter _ (List.pairwise_map.mpr (hm.pairwise_named directory))

/-- **What a directory answers for is in ascending order of the names**, each once. -/
theorem IsTree.pairwise_chosen (hm : m.IsTree) (accepts : Bytes → Bool) (uri : Bytes) :
    (m.chosen accepts uri).Pairwise (fun a b => a.name < b.name) := by
  have hle : (m.chosen accepts uri).Pairwise (fun a b => a.name ≤ b.name) :=
    (Bytes.pairwise_mergeSort Entry.name _).filter _
  have hne : (m.chosen accepts uri).Pairwise (fun a b => a.name ≠ b.name) :=
    (((List.mergeSort_perm _ _).filter _).pairwise_iff fun h => h.symm).mpr
      (hm.pairwise_files _ accepts)
  refine (hle.and hne).imp fun {a b} hab => ?_
  exact (List.le_iff_lt_or_eq.mp hab.1).resolve_right hab.2

/-- A file of a tree is found under its name. -/
theorem IsTree.look_eq (hm : m.IsTree) {name content : Bytes} (h : (name, .file content) ∈ m.nodes) :
    m.look name = .ok (.ofFile (.ofContent content)) := by
  have hlookup : List.lookup name m.nodes = some (.file content) := by
    obtain ⟨front, back, hnodes⟩ := List.append_of_mem h
    refine List.lookup_eq_some_iff.mpr ⟨front, back, hnodes, fun x hx => ?_⟩
    have hnodup := hm.nodup
    rw [hnodes, List.map_append, List.nodup_append] at hnodup
    have hne := hnodup.2.2 x.1 (List.mem_map_of_mem hx) name (by simp)
    simpa using hne.symm
  simp [look, hm.named _ h, hlookup]

section Directory

variable {number : Nat} {accepts : Bytes → Bool} {uri : Bytes}

/-- Where the file of an entry stands in the table. -/
theorem nameOf_join_path {names : List Bytes} (hnames : ∀ name ∈ names, IsName name)
    (hpath : Target.path uri = ofElements true names) {name : Bytes} (hname : IsName name) :
    Volume.nameOf (join [Target.path uri, name]) = ofElements false (names ++ [name]) := by
  have hall : ∀ part ∈ names ++ [name], IsName part :=
    List.forall_mem_append.mpr ⟨hnames, List.forall_mem_singleton.mpr hname⟩
  rw [hpath, join_name true hnames hname, Volume.nameOf_ofElements hall]

/-- **The entries that a directory answers for** are its files that pass the filter. -/
theorem IsTree.mem_chosen_iff (hm : m.IsTree) {entry : Entry} :
    entry ∈ m.chosen accepts uri ↔
      entry.isDirectory = false ∧ (∃ content, m.HoldsFile uri entry.name content) ∧
        accepts entry.name = true := by
  obtain ⟨names, hnames, hpath⟩ := Target.exists_names_path uri
  rw [chosen, Volume.mem_selected, hpath, Volume.nameOf_ofElements hnames, and_left_comm]
  refine and_congr_right fun hfile => and_congr_left fun _ => ?_
  obtain ⟨name, isDirectory⟩ := entry
  obtain rfl : isDirectory = false := hfile
  rw [mem_entries_iff hm.named hnames, ← exists_and_left]
  refine exists_congr fun content => and_congr_right fun hisName => ?_
  rw [nameOf_join_path hnames hpath hisName]

/-- A directory without a file that passes the filter is not found. -/
theorem HasDirectory.resolve_of_eq_nil (h : m.HasDirectory uri)
    (hnone : m.chosen accepts uri = []) (s : Storage) :
    ∃ d : Diagnosis, ((Volume.ofMemory number m []).resolve accepts uri s).1 = .error d.toFailure ∧
      d.code = .fileNotFound := by
  rw [h.resolve, ← chosen, hnone]
  exact ⟨_, rfl, rfl⟩

/-- **A directory stands for the files chosen from it**, if there are any. -/
theorem HasDirectory.resolve_of_ne_nil (h : m.HasDirectory uri)
    (hsome : m.chosen accepts uri ≠ []) (s : Storage) :
    ((Volume.ofMemory number m []).resolve accepts uri s).1 =
      .ok ((m.chosen accepts uri).map
        ((Volume.ofMemory number m []).entryFile (Volume.nameOf (Target.path uri)))) := by
  rw [h.resolve]
  split
  · next hnone => exact absurd hnone hsome
  · rfl

/-- **The file of an entry reads the content that stands in the table.** -/
theorem IsTree.holds_entryFile (hm : m.IsTree) {entry : Entry} {content : Bytes}
    (h : m.HoldsFile uri entry.name content) :
    ((Volume.ofMemory number m []).entryFile (Volume.nameOf (Target.path uri)) entry).Holds
      content := by
  refine File.holds_of_access fun s => ?_
  have hlook : m.look (Volume.entryName (Volume.nameOf (Target.path uri)) entry) =
      .ok (.ofFile (.ofContent content)) := by
    obtain ⟨names, hnames, hpath⟩ := Target.exists_names_path uri
    obtain ⟨hname, hmem⟩ := h
    rw [nameOf_join_path hnames hpath hname] at hmem
    rw [hpath, Volume.nameOf_ofElements hnames, Volume.entryName, join_name false hnames hname]
    exact hm.look_eq hmem
  simp only [Volume.entryFile, Volume.file, look_ofMemory, hlook]
  rfl

/-- A file of a tree has one content. -/
theorem IsTree.holdsFile_unique (hm : m.IsTree) {name content content' : Bytes}
    (h : m.HoldsFile uri name content) (h' : m.HoldsFile uri name content') :
    content = content' := by
  have hlook := (hm.look_eq h.2).symm.trans (hm.look_eq h'.2)
  simpa [Handle.ofFile, Device.ofContent] using hlook

end Directory

end Memory

namespace FileSystem

/-- **A directory answers for exactly the right files.** In a tree of names, a directory that is asked
for answers for the files directly inside it which pass the filter: there is one list of their names
and contents, in ascending order of the names. If it is empty, the directory is not found to have any
source. Otherwise the answer is one file for each of them, in the same order, with the path of the
directory and the name as its path, of the kind of the name, which reads the content. No answer is an
empty list, whatever is asked for. -/
theorem resolve_directory_exactly {m : Memory} (hm : m.IsTree) (root : Bytes)
    (accepts : Bytes → Bool) (number : Nat) :
    (∀ uri, m.HasDirectory uri → ∀ s, ∃ found : List (Bytes × Bytes),
      found.Pairwise (fun a b => a.1 < b.1) ∧
      (∀ name content, (name, content) ∈ found ↔
        m.HoldsFile uri name content ∧ accepts name = true) ∧
      (found = [] → ∃ d : Diagnosis,
        ((ofTable root accepts number m).resolve uri s).1 = .error d.toFailure ∧
          d.code = .fileNotFound) ∧
      (found ≠ [] → ∃ files,
        ((ofTable root accepts number m).resolve uri s).1 = .ok files ∧
        List.Forall₂ (fun x file => file.path = join [Target.path uri, x.1] ∧
          file.kind = Target.kindOf x.1 ∧ file.Holds x.2) found files)) ∧
    ∀ uri s files, ((ofTable root accepts number m).resolve uri s).1 = .ok files → files ≠ [] := by
  refine ⟨fun uri h s => ?_, fun uri s files hfiles => Volume.ne_nil_of_resolve hfiles⟩
  have hcontent : ∀ entry ∈ m.chosen accepts uri, ∃ content, m.HoldsFile uri entry.name content :=
    fun entry hentry => (hm.mem_chosen_iff.mp hentry).2.1
  -- entries do not carry contents, so a content is chosen for each of them; it is unique in a tree
  choose! content hcontent using hcontent
  refine ⟨(m.chosen accepts uri).map fun entry => (entry.name, content entry), ?_, ?_, ?_, ?_⟩
  · exact List.pairwise_map.mpr (hm.pairwise_chosen accepts uri)
  · intro name found
    rw [List.mem_map]
    constructor
    · rintro ⟨entry, hentry, hpair⟩
      obtain ⟨rfl, rfl⟩ := Prod.mk.inj hpair
      exact ⟨hcontent entry hentry, (hm.mem_chosen_iff.mp hentry).2.2⟩
    · rintro ⟨hholds, haccepted⟩
      have hentry : ⟨name, false⟩ ∈ m.chosen accepts uri :=
        hm.mem_chosen_iff.mpr ⟨rfl, ⟨found, hholds⟩, haccepted⟩
      exact ⟨_, hentry, Prod.ext rfl (hm.holdsFile_unique (hcontent _ hentry) hholds)⟩
  · intro hnone
    exact h.resolve_of_eq_nil (List.map_eq_nil_iff.mp hnone) s
  · intro hsome
    refine ⟨_, h.resolve_of_ne_nil (mt List.map_eq_nil_iff.mpr hsome) s, ?_⟩
    rw [List.forall₂_map_left_iff, List.forall₂_map_right_iff, List.forall₂_same]
    intro entry hentry
    obtain ⟨hpath, hkind⟩ := Volume.entryFile_spec (Volume.ofMemory number m []) uri
      (hcontent entry hentry).1
    exact ⟨hpath, hkind, hm.holds_entryFile (hcontent entry hentry)⟩

/-- Two sources, a file that is none, and a directory that is called like a source. -/
def sourceTree : Memory :=
  ⟨[(bytes "src/b.bf", .file (bytes "-")), (bytes "src/a.b", .file (bytes "+")),
    (bytes "src/notes.txt", .file (bytes "+-")), (bytes "src/nested.bf/c.bf", .file (bytes "."))]⟩

/-- The directory `src` answers for its two sources, and for nothing else. -/
theorem resolve_directory_exactly_nested :
    sourceTree.IsTree ∧ sourceTree.HasDirectory (bytes "file:///src") ∧
    ∃ found files,
      ((ofTable (bytes "/") isSource 0 sourceTree).resolve (bytes "file:///src") default).1 =
        .ok files ∧
      (bytes "a.b", bytes "+") ∈ found ∧ (bytes "b.bf", bytes "-") ∈ found ∧
      (∀ content, (bytes "notes.txt", content) ∉ found ∧ (bytes "nested.bf", content) ∉ found) ∧
      List.Forall₂ (fun x file => file.path = join [bytes "/src", x.1] ∧
        file.kind = Target.kindOf x.1 ∧ file.Holds x.2) found files := by
  have hnamed : ∀ x ∈ sourceTree.nodes, isVolumeName x.1 = true := by decide +kernel
  have htree : sourceTree.IsTree := ⟨hnamed, by decide +kernel⟩
  have hpath : Target.path (bytes "file:///src") = bytes "/src" := by decide +kernel
  have hname : Volume.nameOf (bytes "/src") = bytes "src" := by decide
  have hdirectory : sourceTree.HasDirectory (bytes "file:///src") := by
    have hvolume : isVolumeName (bytes "src") = true := by decide +kernel
    have hlookup : List.lookup (bytes "src") sourceTree.nodes = none := by decide +kernel
    have hentries : sourceTree.entries (bytes "src") ≠ [] := by decide +kernel
    simp [Memory.HasDirectory, hpath, hname, Memory.look, hvolume, hlookup, hentries]
  obtain ⟨found, -, hmem, -, hfiles⟩ :=
    (resolve_directory_exactly htree (bytes "/") isSource 0).1 _ hdirectory default
  have ha : (bytes "a.b", bytes "+") ∈ found := by
    refine (hmem _ _).mpr ⟨⟨⟨by decide, by decide, by decide, by decide⟩, ?_⟩, by decide +kernel⟩
    rw [hpath]
    decide +kernel
  have hb : (bytes "b.bf", bytes "-") ∈ found := by
    refine (hmem _ _).mpr ⟨⟨⟨by decide, by decide, by decide, by decide⟩, ?_⟩, by decide +kernel⟩
    rw [hpath]
    decide +kernel
  obtain ⟨files, hresolve, hforall⟩ := hfiles (List.ne_nil_of_mem ha)
  refine ⟨htree, hdirectory, found, files, hresolve, ha, hb, fun content => ⟨?_, ?_⟩, hpath ▸ hforall⟩
  · exact fun hnotes => absurd ((hmem _ _).mp hnotes).2 (by decide +kernel)
  · intro hnested
    have hholds := ((hmem _ _).mp hnested).1.2
    rw [hpath] at hholds
    have hfull : Volume.nameOf (join [bytes "/src", bytes "nested.bf"]) = bytes "src/nested.bf" := by
      decide +kernel
    have hnames : bytes "src/nested.bf" ∉ sourceTree.nodes.map (·.1) := by decide +kernel
    rw [hfull] at hholds
    exact hnames (List.mem_map_of_mem hholds)

end FileSystem

end Bracket
