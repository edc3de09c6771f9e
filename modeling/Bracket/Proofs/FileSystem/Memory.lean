import Bracket.FileSystem.Memory
import Bracket.Proofs.FileSystem.Confinement

/-!
# Tables of names

A local file system in memory answers from its table alone as long as no name is in trouble. A name
stands for a file, for a directory or for nothing (`Memory.look_cases`). A file answers for itself.
A directory answers for its entries, whose paths lead one name further down than its own
(`Volume.entryFile_spec`). Whatever fails is a failed access, or a directory without sources
(`Memory.resolve_eq_error`).
-/

namespace Bracket

open Bracket.Path

/-! ## Answers of volumes -/

/-- No access is refused because of the kind of a file. -/
theorem Diagnosis.code_ofAccess_ne (path : Bytes) (f : Failure) :
    (ofAccess path f).code ≠ .unsupportedFormat := by
  have hcode : ∀ reason, accessCode reason ≠ .unsupportedFormat := by
    intro reason
    unfold accessCode
    split
    · decide
    · split <;> decide
  unfold ofAccess
  split
  · exact hcode _
  · show Code.unknownFatal ≠ Code.unsupportedFormat
    decide

/-- A name leads further down than the path in front of it. -/
theorem Target.join_path_ne {uri name : Bytes} (hname : IsName name) :
    join [path uri, name] ≠ path uri := by
  obtain ⟨names, hnames, hpath⟩ := exists_names_path uri
  have hall : ∀ part ∈ names ++ [name], IsName part :=
    List.forall_mem_append.mpr ⟨hnames, List.forall_mem_singleton.mpr hname⟩
  rw [hpath, join_name true hnames hname]
  intro hsame
  have helements := congrArg cleanElements hsame
  rw [cleanElements_ofElements hall, cleanElements_ofElements hnames] at helements
  simpa using congrArg List.length helements

namespace Volume

variable {σ : Type}

/-- The answer to a name, given what came of opening it. -/
def answerTo (volume : Volume σ) (accepts : Bytes → Bool) (path name : Bytes) :
    Except Failure Handle → Except Failure (List (File σ))
  | .error f => .error (Diagnosis.ofAccess name f).toFailure
  | .ok handle =>
    match handle.isDirectory with
    | .error f => .error (Diagnosis.ofAccess name f).toFailure
    | .ok false => .ok [volume.file path name]
    | .ok true => volume.expand accepts path name handle

/-- What a target stands for depends on what the volume has under its name, and on nothing else. -/
theorem fst_resolve (volume : Volume σ) (accepts : Bytes → Bool) (uri : Bytes) (s : σ) :
    (volume.resolve accepts uri s).1 =
      volume.answerTo accepts (Target.path uri) (nameOf (Target.path uri))
        (volume.look (nameOf (Target.path uri)) s).1 := by
  unfold resolve answerTo
  dsimp only
  cases volume.look (nameOf (Target.path uri)) s with
  | mk opened s' =>
    cases opened with
    | error f => rfl
    | ok handle =>
      dsimp only
      rcases handle.isDirectory with f | _ | _ <;> rfl

/-- Whatever a volume answers with are files of that volume. -/
theorem exists_eq_file {volume : Volume σ} {accepts : Bytes → Bool} {uri : Bytes} {s : σ}
    {files : List (File σ)} (h : (volume.resolve accepts uri s).1 = .ok files) :
    ∀ file ∈ files, ∃ path name, file = volume.file path name := by
  rw [fst_resolve] at h
  unfold answerTo at h
  split at h
  · simp at h
  · split at h
    · simp at h
    · obtain rfl := Except.ok.inj h
      simp
    · unfold expand at h
      split at h
      · simp at h
      · simp at h
      · split at h
        · simp at h
        · obtain rfl := Except.ok.inj h
          intro file hfile
          obtain ⟨entry, -, rfl⟩ := List.mem_map.mp hfile
          exact ⟨_, _, rfl⟩

/-- An entry has the path of its directory with one name more, and is of the kind of its name. -/
theorem entryFile_spec (volume : Volume σ) (uri : Bytes) {entry : Entry}
    (hentry : IsName entry.name) :
    (volume.entryFile (nameOf (Target.path uri)) entry).path =
        join [Target.path uri, entry.name] ∧
      (volume.entryFile (nameOf (Target.path uri)) entry).kind = Target.kindOf entry.name := by
  obtain ⟨names, hnames, hpath⟩ := Target.exists_names_path uri
  have hall : ∀ name ∈ names ++ [entry.name], IsName name :=
    List.forall_mem_append.mpr ⟨hnames, List.forall_mem_singleton.mpr hentry⟩
  have hname : entryName (nameOf (Target.path uri)) entry =
      ofElements false (names ++ [entry.name]) := by
    rw [hpath, nameOf_ofElements hnames, entryName, join_name false hnames hentry]
  have hroot : [separator] = ofElements true [] := rfl
  constructor
  · rw [entryFile, file, hname, hroot, join_ofElements true false (List.forall_mem_nil _) hall,
      List.nil_append, hpath, join_name true hnames hentry]
  · rw [entryFile, file, hname]
    simp only [Target.kindOf, extension_relative names hentry]

/-- The entries that are selected are the files whose names are accepted. -/
theorem mem_selected {accepts : Bytes → Bool} {entries : List Entry} {entry : Entry} :
    entry ∈ selected accepts entries ↔
      entry ∈ entries ∧ entry.isDirectory = false ∧ accepts entry.name = true := by
  simp [selected]

end Volume

/-! ## Tables -/

namespace Memory

variable (m : Memory)

/-- What can come of opening a name. -/
theorem look_cases (name : Bytes) :
    (∃ f, m.look name = .error f) ∨ (∃ content, m.look name = .ok (.ofFile (.ofContent content))) ∨
      m.look name = .ok (m.openDirectory name) := by
  unfold look
  dsimp only
  split
  · split
    · next content _ => exact .inr (.inl ⟨content, rfl⟩)
    · exact .inr (.inr rfl)
    · split
      · exact .inr (.inr rfl)
      · exact .inl ⟨_, rfl⟩
  · exact .inl ⟨_, rfl⟩

/-- A table without trouble opens its names as they are. -/
theorem look_ofMemory (number : Nat) (name : Bytes) (s : Storage) :
    (Volume.ofMemory number m []).look name s =
      (m.look name, { s with opened := (number, name) :: s.opened }) := by
  have hhealthy : (m.look name).map Trouble.none.apply = m.look name := by
    rcases m.look_cases name with ⟨f, h⟩ | ⟨content, h⟩ | h <;> rw [h] <;> rfl
  exact Prod.ext hhealthy rfl

def HasFile (uri : Bytes) : Prop :=
  ∃ content, m.look (Volume.nameOf (Target.path uri)) = .ok (.ofFile (.ofContent content))

def HasDirectory (uri : Bytes) : Prop :=
  m.look (Volume.nameOf (Target.path uri)) =
    .ok (m.openDirectory (Volume.nameOf (Target.path uri)))

variable {m} {number : Nat} {accepts : Bytes → Bool} {uri : Bytes}

/-- A file answers for itself. -/
theorem HasFile.resolve (h : m.HasFile uri) (s : Storage) :
    ((Volume.ofMemory number m []).resolve accepts uri s).1 =
      .ok [(Volume.ofMemory number m []).file (Target.path uri)
        (Volume.nameOf (Target.path uri))] := by
  obtain ⟨content, hlook⟩ := h
  rw [Volume.fst_resolve, look_ofMemory, hlook]
  rfl

/-- A directory answers for those of its entries that are files and pass the filter, and there has to
be one. -/
theorem HasDirectory.resolve (h : m.HasDirectory uri) (s : Storage) :
    ((Volume.ofMemory number m []).resolve accepts uri s).1 =
      match Volume.selected accepts (m.entries (Volume.nameOf (Target.path uri))) with
      | [] =>
        .error (Diagnosis.new (.ofUri (Target.path uri)) .fileNotFound
          (bytes "found directory " ++ Target.path uri ++ bytes " but it has no sources")).toFailure
      | entries =>
        .ok (entries.map ((Volume.ofMemory number m []).entryFile
          (Volume.nameOf (Target.path uri)))) := by
  rw [Volume.fst_resolve, look_ofMemory, h]
  rfl

/-- A directory stands for exactly its entries which are files and whose names are accepted. -/
theorem HasDirectory.exists_mem_resolve_iff (h : m.HasDirectory uri) (s : Storage)
    {file : File Storage} :
    (∃ files, ((Volume.ofMemory number m []).resolve accepts uri s).1 = .ok files ∧ file ∈ files) ↔
      ∃ entry ∈ m.entries (Volume.nameOf (Target.path uri)),
        entry.isDirectory = false ∧ accepts entry.name = true ∧
          file =
            (Volume.ofMemory number m []).entryFile (Volume.nameOf (Target.path uri)) entry := by
  rw [h.resolve]
  constructor
  · rintro ⟨files, hfiles, hfile⟩
    split at hfiles
    · simp at hfiles
    · obtain rfl := Except.ok.inj hfiles
      obtain ⟨entry, hentry, rfl⟩ := List.mem_map.mp hfile
      obtain ⟨hmem, hplain, haccepted⟩ := Volume.mem_selected.mp hentry
      exact ⟨entry, hmem, hplain, haccepted, rfl⟩
  · rintro ⟨entry, hmem, hplain, haccepted, rfl⟩
    have hentry := Volume.mem_selected.mpr ⟨hmem, hplain, haccepted⟩
    split
    · next hnone => simp [hnone] at hentry
    · exact ⟨_, rfl, List.mem_map_of_mem hentry⟩

/-- **Failures of a table are diagnoses**, and never of the kind of a file. -/
theorem resolve_eq_error {s : Storage} {f : Failure}
    (h : ((Volume.ofMemory number m []).resolve accepts uri s).1 = .error f) :
    ∃ d : Diagnosis, f = d.toFailure ∧ d.code ≠ .unsupportedFormat := by
  rcases m.look_cases (Volume.nameOf (Target.path uri)) with ⟨f', hlook⟩ | hfile | hdirectory
  · rw [Volume.fst_resolve, look_ofMemory, hlook] at h
    exact ⟨_, (Except.error.inj h).symm, Diagnosis.code_ofAccess_ne _ _⟩
  · rw [HasFile.resolve hfile] at h
    simp at h
  · rw [HasDirectory.resolve hdirectory] at h
    split at h
    · have hcode : Code.fileNotFound ≠ Code.unsupportedFormat := by decide
      exact ⟨_, (Except.error.inj h).symm, hcode⟩
    · simp at h

/-! ## Entries -/

/-- All names of the table can be asked for, which is what a table of names is for. -/
def WellNamed (m : Memory) : Prop := ∀ x ∈ m.nodes, isVolumeName x.1 = true

/-- What stands directly inside a directory is an element of a name that is longer than that of the
tree itself. -/
theorem mem_elements_of_below {directory name rest : Bytes}
    (hbelow : below? directory name = some rest) (hrest : separator ∉ rest) :
    rest ∈ elements name ∧ name ≠ here := by
  unfold below? at hbelow
  split at hbelow
  · split at hbelow
    · simp at hbelow
    · next hne =>
      obtain rfl := Option.some.inj hbelow
      exact ⟨by simp [elements_of_notMem hrest], hne⟩
  · dsimp only at hbelow
    split at hbelow
    · next hstem =>
      obtain ⟨back, rfl⟩ := List.isPrefixOf_iff_prefix.mp hstem
      obtain rfl : back = rest := by simpa using hbelow
      rw [List.append_assoc, List.singleton_append, elements_append_separator]
      refine ⟨by simp [elements_of_notMem hrest], fun hhere => ?_⟩
      have hslash : separator ∈ here := hhere ▸ by simp
      exact absurd hslash (by decide)
    · simp at hbelow

theorem isName_of_below {directory name rest : Bytes} (hname : isVolumeName name = true)
    (hbelow : below? directory name = some rest) (hrest : separator ∉ rest) : IsName rest := by
  obtain ⟨hmem, hne⟩ := mem_elements_of_below hbelow hrest
  simp only [isVolumeName, Bool.and_eq_true, Bool.or_eq_true, beq_iff_eq, hne, false_or,
    List.all_eq_true] at hname
  have hproper := hname.2 rest hmem
  simp only [isProperElement, Bool.not_eq_true', Bool.or_eq_false_iff,
    beq_eq_false_iff_ne] at hproper
  obtain ⟨⟨hnil, hhere⟩, hparent⟩ := hproper
  exact ⟨hnil, hhere, hparent, hrest⟩

/-- In a tree of well-formed names every entry that is a file has the name of one. -/
theorem WellNamed.isName_of_mem_entries (h : m.WellNamed) {directory : Bytes} {entry : Entry}
    (hentry : entry ∈ m.entries directory) (hfile : entry.isDirectory = false) :
    IsName entry.name := by
  unfold entries at hentry
  rcases List.mem_append.mp hentry with hnamed | himplied
  · obtain ⟨⟨rest, node⟩, hrest, rfl⟩ := List.mem_map.mp hnamed
    obtain ⟨hinside, hslash⟩ := List.mem_filter.mp hrest
    obtain ⟨⟨name, node'⟩, hnode, hbelow⟩ := List.mem_filterMap.mp hinside
    obtain ⟨rest', hrest', hpair⟩ := Option.map_eq_some_iff.mp hbelow
    obtain ⟨rfl, -⟩ := Prod.mk.inj hpair
    exact isName_of_below (h _ hnode) hrest' (by simpa using hslash)
  · -- an implied entry is a directory
    obtain ⟨first, -, rfl⟩ := List.mem_map.mp himplied
    simp at hfile

end Memory

/-- The local file system that finds files in a table of names, none of which is in trouble. -/
def FileSystem.ofTable (root : Bytes) (accepts : Bytes → Bool) (number : Nat) (m : Memory) :
    FileSystem Storage :=
  ofVolume root accepts (.ofMemory number m [])

end Bracket
