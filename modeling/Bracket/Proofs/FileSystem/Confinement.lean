import Bracket.Proofs.FileSystem.Disk
import Bracket.Proofs.Target

/-!
# Local file systems stay below their root

A local file system takes any bytes for a name. Escapes in it are replaced before the path is
cleaned, and a name that cannot be read as a reference is cleaned as it is, so whatever the name
holds, what remains of it are names that lead down (`exists_names_path`).

`resolve_and_write_below_root` draws the conclusions. The one name that a volume is asked for is the
tree itself or leads down from it, and the path that is written to is the root or leads down from
it. On the disk, a write changes nothing outside the root but that it makes the directories on the
way to the root.
-/

namespace Bracket

open Bracket.Path

/-! ## Names that lead down -/

/-- Names with slashes between them: the path leads down from where it starts, and nowhere else. -/
def Path.LeadsDown (path : Bytes) : Prop :=
  ∃ names, names ≠ [] ∧ (∀ name ∈ names, IsName name) ∧
    path = List.intercalate [separator] names

/-- What a name is read as is made of names, whatever the name is. -/
theorem Target.exists_names_path (uri : Bytes) :
    ∃ names, (∀ name ∈ names, IsName name) ∧ path uri = ofElements true names := by
  unfold path
  split
  · exact exists_names_rooted uri
  · exact exists_names_rooted _

/-- The name by which a volume knows a path of names. -/
theorem Volume.nameOf_ofElements {names : List Bytes} (h : ∀ name ∈ names, IsName name) :
    nameOf (ofElements true names) = ofElements false names := by
  cases names with
  | nil => rfl
  | cons name rest =>
    obtain ⟨b, tail, hb, hpath⟩ := exists_cons_ofElements h
    rw [ofElements_relative (by simp)] at hpath ⊢
    simp [nameOf, ofElements_rooted, hpath, hb]

/-- A volume is asked for the tree itself, or for something below it. -/
theorem Volume.nameOf_path_leadsDown (uri : Bytes) :
    nameOf (Target.path uri) = here ∨ LeadsDown (nameOf (Target.path uri)) := by
  obtain ⟨below, hbelow, huri⟩ := Target.exists_names_path uri
  rw [huri, nameOf_ofElements hbelow]
  by_cases hne : below = []
  · exact .inl (by rw [hne, ofElements])
  · exact .inr ⟨below, hne, hbelow, ofElements_relative hne⟩

/-! ## Asking a volume -/

variable {σ : Type}

/-- Resolving a name leaves the state in which the volume was when it was asked for it. -/
theorem Volume.snd_resolve (volume : Volume σ) (accepts : Bytes → Bool) (uri : Bytes) (s : σ) :
    (volume.resolve accepts uri s).2 = (volume.look (nameOf (Target.path uri)) s).2 := by
  unfold resolve
  dsimp only
  cases volume.look (nameOf (Target.path uri)) s with
  | mk opened s' =>
    cases opened with
    | error f => rfl
    | ok handle =>
      dsimp only
      split <;> rfl

/-- The volume, with a record of the names that it is asked for. -/
def Volume.recorded (volume : Volume σ) : Volume (σ × List Bytes) where
  look name s := ((volume.look name s.1).1, (volume.look name s.1).2, s.2 ++ [name])

/-! ## Below the root -/

/-- A write below names changes nothing above them, except that it makes missing directories. -/
theorem Disk.prefix_of_node?_write_ne {names below : List Bytes}
    (hnames : ∀ name ∈ names, IsName name) (hbelow : ∀ name ∈ below, IsName name) {d : Disk}
    {content : Bytes} {place : List Bytes}
    (h : (d.write (ofElements true (names ++ below)) content).2.node? place ≠ d.node? place) :
    names <+: place ∨ (place <+: names ∧ d.node? place = none ∧
      (d.write (ofElements true (names ++ below)) content).2.node? place = some .directory) := by
  obtain ⟨hkept, -⟩ := write_spec (List.forall_mem_append.mpr ⟨hnames, hbelow⟩) d content
  by_cases hend : place = names ++ below
  · exact .inl (hend ▸ List.prefix_append _ _)
  · rcases hkept place hend with hsame | ⟨hnone, hmade, hway⟩
    · exact absurd hsame h
    · -- the place is on the way to the path, which goes through the names
      rcases List.prefix_or_prefix_of_prefix hway (List.prefix_append _ _) with hup | hdown
      · exact .inr ⟨hup, hnone, hmade⟩
      · exact .inl hdown

namespace FileSystem

/-- A local file system writes to the disk, at the path below its root. -/
theorem write_ofVolume (root : Bytes) (accepts : Bytes → Bool) (volume : Volume Storage)
    (uri content : Bytes) (s : Storage) :
    (ofVolume root accepts volume).write uri content s =
      ((s.disk.write (placeOf root uri) content).1,
        { s with disk := (s.disk.write (placeOf root uri) content).2 }) := by
  unfold ofVolume
  dsimp only

theorem write_ofRoot (root uri content : Bytes) (s : Storage) :
    (ofRoot root).write uri content s =
      ((s.disk.write (placeOf root uri) content).1,
        { s with disk := (s.disk.write (placeOf root uri) content).2 }) :=
  write_ofVolume root isSource (.ofDisk root) uri content s

/-- The path that is written to has the names of the root in front. -/
theorem placeOf_eq {root uri : Bytes} {names below : List Bytes}
    (hnames : ∀ name ∈ names, IsName name) (hbelow : ∀ name ∈ below, IsName name)
    (hroot : root = ofElements true names) (huri : Target.path uri = ofElements true below) :
    placeOf root uri = ofElements true (names ++ below) := by
  rw [placeOf, hroot, huri, join_ofElements true true hnames hbelow]

/-- The names behind those of a clean root are those that the name is read as. -/
theorem exists_placeOf_eq {root : Bytes} (hrooted : isRooted root = true)
    (hclean : clean root = root) (uri : Bytes) :
    ∃ below, (∀ name ∈ below, IsName name) ∧
      placeOf root uri = ofElements true (cleanElements root ++ below) := by
  obtain ⟨below, hbelow, huri⟩ := Target.exists_names_path uri
  refine ⟨below, hbelow, placeOf_eq (fun _ => isName_of_mem_cleanElements hrooted) hbelow ?_ huri⟩
  rw [← clean_of_isRooted hrooted, hclean]

/-- The path that is written to is the root or leads down from it. -/
theorem placeOf_leadsDown {root : Bytes} (hrooted : isRooted root = true)
    (hclean : clean root = root) (uri : Bytes) :
    placeOf root uri = root ∨ ∃ below, LeadsDown below ∧
      placeOf root uri = (if root = [separator] then [] else root) ++ separator :: below := by
  obtain ⟨below, hbelow, hplace⟩ := exists_placeOf_eq hrooted hclean uri
  have hroot : ofElements true (cleanElements root) = root := by
    rw [← clean_of_isRooted hrooted, hclean]
  have hslash : cleanElements root = [] ↔ root = [separator] := by
    constructor
    · intro hnil
      rw [← hroot, hnil]
      rfl
    · rintro rfl
      decide
  by_cases hne : below = []
  · exact .inl (by rw [hplace, hne, List.append_nil, hroot])
  · refine .inr ⟨List.intercalate [separator] below, ⟨below, hne, hbelow, rfl⟩, ?_⟩
    rw [hplace, ofElements_append hne, hroot]
    simp only [hslash]

/-- **No name leads out of the root.** The volume is asked for one name, which is that of the tree
itself or leads down from it. The path that is written to is the root or leads down from it, and a
place of the disk that a write changes is at the root or below it, or is a directory that was missing
on the way to the root. -/
theorem resolve_and_write_below_root (volume : Volume Storage) (accepts : Bytes → Bool) {root : Bytes}
    (hrooted : isRooted root = true) (hclean : clean root = root) (uri content : Bytes)
    (s : Storage) :
    (∃ name, (volume.recorded.resolve accepts uri (s, [])).2.2 = [name] ∧
      (name = here ∨ LeadsDown name)) ∧
    (placeOf root uri = root ∨ ∃ below, LeadsDown below ∧
      placeOf root uri = (if root = [separator] then [] else root) ++ separator :: below) ∧
    ∀ place,
      ((ofVolume root accepts volume).write uri content s).2.disk.node? place ≠ s.disk.node? place →
        cleanElements root <+: place ∨
          (place <+: cleanElements root ∧ s.disk.node? place = none ∧
            ((ofVolume root accepts volume).write uri content s).2.disk.node? place =
              some .directory) := by
  refine ⟨⟨Volume.nameOf (Target.path uri), ?_, Volume.nameOf_path_leadsDown uri⟩,
    placeOf_leadsDown hrooted hclean uri, fun place hchanged => ?_⟩
  · rw [Volume.snd_resolve]
    rfl
  · obtain ⟨below, hbelow, hplace⟩ := exists_placeOf_eq hrooted hclean uri
    have hnames : ∀ name ∈ cleanElements root, IsName name :=
      fun _ => isName_of_mem_cleanElements hrooted
    rw [write_ofVolume, hplace] at hchanged ⊢
    exact Disk.prefix_of_node?_write_ne hnames hbelow hchanged

/-- Escaped dots and slashes do not lead out of `/srv` either. -/
theorem resolve_and_write_below_root_climbing :
    isRooted (bytes "/srv") = true ∧ clean (bytes "/srv") = bytes "/srv" ∧
    Target.path (bytes "file:///%2e%2e/..%2Fetc//passwd") = bytes "/etc/passwd" ∧
    ∃ below, LeadsDown below ∧
      placeOf (bytes "/srv") (bytes "file:///%2e%2e/..%2Fetc//passwd") =
        bytes "/srv" ++ separator :: below := by
  have hrooted : isRooted (bytes "/srv") = true := by decide
  have hclean : clean (bytes "/srv") = bytes "/srv" := by decide
  refine ⟨hrooted, hclean, by decide +kernel, ?_⟩
  obtain ⟨-, hplace, -⟩ := resolve_and_write_below_root ⟨fun _ s => (.error .noProgress, s)⟩ isSource
    hrooted hclean (bytes "file:///%2e%2e/..%2Fetc//passwd") [] default
  rcases hplace with hroot | ⟨below, hbelow, hplace⟩
  · exact absurd hroot (by decide +kernel)
  · exact ⟨below, hbelow, by rw [hplace, if_neg (by decide)]⟩

end FileSystem

end Bracket
