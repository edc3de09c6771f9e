import Bracket.FileSystem.Local
import Bracket.Proofs.Path

/-!
# What writing does to a disk

Writing to a path makes the directories on the way to it, one after the other, and then puts a file
at its end. Each directory is looked for before it is made, and since all places on the way to it are
directories by then, it is made only where nothing stands (`node?_eq_none_of_find`). So no file is
lost on the way.

`write_spec` says what a write leaves behind. Every place but that of the path is kept: what stood
there still stands there, and the only new things are directories on the way (`KeptAt`). If there is
no failure, the file at the end holds the content.
-/

namespace Bracket.Disk

open Bracket.Path

/-! ## Looking at places -/

theorem node?_nil (d : Disk) : d.node? [] = some .directory := if_pos rfl

private theorem lookup_filter_ne {place other : List Bytes} (h : other ≠ place)
    (nodes : List (List Bytes × Node)) :
    List.lookup other (nodes.filter (·.1 ≠ place)) = List.lookup other nodes := by
  induction nodes with
  | nil => rfl
  | cons entry rest ih =>
    obtain ⟨p, node⟩ := entry
    by_cases hp : p = place
    · subst hp
      have hne : (other == p) = false := beq_eq_false_iff_ne.mpr h
      simp only [List.filter_cons, ne_eq, not_true_eq_false, decide_false, Bool.false_eq_true,
        if_false, List.lookup_cons, hne, ih]
    · simp only [List.filter_cons, ne_eq, hp, not_false_eq_true, decide_true, if_true,
        List.lookup_cons, ih]

/-- What was put at a place is found there. -/
theorem node?_put_self {place : List Bytes} (h : place ≠ []) (d : Disk) (node : Node) :
    (d.put place node).node? place = some node := by
  simp [node?, put, h]

theorem node?_put_of_ne {place other : List Bytes} (h : other ≠ place) (d : Disk) (node : Node) :
    (d.put place node).node? other = d.node? other := by
  have hne : (other == place) = false := by simpa using h
  unfold node? put
  rw [List.lookup_cons, hne, lookup_filter_ne h]

/-- What is found at the end of a path stands at its place. -/
theorem node?_of_follow {d : Disk} {place rest : List Bytes} {node : Node}
    (h : d.follow place rest = .ok node) : d.node? (place ++ rest) = some node := by
  induction rest generalizing place with
  | nil =>
    unfold follow at h
    split at h
    · next node' hnode => simpa [hnode] using h
    · simp at h
  | cons name rest ih =>
    unfold follow at h
    split at h
    · simp at h
    · simp at h
    · split at h
      · simp at h
      · simpa using ih h

/-- A path that is not there is broken off at some place on the way. -/
theorem exists_missing_of_follow {d : Disk} {place rest : List Bytes} {f : Failure}
    (h : d.follow place rest = .error f) (hf : f.hasClass .notExist = true) :
    ∃ way, way <+: rest ∧ d.node? (place ++ way) = none := by
  induction rest generalizing place with
  | nil =>
    unfold follow at h
    split at h
    · simp at h
    · next hnode => exact ⟨[], List.prefix_rfl, by simpa using hnode⟩
  | cons name rest ih =>
    unfold follow at h
    split at h
    · next hnode => exact ⟨[], List.nil_prefix, by simpa using hnode⟩
    · obtain rfl : notDirectory = f := by simpa using h
      exact absurd hf (by decide)
    · split at h
      · obtain rfl : tooLong = f := by simpa using h
        exact absurd hf (by decide)
      · obtain ⟨way, hway, hnone⟩ := ih h
        exact ⟨name :: way, by simpa using hway, by simpa using hnone⟩

/-- Whatever is found at a path stands at its clean elements. -/
theorem node?_of_find {d : Disk} {path : Bytes} {node : Node} (h : d.find path = .ok node) :
    d.node? (cleanElements path) = some node := by
  unfold find at h
  split at h
  · simp at h
  · split at h
    · simp at h
    · exact node?_of_follow h

/-- If nothing is found, some part of the way is missing. -/
theorem exists_missing_of_find {d : Disk} {path : Bytes} {f : Failure} (h : d.find path = .error f)
    (hf : f.hasClass .notExist = true) :
    ∃ way, way <+: cleanElements path ∧ d.node? way = none := by
  unfold find at h
  split at h
  · obtain rfl : invalid = f := by simpa using h
    exact absurd hf (by decide)
  · split at h
    · obtain rfl : tooLong = f := by simpa using h
      exact absurd hf (by decide)
    · exact exists_missing_of_follow h hf

/-! ## Making directories -/

/-- Directories stand all the way to a place, and at the place itself. -/
def LeadsTo (d : Disk) (place : List Bytes) : Prop :=
  ∀ way, way <+: place → d.node? way = some .directory

theorem leadsTo_nil (d : Disk) : d.LeadsTo [] := by
  intro way hway
  rw [List.prefix_nil.mp hway, node?_nil]

/-- A way that leads to a directory leads into the directories below it. -/
theorem LeadsTo.concat {d : Disk} {place : List Bytes} {name : Bytes} (h : d.LeadsTo place)
    (hnode : d.node? (place ++ [name]) = some .directory) : d.LeadsTo (place ++ [name]) := by
  intro way hway
  rcases List.prefix_concat_iff.mp hway with rfl | hway
  · exact hnode
  · exact h way hway

/-- If directories stand all the way to a place and a name below it is not found, nothing stands
there. -/
theorem node?_eq_none_of_find {d : Disk} {place : List Bytes} {name path : Bytes} {f : Failure}
    (h : d.LeadsTo place) (hpath : cleanElements path = place ++ [name])
    (hfind : d.find path = .error f) (hf : f.hasClass .notExist = true) :
    d.node? (place ++ [name]) = none := by
  obtain ⟨way, hway, hnone⟩ := exists_missing_of_find hfind hf
  rcases List.prefix_concat_iff.mp (hpath ▸ hway) with rfl | hway
  · exact hnone
  · rw [h way hway] at hnone
    simp at hnone

/-- What stands at a place is kept, unless nothing stood there and a directory was made on the given
way. -/
def KeptAt (d d' : Disk) (way other : List Bytes) : Prop :=
  d'.node? other = d.node? other ∨
    (d.node? other = none ∧ d'.node? other = some .directory ∧ other <+: way)

theorem keptAt_refl (d : Disk) (way other : List Bytes) : KeptAt d d way other := .inl rfl

theorem KeptAt.trans {d d' d'' : Disk} {way other : List Bytes} (h : KeptAt d d' way other)
    (h' : KeptAt d' d'' way other) : KeptAt d d'' way other := by
  rcases h with h | ⟨hnone, hmade, hway⟩
  · unfold KeptAt at h' ⊢
    rwa [h] at h'
  · -- a directory that was made is not made again
    rcases h' with h' | ⟨hnone', -⟩
    · exact .inr ⟨hnone, h'.trans hmade, hway⟩
    · rw [hmade] at hnone'
      simp at hnone'

/-- What is kept off a way is kept off every longer one. -/
theorem KeptAt.mono {d d' : Disk} {way longer other : List Bytes} (h : KeptAt d d' way other)
    (hlonger : way <+: longer) : KeptAt d d' longer other :=
  h.imp_right fun ⟨hnone, hmade, hway⟩ => ⟨hnone, hmade, hway.trans hlonger⟩

/-- A directory that is made where nothing stands. -/
theorem keptAt_put {d : Disk} {place : List Bytes} (h : d.node? place = none)
    (other : List Bytes) : KeptAt d (d.put place .directory) place other := by
  by_cases hother : other = place
  · subst hother
    have hne : other ≠ [] := by
      rintro rfl
      simp [node?_nil] at h
    exact .inr ⟨h, node?_put_self hne d _, List.prefix_rfl⟩
  · exact .inl (node?_put_of_ne hother d _)

/-- What is put directly below a place is not on the way to it. -/
theorem LeadsTo.put_below {d : Disk} {place : List Bytes} (h : d.LeadsTo place) (name : Bytes)
    (node : Node) : (d.put (place ++ [name]) node).LeadsTo place := by
  intro way hway
  have hne : way ≠ place ++ [name] := by
    rintro rfl
    have hle := hway.length_le
    rw [List.length_append, List.length_singleton] at hle
    omega
  rw [node?_put_of_ne hne, h way hway]

theorem LeadsTo.put {d : Disk} {place : List Bytes} {name : Bytes} (h : d.LeadsTo place) :
    (d.put (place ++ [name]) .directory).LeadsTo (place ++ [name]) :=
  (h.put_below name .directory).concat (node?_put_self (by simp) d _)

/-- A directory is called by its place, with or without a slash. -/
theorem cleanElements_directoryPath {place : List Bytes} (h : ∀ name ∈ place, IsName name)
    (rest : List Bytes) : cleanElements (directoryPath place rest) = place := by
  unfold directoryPath
  split
  · rw [List.append_nil, cleanElements_ofElements h]
  · rw [cleanElements_append_slash rfl, cleanElements_ofElements h]

/-- **Making directories** keeps everything, and without a failure they lead to the last of them. -/
theorem makeDirectories_spec {d : Disk} {place names : List Bytes} (hd : d.LeadsTo place)
    (hplace : ∀ name ∈ place, IsName name) (hnames : ∀ name ∈ names, IsName name) :
    (∀ other, KeptAt d (d.makeDirectories place names).2 (place ++ names) other) ∧
      ((d.makeDirectories place names).1 = none →
        (d.makeDirectories place names).2.LeadsTo (place ++ names)) := by
  induction names generalizing d place with
  | nil => exact ⟨keptAt_refl d _, fun _ => by simpa [makeDirectories] using hd⟩
  | cons name rest ih =>
    obtain ⟨hname, hrest⟩ := List.forall_mem_cons.mp hnames
    have hnext : ∀ n ∈ place ++ [name], IsName n :=
      List.forall_mem_append.mpr ⟨hplace, List.forall_mem_singleton.mpr hname⟩
    have hpath := cleanElements_directoryPath hnext rest
    have hassoc : place ++ name :: rest = (place ++ [name]) ++ rest := by simp
    unfold makeDirectories
    dsimp only
    split
    · -- it is there already
      next hfind =>
      have hnode : d.node? (place ++ [name]) = some .directory := hpath ▸ node?_of_find hfind
      rw [hassoc]
      exact ih (hd.concat hnode) hnext hrest
    · exact ⟨keptAt_refl d _, by simp⟩
    · next f hfind =>
      split
      · -- it is made, and the rest is made on the disk that has it
        next hf =>
        have hnone := node?_eq_none_of_find hd hpath hfind hf
        obtain ⟨hkept, hleads⟩ := ih hd.put hnext hrest
        rw [hassoc]
        refine ⟨fun other => ?_, hleads⟩
        exact ((keptAt_put hnone other).mono (List.prefix_append _ _)).trans (hkept other)
      · exact ⟨keptAt_refl d _, by simp⟩

/-! ## Writing files -/

/-- A file is put at the place of its path, which is not the root. -/
theorem writeFile_eq_ok {d d' : Disk} {path content : Bytes}
    (h : d.writeFile path content = .ok d') :
    cleanElements path ≠ [] ∧ d' = d.put (cleanElements path) (.file content) := by
  unfold writeFile at h
  dsimp only at h
  split at h
  · simp at h
  · next old hfind =>
    have hnode := node?_of_find hfind
    refine ⟨fun hroot => ?_, by simpa using h.symm⟩
    rw [hroot, node?_nil] at hnode
    simp at hnode
  · next f hfind =>
    split at h
    · next hf =>
      obtain ⟨way, hway, hnone⟩ := exists_missing_of_find hfind (Bool.and_eq_true_iff.mp hf).1
      refine ⟨fun hroot => ?_, by simpa using h.symm⟩
      rw [hroot] at hway
      rw [List.prefix_nil.mp hway, node?_nil] at hnone
      simp at hnone
    · simp at h

/-- The directory of a path has names that are on the way to it. -/
theorem exists_names_directory {names : List Bytes} (h : ∀ name ∈ names, IsName name) :
    ∃ above, above <+: names ∧ (∀ name ∈ above, IsName name) ∧
      directory (ofElements true names) = ofElements true above := by
  rcases List.eq_nil_or_concat names with rfl | ⟨above, name, rfl⟩
  · exact ⟨[], List.prefix_rfl, by simp, by decide⟩
  · rw [List.concat_eq_append] at h ⊢
    obtain ⟨habove, hname⟩ := List.forall_mem_append.mp h
    exact ⟨above, List.prefix_append _ _, habove,
      directory_ofElements habove (List.forall_mem_singleton.mp hname)⟩

/-- **What a write leaves behind.** Every place but that of the path is kept. Without a failure the
place is not the root, and a file with the content stands there; with one it is kept as well. -/
theorem write_spec {names : List Bytes} (h : ∀ name ∈ names, IsName name) (d : Disk)
    (content : Bytes) :
    (∀ other, other ≠ names → KeptAt d (d.write (ofElements true names) content).2 names other) ∧
    ((d.write (ofElements true names) content).1 = none →
      names ≠ [] ∧
        (d.write (ofElements true names) content).2.node? names = some (.file content)) ∧
    ((d.write (ofElements true names) content).1 ≠ none →
      KeptAt d (d.write (ofElements true names) content).2 names names) := by
  obtain ⟨above, hway, habove, hdirectory⟩ := exists_names_directory h
  obtain ⟨hkept, -⟩ := makeDirectories_spec (leadsTo_nil d) (by simp) habove
  rw [List.nil_append] at hkept
  have hmade : ∀ other, KeptAt d (d.makeDirectories [] above).2 names other :=
    fun other => (hkept other).mono hway
  unfold write
  dsimp only
  rw [hdirectory, cleanElements_ofElements habove]
  cases hdirs : d.makeDirectories [] above with
  | mk failure? d₁ =>
    rw [hdirs] at hmade
    cases failure? with
    | some f => exact ⟨fun other _ => hmade other, by simp, fun _ => hmade names⟩
    | none =>
      dsimp only at hmade ⊢
      cases hwrite : d₁.writeFile (ofElements true names) content with
      | error f => exact ⟨fun other _ => hmade other, by simp, fun _ => hmade names⟩
      | ok d₂ =>
        obtain ⟨hroot, rfl⟩ := writeFile_eq_ok hwrite
        rw [cleanElements_ofElements h] at hroot ⊢
        refine ⟨fun other hother => ?_, fun _ => ⟨hroot, node?_put_self hroot d₁ _⟩, by simp⟩
        refine (hmade other).trans (.inl ?_)
        exact node?_put_of_ne hother d₁ _

end Bracket.Disk
