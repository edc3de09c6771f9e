import Bracket.Output
import Bracket.Proofs.FileSystem.Confinement

/-!
# Where an output ends up

The last element of an output's path is handed to the file system of its directory, which reads it
as a reference. A name without a slash is read in one of three ways (`path_of_parse?_name`): not at
all, and then it stands for itself; with a scheme, and then nothing of it is left; or without query
and fragment and with its escapes replaced. Only a name in which no character has a meaning is left
as it is (`cleanElements_path_iff`).

`write_place_iff` says where an output that was written without a failure ends up, that nothing else
on the disk is touched, and exactly when it is the file that was asked for.
-/

namespace Bracket

open Bracket.Path

/-! ## Names read as references -/

namespace Reference

/-- The name has no character that begins an escape, a query or a fragment, or that ends a scheme. -/
def isPlain (name : Bytes) : Bool := !name.any isMark && !name.contains 0x3A

/-- A scheme is not empty and ends with a colon; without one all of the text is left. -/
theorem splitScheme_cases {text scheme rest : Bytes} (h : splitScheme text = some (scheme, rest)) :
    (scheme = [] ∧ rest = text) ∨ (scheme ≠ [] ∧ ∃ front, text = front ++ 0x3A :: rest) := by
  unfold splitScheme at h
  split at h
  · simp at h
  · next first behind _ =>
    dsimp only at h
    split at h
    · next rest' hdrop =>
      split at h
      · next hletter =>
        obtain ⟨rfl, rfl⟩ : _ = scheme ∧ rest' = rest := by simpa using h
        have hfirst : isSchemeByte first = true := by simp [isSchemeByte, hletter]
        refine .inr ⟨by simp [hfirst], (first :: behind).takeWhile isSchemeByte, ?_⟩
        rw [← hdrop, List.takeWhile_append_dropWhile]
      · exact .inl (by simpa [eq_comm] using h)
    · exact .inl (by simpa [eq_comm] using h)
  · exact .inl (by simpa [eq_comm] using h)

theorem mem_of_mem_upTo {separator b : UInt8} {text : Bytes} (h : b ∈ upTo separator text) :
    b ∈ text := (List.takeWhile_sublist _).mem h

/-- **A name without a slash, read as a reference**, either has a scheme and no path, or its path is
the name without query and fragment, and with its escapes replaced. -/
theorem path_of_parse?_name {name : Bytes} (hslash : 0x2F ∉ name) {reference : Reference}
    (h : parse? name = some reference) :
    (0x3A ∈ name ∧ reference.path = []) ∨
      (0x3A ∉ upTo 0x3F (upTo 0x23 name) ∧
        unescape (upTo 0x3F (upTo 0x23 name)) = some reference.path) := by
  have hbody := parseBody_of_parse? h
  have hnone : ∀ part : Bytes, (∀ b ∈ part, b ∈ name) → (part.head? != some 0x2F) = true := by
    intro part hpart
    simp only [bne_iff_ne, ne_eq]
    exact fun hhead => hslash (hpart _ (List.mem_of_head? hhead))
  unfold parseBody at hbody
  split at hbody
  · simp at hbody
  · split at hbody
    · next hstar =>
      obtain rfl : ⟨[], upTo 0x23 name⟩ = reference := by simpa using hbody
      rw [hstar]
      exact .inr (by decide)
    · rw [Option.bind_eq_bind, Option.bind_eq_some_iff] at hbody
      obtain ⟨⟨scheme, rest⟩, hsplit, hrest⟩ := hbody
      rcases splitScheme_cases hsplit with ⟨rfl, rfl⟩ | ⟨hscheme, front, htext⟩
      · have hpart := hnone (upTo 0x3F (upTo 0x23 name))
          fun b hb => mem_of_mem_upTo (mem_of_mem_upTo hb)
        have hall : upTo 0x2F (upTo 0x3F (upTo 0x23 name)) = upTo 0x3F (upTo 0x23 name) :=
          upTo_eq_self fun hb => hslash (mem_of_mem_upTo (mem_of_mem_upTo hb))
        dsimp only at hrest
        rw [parseRest, if_pos hpart, if_neg (by simp), hall] at hrest
        split at hrest
        · simp at hrest
        · next hcolon =>
          obtain ⟨path, hpath, rfl⟩ := Option.map_eq_some_iff.mp hrest
          exact .inr ⟨by simpa using hcolon, hpath⟩
      · have hmem : ∀ b ∈ 0x3A :: rest, b ∈ name := by
          intro b hb
          have hin : b ∈ upTo 0x23 name := htext ▸ List.mem_append_right front hb
          exact mem_of_mem_upTo hin
        have hpart := hnone (upTo 0x3F rest) fun b hb =>
          hmem b (List.mem_cons_of_mem _ (mem_of_mem_upTo hb))
        dsimp only at hrest
        rw [parseRest, if_pos hpart, if_pos hscheme] at hrest
        obtain rfl : ⟨scheme, []⟩ = reference := by simpa using hrest
        exact .inl ⟨hmem _ List.mem_cons_self, rfl⟩

/-- A plain name has no character with a meaning in references. -/
theorem isPlain_iff {name : Bytes} :
    isPlain name = true ↔ name.any isMark = false ∧ 0x3A ∉ name := by
  simp [isPlain]

/-- A plain name is read as it is, and any other name loses something. -/
theorem path_of_parse?_plain {name : Bytes} (hslash : 0x2F ∉ name) (hname : name ≠ [])
    {reference : Reference} (h : parse? name = some reference) :
    (isPlain name = true → reference.path = name) ∧
      (isPlain name = false → reference.path.length < name.length) := by
  rcases path_of_parse?_name hslash h with ⟨hcolon, hpath⟩ | ⟨hcolon, hpath⟩
  · refine ⟨fun hplain => absurd hcolon (isPlain_iff.mp hplain).2, fun _ => ?_⟩
    rw [hpath]
    exact List.length_pos_iff.mpr hname
  · refine ⟨fun hplain => ?_, fun hplain => ?_⟩
    · obtain ⟨hall, hescape⟩ := upTo_eq_self_of_unmarked (isPlain_iff.mp hplain).1
      rw [hall] at hpath
      exact (unescape_spec hpath).1 hescape
    · cases hmark : name.any isMark with
      | true => exact length_unescape_upTo_lt hmark hpath
      | false =>
        -- without a mark all of the name is read, and it has no colon
        rw [(upTo_eq_self_of_unmarked hmark).1] at hcolon
        rw [isPlain_iff.mpr ⟨hmark, hcolon⟩] at hplain
        simp at hplain

end Reference

/-! ## The path of a name -/

namespace Target

theorem rooted_of_isName {name : Bytes} (h : IsName name) : rooted name = ofElements true [name] := by
  have hone : ofElements true [name] = separator :: name := by
    simp [ofElements_rooted, List.intercalate_singleton]
  rw [rooted_eq, clean_cons_separator rfl, ← hone, clean_ofElements (by simpa using h)]

/-- Rooting a path adds one slash at most. -/
theorem length_rooted_le (path : Bytes) : (rooted path).length ≤ path.length + 1 := by
  rw [rooted_eq, clean_cons_separator rfl]
  exact length_clean_le rfl

/-- **A name stands for itself** if it cannot be read as a reference, or if no character in it has a
meaning there; and only then. -/
theorem cleanElements_path_iff {name : Bytes} (h : IsName name) :
    cleanElements (path name) = [name] ↔
      Reference.parse? name = none ∨ Reference.isPlain name = true := by
  have hself : cleanElements (rooted name) = [name] := by
    rw [rooted_of_isName h, cleanElements_ofElements (by simpa using h)]
  cases hread : Reference.parse? name with
  | none => simp [path, hread, hself]
  | some reference =>
    have hpath : path name = rooted reference.path := by simp only [path, hread]
    obtain ⟨hsame, hshorter⟩ :=
      Reference.path_of_parse?_plain h.separator_notMem h.ne_nil hread
    rw [hpath]
    cases hplain : Reference.isPlain name with
    | true => simp [hsame hplain, hself]
    | false =>
      refine iff_of_false (fun hnames => ?_) (by simp)
      -- the path would be as long as the name and its slash
      have hrooted : rooted reference.path = ofElements true [name] := by
        obtain ⟨names, hall, hrooted⟩ := exists_names_rooted reference.path
        rw [hrooted, cleanElements_ofElements hall] at hnames
        rw [hrooted, hnames]
      have hle := length_rooted_le reference.path
      rw [hrooted, ofElements_rooted, List.intercalate_singleton, List.length_cons] at hle
      have hlt := hshorter hplain
      omega

end Target

/-! ## The place of an output -/

namespace Output

/-- Where an output is written to: below the place of its directory, by the names that its last
element is read as. -/
def placeOf (workingDirectory output : Bytes) : List Bytes :=
  cleanElements (directory (absolute workingDirectory output)) ++
    cleanElements (Target.path (base (absolute workingDirectory output)))

/-- An absolute path is made of names. -/
theorem exists_names_absolute {workingDirectory : Bytes} (h : isRooted workingDirectory = true)
    (output : Bytes) :
    ∃ names, (∀ name ∈ names, IsName name) ∧
      absolute workingDirectory output = ofElements true names := by
  unfold absolute
  split
  · next hrooted =>
    exact ⟨_, fun _ => isName_of_mem_cleanElements hrooted, clean_of_isRooted hrooted⟩
  · obtain ⟨rest, rfl⟩ := eq_cons_of_isRooted h
    have hjoin : join [separator :: rest, output] =
        clean (separator :: rest ++ separator :: output) := by
      simp [join, List.intercalate_cons_cons, List.intercalate_singleton]
    rw [hjoin, clean_of_isRooted rfl]
    exact ⟨_, fun _ => isName_of_mem_cleanElements rfl, rfl⟩

/-- The file system of the directory writes to that place. -/
theorem placeOf_directory {workingDirectory : Bytes} (h : isRooted workingDirectory = true)
    (output : Bytes) :
    (∀ name ∈ placeOf workingDirectory output, IsName name) ∧
      FileSystem.placeOf (directory (absolute workingDirectory output))
        (base (absolute workingDirectory output)) =
          ofElements true (placeOf workingDirectory output) := by
  obtain ⟨names, hnames, habsolute⟩ := exists_names_absolute h output
  obtain ⟨above, -, habove, hdirectory⟩ := Disk.exists_names_directory hnames
  obtain ⟨below, hbelow, hpath⟩ := Target.exists_names_path (base (absolute workingDirectory output))
  have hplace : placeOf workingDirectory output = above ++ below := by
    rw [placeOf, hpath, habsolute, hdirectory, cleanElements_ofElements habove,
      cleanElements_ofElements hbelow]
  rw [hplace]
  refine ⟨List.forall_mem_append.mpr ⟨habove, hbelow⟩, ?_⟩
  exact FileSystem.placeOf_eq habove hbelow (by rw [habsolute, hdirectory]) hpath

/-- An output that is not printed is written to the disk at that place. -/
theorem write_eq {workingDirectory output : Bytes} (h : isRooted workingDirectory = true)
    (houtput : output ≠ printing) (content : Bytes) (s : Storage) :
    write workingDirectory output content s =
      ⟨[], (s.disk.write (ofElements true (placeOf workingDirectory output)) content).1,
        { s with
          disk := (s.disk.write (ofElements true (placeOf workingDirectory output)) content).2 }⟩ := by
  simp only [write, if_neg houtput, FileSystem.write_ofRoot, (placeOf_directory h output).2]

/-- The place is that of the output itself if its last element stands for itself. -/
theorem placeOf_eq_iff {names : List Bytes} {name workingDirectory output : Bytes}
    (hnames : ∀ name ∈ names, IsName name) (hname : IsName name)
    (h : absolute workingDirectory output = ofElements true (names ++ [name])) :
    placeOf workingDirectory output = names ++ [name] ↔
      Reference.parse? name = none ∨ Reference.isPlain name = true := by
  rw [placeOf, h, directory_ofElements hnames hname, base_ofElements names hname,
    cleanElements_ofElements hnames, List.append_cancel_left_eq, Target.cleanElements_path_iff hname]

/-- **Where an output ends up.** An output that is written without a failure is not printed. A file
with the content stands at its place, and every other place is kept but for directories that were
missing on the way. It is the file that was asked for if and only if the last element of its path
cannot be read as a reference, or has no character with a meaning there. -/
theorem write_place_iff {workingDirectory output content : Bytes} {s : Storage}
    (hrooted : isRooted workingDirectory = true) (houtput : output ≠ printing)
    (hok : (write workingDirectory output content s).failure? = none) :
    (write workingDirectory output content s).printed = [] ∧
    (write workingDirectory output content s).storage.disk.node? (placeOf workingDirectory output) =
      some (.file content) ∧
    (∀ other, other ≠ placeOf workingDirectory output →
      Disk.KeptAt s.disk (write workingDirectory output content s).storage.disk
        (placeOf workingDirectory output) other) ∧
    (placeOf workingDirectory output = cleanElements (absolute workingDirectory output) ↔
      Reference.parse? (base (absolute workingDirectory output)) = none ∨
        Reference.isPlain (base (absolute workingDirectory output)) = true) := by
  have hwrite := write_eq hrooted houtput content s
  obtain ⟨hkept, hwritten, -⟩ :=
    Disk.write_spec (placeOf_directory hrooted output).1 s.disk content
  rw [hwrite] at hok ⊢
  dsimp only at hok ⊢
  obtain ⟨hplace, hfile⟩ := hwritten hok
  refine ⟨rfl, hfile, hkept, ?_⟩
  obtain ⟨names, hnames, habsolute⟩ := exists_names_absolute hrooted output
  rcases List.eq_nil_or_concat names with rfl | ⟨above, name, rfl⟩
  · -- the root is a directory, and cannot have been written to
    refine absurd ?_ hplace
    rw [placeOf, habsolute]
    decide
  · rw [List.concat_eq_append] at hnames habsolute
    obtain ⟨habove, hlast⟩ := List.forall_mem_append.mp hnames
    have hname : IsName name := List.forall_mem_singleton.mp hlast
    rw [habsolute, cleanElements_ofElements hnames, base_ofElements above hname]
    exact placeOf_eq_iff habove hname habsolute

/-- The output `a%41` in `/w` ends up in the file `aA`, and `a+b` in the file of that name. -/
theorem write_place_iff_escaped :
    (write (bytes "/w") (bytes "a%41") (bytes "+") default).failure? = none ∧
    (write (bytes "/w") (bytes "a%41") (bytes "+") default).storage.disk.node?
      [bytes "w", bytes "aA"] = some (.file (bytes "+")) ∧
    placeOf (bytes "/w") (bytes "a%41") ≠ cleanElements (absolute (bytes "/w") (bytes "a%41")) ∧
    (write (bytes "/w") (bytes "a+b") (bytes "+") default).failure? = none ∧
    placeOf (bytes "/w") (bytes "a+b") = cleanElements (absolute (bytes "/w") (bytes "a+b")) := by
  have hescaped : (write (bytes "/w") (bytes "a%41") (bytes "+") default).failure? = none := by
    decide +kernel
  have hplain : (write (bytes "/w") (bytes "a+b") (bytes "+") default).failure? = none := by
    decide +kernel
  have hplace : placeOf (bytes "/w") (bytes "a%41") = [bytes "w", bytes "aA"] := by decide +kernel
  obtain ⟨-, hfile, -, hiff⟩ := write_place_iff (by decide) (by decide) hescaped
  obtain ⟨-, -, -, hiff'⟩ := write_place_iff (by decide) (by decide) hplain
  refine ⟨hescaped, hplace ▸ hfile, fun hsame => ?_, hplain, hiff'.mpr (by decide +kernel)⟩
  exact absurd (hiff.mp hsame) (by decide +kernel)

end Output

end Bracket
