import Bracket.Proofs.Compilation.Selection
import Bracket.Proofs.Compilation.Workshop
import Bracket.Proofs.FileSystem.Memory
import Bracket.Proofs.Grammar.Refusal

/-!
# Files of no known kind

A target that names a file directly has to name a source, and everything else that it may name is
reported. Files that a directory answers for are passed over if they are no sources. Whether a file
was named directly is told from its path: it is, if the path is the name that was asked for.

The path is what a file system makes of that name, and it need not be the same: escapes in it are
replaced once more, and what looks like a query or a fragment is cut off. `unsupported_reported_iff`
says what follows. The file is reported if and only if its path is the name; if it is not, nobody is
told that the target was passed over.
-/

namespace Bracket

/-- The report holds that a file of this name is of no known kind. -/
def Report.Refuses (report : Report) (uri : Bytes) : Prop :=
  ∃ d ∈ report.arrived, d.code = .unsupportedFormat ∧ d.location.uri = uri

namespace Compilation

variable {σ : Type} {fs : FileSystem σ} {s : σ}

/-! ## Opening targets -/

/-- The file system fails with diagnoses, which leave the kinds of files to others, and its files are
sources or of no known kind. -/
structure Ordinary (fs : FileSystem σ) (s : σ) : Prop where
  failure : ∀ uri f, (fs.resolve uri s).1 = .error f →
    ∃ d : Diagnosis, f = d.toFailure ∧ d.code ≠ .unsupportedFormat
  kind : ∀ uri files, (fs.resolve uri s).1 = .ok files →
    ∀ file ∈ files, file.kind = .none ∨ file.kind = .brainfuck

/-- The name stands for a file of no known kind that has this very path. -/
def Refused (fs : FileSystem σ) (s : σ) (uri : Bytes) : Prop :=
  ∃ files, (fs.resolve uri s).1 = .ok files ∧ ∃ file ∈ files, file.kind = .none ∧ file.path = uri

/-- What comes of a name: sources, and a report if it is refused. -/
theorem Ordinary.selection_spec (h : Ordinary fs s) (uri : Bytes) :
    ∃ files told, selection uri (fs.resolve uri s).1 = some (files, told) ∧
      (∀ file ∈ files, file.kind = .brainfuck) ∧
      ∀ d : Diagnosis, d.code = .unsupportedFormat →
        (d ∈ told ↔ d = unsupported uri ∧ Refused fs s uri) := by
  cases hanswer : (fs.resolve uri s).1 with
  | error f =>
    obtain ⟨d, rfl, hcode⟩ := h.failure uri f hanswer
    refine ⟨[], [d], by simp [selection, Diagnosis.tell?], by simp, fun d' hd' => ?_⟩
    have hne : d' ≠ d := fun hsame => hcode (hsame ▸ hd')
    simp [hne, Refused, hanswer]
  | ok files =>
    refine ⟨_, _, rfl, fun file hfile => ?_, fun d _ => ?_⟩
    · obtain ⟨hmem, hkind⟩ := List.mem_filter.mp hfile
      exact (h.kind uri files hanswer file hmem).resolve_left (by simpa using hkind)
    · simp [mem_refusals, Refused, hanswer]

/-- What comes of targets: sources, and a report of each that is refused. -/
theorem Ordinary.selections_spec (h : Ordinary fs s) (targets : List Bytes) :
    (∃ files, (selections fs s targets).1 = some files ∧ ∀ file ∈ files, file.kind = .brainfuck) ∧
      ∀ d : Diagnosis, d.code = .unsupportedFormat →
        (d ∈ (selections fs s targets).2 ↔ ∃ target ∈ targets,
          d = unsupported (Target.normalize target) ∧ Refused fs s (Target.normalize target)) := by
  induction targets with
  | nil => simp [selections]
  | cons target rest ih =>
    obtain ⟨⟨more, hmore, hkinds⟩, htold⟩ := ih
    obtain ⟨files, told, hselection, hfiles, hrefused⟩ := h.selection_spec (Target.normalize target)
    rw [selections, hselection]
    refine ⟨⟨files ++ more, by simp [hmore], List.forall_mem_append.mpr ⟨hfiles, hkinds⟩⟩, ?_⟩
    intro d hd
    simp [hrefused d hd, htold d hd]

/-! ## Work on sources -/

/-- A source is never reported for its kind. -/
theorem code_of_mem_told {file : File σ} (hkind : file.kind = .brainfuck) {s : σ} {d : Diagnosis}
    (h : d ∈ (examine file s).1.told) : d.code ≠ .unsupportedFormat := by
  rw [Verdict.mem_told, examine, if_pos hkind] at h
  dsimp only at h
  split at h
  · simp at h
  · next tokens _ =>
    unfold judge at h
    split at h
    · simp at h
    · next d' hparse =>
      obtain rfl := Verdict.diagnosed.inj h
      -- a source that can be read is diagnosed by the parser only
      obtain ⟨k, -, -, hcode⟩ := Grammar.parse_eq_error hparse
      show d'.code ≠ .unsupportedFormat
      rw [hcode]
      decide

/-- Work on sources does not change which files are reported for their kind. -/
theorem Workshop.mem_arrived_iff {files : List (File σ)} {p : Progress σ} {w : Workshop σ}
    (hsteps : Workshop.Steps (.start files p) w) (hkinds : ∀ file ∈ files, file.kind = .brainfuck)
    {d : Diagnosis} (hd : d.code = .unsupportedFormat) :
    d ∈ w.report.arrived ↔ d ∈ p.report.arrived := by
  have hsound := Sound.of_steps hsteps
  obtain ⟨told, harrived, htold⟩ := hsound.accounts.told
  -- what the workers have added comes from verdicts on sources
  have hother : d ∉ told := by
    intro hmem
    have hverdicts : d ∈ w.verdicts.flatMap (·.told) := by
      rw [← Multiset.mem_coe, ← htold]
      exact Multiset.mem_add.mpr (.inl hmem)
    obtain ⟨v, hv, hdv⟩ := List.mem_flatMap.mp hverdicts
    obtain ⟨x, hx, rfl⟩ := List.mem_map.mp hv
    exact code_of_mem_told (hkinds x.1 (hsound.ownership.examined x hx)) hdv hd
  simp [harrived, hother]

/-! ## The answer -/

/-- An answer holds a failure if anything was reported. -/
theorem isSome_failure?_answer {p : Progress σ} (h : p.report.arrived ≠ []) (results : List Result) :
    (answer results p).1.failure?.isSome := by
  unfold answer
  split
  · rfl
  · obtain ⟨d, ds, hlisted⟩ := List.exists_cons_of_ne_nil (mt Report.listed_eq_nil_iff.mp h)
    simp [Answer.failure?, hlisted]

/-- A worker adds to the report, and takes nothing away. -/
theorem exists_report_work (request : Request) (file : File σ) (taken : List Bytes)
    (p : Progress σ) : ∃ told, (work request file taken p).2.2.report = p.report.addAll told := by
  cases hcancelled : request.cancelled with
  | true => exact ⟨[], by simp [work, hcancelled]⟩
  | false =>
    by_cases htaken : file.path ∈ taken
    · exact ⟨[], by simp [work_of_taken hcancelled htaken]⟩
    · obtain ⟨p', hwork, -, hreport⟩ := work_of_free hcancelled htaken p
      exact ⟨_, by rw [hwork, hreport]⟩

/-- All of the work only adds to the report. -/
theorem exists_report_workAll (request : Request) (files : List (File σ)) (taken : List Bytes)
    (p : Progress σ) : ∃ told, (workAll request files taken p).2.report = p.report.addAll told := by
  induction files generalizing taken p with
  | nil => exact ⟨[], by simp [workAll]⟩
  | cons file rest ih =>
    obtain ⟨told, hfirst⟩ := exists_report_work request file taken p
    obtain ⟨more, hrest⟩ := ih (work request file taken p).2.1 (work request file taken p).2.2
    refine ⟨told ++ more, ?_⟩
    rw [hfirst] at hrest
    simpa [workAll, Report.addAll] using hrest

/-- The compilation of a request answers with a failure if anything was reported while its targets
were opened. -/
theorem exists_run_of_reported {request : Request} {files : List (File σ)} {p₀ p : Progress σ}
    (hselect : select fs request p₀ = (some files, p)) (h : p.report.arrived ≠ []) :
    ∃ a, (run fs request p₀).1 = some a ∧ a.failure?.isSome := by
  obtain ⟨told, hreport⟩ := exists_report_workAll request files [] p
  have hreported : (workAll request files [] p).2.report.arrived ≠ [] := by
    simp [hreport, h]
  exact ⟨_, by simp only [run, hselect],
    isSome_failure?_answer hreported (workAll request files [] p).1⟩

/-! ## What is refused -/

/-- **Reported for their kind are the targets that are refused**, and no others, from the moment the
targets are opened. -/
theorem Ordinary.refuses_iff {among : σ → Prop} (hfs : fs.Steady among) (hs : among s)
    (h : Ordinary fs s) (request : Request) (nonFatal : List Code) :
    ∃ files p, select fs request (.start s (.empty nonFatal)) = (some files, p) ∧
      ∀ w, Workshop.Steps (.start files p) w → ∀ target ∈ request.targets,
        (w.report.Refuses (Target.normalize target) ↔ Refused fs s (Target.normalize target)) := by
  obtain ⟨⟨opened, hopened, hkinds⟩, htold⟩ := h.selections_spec request.targets
  obtain ⟨hfiles, -, hreport⟩ := select_spec hfs hs request (p := .start s (.empty nonFatal)) hs
  rw [hopened, Option.map_some] at hfiles
  refine ⟨_, _, Prod.ext hfiles rfl, fun w hsteps target htarget => ?_⟩
  have hsources : ∀ file ∈ opened ++ inlineFiles request, file.kind = .brainfuck := by
    refine List.forall_mem_append.mpr ⟨hkinds, fun file hfile => ?_⟩
    obtain ⟨⟨name, content⟩, -, rfl⟩ := List.mem_map.mp hfile
    rfl
  -- workers are given sources only, so none of them adds such a diagnosis
  have harrived : ∀ d : Diagnosis, d.code = .unsupportedFormat →
      (d ∈ w.report.arrived ↔ d ∈ (selections fs s request.targets).2) := by
    intro d hd
    rw [Workshop.mem_arrived_iff hsteps hsources hd, hreport]
    simp [Progress.start, Report.empty]
  constructor
  · rintro ⟨d, hd, hcode, huri⟩
    obtain ⟨target', -, rfl, hrefused⟩ := (htold d hcode).mp ((harrived d hcode).mp hd)
    exact huri ▸ hrefused
  · intro hrefused
    refine ⟨unsupported (Target.normalize target), (harrived _ rfl).mpr ?_, rfl, rfl⟩
    exact (htold _ rfl).mpr ⟨target, htarget, rfl, hrefused⟩

end Compilation

/-! ## Tables of names -/

namespace FileSystem

variable (root : Bytes) (accepts : Bytes → Bool) (number : Nat) (m : Memory)

/-- A table without trouble always gives the same answers. -/
theorem steady_ofTable : (ofTable root accepts number m).Steady fun _ => True where
  stays _ _ _ := trivial
  same uri s t _ _ := by
    show ((Volume.ofMemory number m []).resolve accepts uri s).1 =
      ((Volume.ofMemory number m []).resolve accepts uri t).1
    rw [Volume.fst_resolve, Volume.fst_resolve, Memory.look_ofMemory, Memory.look_ofMemory]
  files uri s files _ h file hfile := by
    obtain ⟨path, name, rfl⟩ := Volume.exists_eq_file h file hfile
    refine ⟨fun _ _ => trivial, fun s t _ _ => ?_⟩
    simp only [Volume.file, Memory.look_ofMemory]

/-- A table of files in memory is an ordinary file system. -/
theorem ordinary_ofTable (s : Storage) : Compilation.Ordinary (ofTable root accepts number m) s where
  failure _ _ h := Memory.resolve_eq_error h
  kind uri files h file hfile := by
    obtain ⟨path, name, rfl⟩ := Volume.exists_eq_file h file hfile
    show Target.kindOf name = .none ∨ Target.kindOf name = .brainfuck
    unfold Target.kindOf
    dsimp only
    split
    · exact .inr rfl
    · exact .inl rfl

end FileSystem

namespace Memory

open Bracket.Path

variable {m : Memory} {uri : Bytes} {root : Bytes} {accepts : Bytes → Bool} {number : Nat}

/-- A file of no known kind is refused if its path is the name that was asked for. -/
theorem HasFile.refused_iff (h : m.HasFile uri)
    (hkind : Target.kindOf (Volume.nameOf (Target.path uri)) = .none) (s : Storage) :
    Compilation.Refused (.ofTable root accepts number m) s uri ↔ Target.path uri = uri := by
  have hresolve : ((FileSystem.ofTable root accepts number m).resolve uri s).1 = _ := h.resolve s
  simp [Compilation.Refused, hresolve, Volume.file, hkind]

/-- A directory is refused if one of its entries, which is of no known kind, has the path that was
asked for. -/
theorem HasDirectory.refused_iff (h : m.HasDirectory uri) (hm : m.WellNamed) (s : Storage) :
    Compilation.Refused (.ofTable root accepts number m) s uri ↔
      ∃ entry ∈ m.entries (Volume.nameOf (Target.path uri)),
        entry.isDirectory = false ∧ accepts entry.name = true ∧
          Target.kindOf entry.name = .none ∧ join [Target.path uri, entry.name] = uri := by
  constructor
  · rintro ⟨files, hfiles, file, hfile, hkind, hpath⟩
    obtain ⟨entry, hentry, hplain, haccepted, rfl⟩ :=
      (h.exists_mem_resolve_iff s).mp ⟨files, hfiles, hfile⟩
    obtain ⟨hpath', hkind'⟩ := Volume.entryFile_spec (Volume.ofMemory number m []) uri
      (hm.isName_of_mem_entries hentry hplain)
    exact ⟨entry, hentry, hplain, haccepted, hkind'.symm.trans hkind, hpath'.symm.trans hpath⟩
  · rintro ⟨entry, hentry, hplain, haccepted, hkind, hpath⟩
    obtain ⟨hpath', hkind'⟩ := Volume.entryFile_spec (Volume.ofMemory number m []) uri
      (hm.isName_of_mem_entries hentry hplain)
    obtain ⟨files, hfiles, hfile⟩ :=
      (h.exists_mem_resolve_iff s).mpr ⟨entry, hentry, hplain, haccepted, rfl⟩
    exact ⟨files, hfiles, _, hfile, hkind'.trans hkind, hpath'.trans hpath⟩

end Memory

namespace Compilation

/-- **Which targets are reported to be of no known kind.** Whatever a request asks for, what is
selected for it is known, and the following holds from then on until all workers are done.

A file of no known kind is reported if and only if its path is the name under which it was asked for,
and then the answer holds a failure. A directory, where all names of the table can be asked for, is
reported if and only if one of the entries that pass the filter is of no known kind and has the path
that was asked for. That cannot happen if the path of the directory itself is that name. -/
theorem unsupported_reported_iff (root : Bytes) (accepts : Bytes → Bool) (number : Nat) (m : Memory)
    (request : Request) (storage : Storage) (nonFatal : List Code) :
    ∃ files p,
      select (.ofTable root accepts number m) request (.start storage (.empty nonFatal)) =
        (some files, p) ∧
      ∀ uri ∈ request.targets.map Target.normalize,
        (m.HasFile uri → Target.kindOf (Volume.nameOf (Target.path uri)) = .none →
          (∀ w, Workshop.Steps (.start files p) w →
            (w.report.Refuses uri ↔ Target.path uri = uri)) ∧
          (Target.path uri = uri →
            (∀ w, Workshop.Steps (.start files p) w → w.Done → w.answer.failure?.isSome) ∧
            ∃ a, (run (.ofTable root accepts number m) request
              (.start storage (.empty nonFatal))).1 = some a ∧ a.failure?.isSome)) ∧
        (m.HasDirectory uri → m.WellNamed →
          ∀ w, Workshop.Steps (.start files p) w →
            (w.report.Refuses uri ↔ ∃ entry ∈ m.entries (Volume.nameOf (Target.path uri)),
              entry.isDirectory = false ∧ accepts entry.name = true ∧
                Target.kindOf entry.name = .none ∧ Path.join [Target.path uri, entry.name] = uri) ∧
            (Target.path uri = uri → ¬ w.report.Refuses uri)) := by
  obtain ⟨files, p, hselect, hrefuses⟩ :=
    (FileSystem.ordinary_ofTable root accepts number m storage).refuses_iff
      (FileSystem.steady_ofTable root accepts number m) trivial request nonFatal
  refine ⟨files, p, hselect, fun uri huri => ?_⟩
  obtain ⟨target, htarget, rfl⟩ := List.mem_map.mp huri
  refine ⟨fun hfile hkind => ?_, fun hdirectory hm w hsteps => ?_⟩
  · have hiff : ∀ w, Workshop.Steps (.start files p) w →
        (w.report.Refuses (Target.normalize target) ↔
          Target.path (Target.normalize target) = Target.normalize target) := by
      intro w hsteps
      rw [hrefuses w hsteps target htarget, hfile.refused_iff hkind]
    have hreported : Target.path (Target.normalize target) = Target.normalize target →
        ∀ w, Workshop.Steps (.start files p) w → w.report.arrived ≠ [] := by
      intro hpath w hsteps
      obtain ⟨d, hd, -⟩ := (hiff w hsteps).mpr hpath
      exact List.ne_nil_of_mem hd
    refine ⟨hiff, fun hpath => ⟨fun w hsteps _ => ?_, ?_⟩⟩
    · exact isSome_failure?_answer (p := .start w.storage w.report) (hreported hpath w hsteps) _
    · exact exists_run_of_reported hselect (hreported hpath _ .refl)
  · have hiff := (hrefuses w hsteps target htarget).trans (hdirectory.refused_iff hm storage)
    refine ⟨hiff, fun hpath hrefused => ?_⟩
    -- an entry of a directory never has the path of the directory
    obtain ⟨entry, hentry, hentryFile, -, -, hjoin⟩ := hiff.mp hrefused
    exact Target.join_path_ne (hm.isName_of_mem_entries hentry hentryFile) (hjoin.trans hpath.symm)

/-- A table with one file, which is no source. -/
def notes : Memory := ⟨[(bytes "notes.txt", .file (bytes "+"))]⟩

/-- The file `notes.txt` is reported if it is asked for by its name, and passed over if the full stop
in its name is escaped. -/
theorem unsupported_reported_iff_escaped :
    ∃ files p,
      select (.ofTable (bytes "/") FileSystem.isSource 0 notes)
        ⟨[bytes "/notes.txt", bytes "/notes%2Etxt"], [], false, false, false⟩
        (.start default (.empty [])) = (some files, p) ∧
      notes.HasFile (bytes "/notes.txt") ∧ notes.HasFile (bytes "/notes%2Etxt") ∧
      ∀ w, Workshop.Steps (.start files p) w →
        w.report.Refuses (bytes "/notes.txt") ∧ ¬ w.report.Refuses (bytes "/notes%2Etxt") := by
  have hlook : notes.look (bytes "notes.txt") = .ok (.ofFile (.ofContent (bytes "+"))) := by
    have hname : isVolumeName (bytes "notes.txt") = true := by decide +kernel
    simp [Memory.look, hname, notes]
  have hnames : Volume.nameOf (Target.path (bytes "/notes.txt")) = bytes "notes.txt" ∧
      Volume.nameOf (Target.path (bytes "/notes%2Etxt")) = bytes "notes.txt" := by
    decide +kernel
  have hkind : Target.kindOf (bytes "notes.txt") = .none := by decide +kernel
  have hfile : notes.HasFile (bytes "/notes.txt") := ⟨_, hnames.1 ▸ hlook⟩
  have hfile' : notes.HasFile (bytes "/notes%2Etxt") := ⟨_, hnames.2 ▸ hlook⟩
  obtain ⟨files, p, hselect, hreported⟩ := unsupported_reported_iff (bytes "/") FileSystem.isSource 0
    notes ⟨[bytes "/notes.txt", bytes "/notes%2Etxt"], [], false, false, false⟩ default []
  refine ⟨files, p, hselect, hfile, hfile', fun w hsteps => ⟨?_, ?_⟩⟩
  · have hiff := ((hreported (bytes "/notes.txt") (by decide +kernel)).1 hfile
      (hnames.1 ▸ hkind)).1 w hsteps
    exact hiff.mpr (by decide +kernel)
  · have hiff := ((hreported (bytes "/notes%2Etxt") (by decide +kernel)).1 hfile'
      (hnames.2 ▸ hkind)).1 w hsteps
    exact fun hrefuses => absurd (hiff.mp hrefuses) (by decide +kernel)

end Compilation

end Bracket
