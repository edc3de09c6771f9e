import Bracket.Proofs.Compilation.Workshop
import Bracket.Proofs.RoundTrip

/-!
# Schedules

The answer of a compilation does not depend on the schedule of its workers. Two things have to be
excluded, and `Consistent` excludes them: that files of the same path differ, since any of them may
be the one that is examined, and that opening other files changes what a file has to say.

The argument does not move steps past each other. The answer is a function of the verdicts in any
order (`Sound.answer_eq_finished`), and the verdicts of any two runs are the same up to their order
(`verdicts_perm`), because each of them is the verdict on a path.
-/

namespace Bracket

namespace Compilation

variable {σ : Type}

/-- The state of the file system after files were examined, last first. -/
def visit (s : σ) : List (File σ) → σ
  | [] => s
  | file :: earlier => (examine file (visit s earlier)).2

/-- Files of the same path are of the same kind and have the same body, and so has a file that is
opened behind files of other paths. -/
structure Consistent (files : List (File σ)) (s : σ) : Prop where
  kind : ∀ f ∈ files, ∀ g ∈ files, f.path = g.path → f.kind = g.kind
  body : ∀ f ∈ files, ∀ g ∈ files, f.path = g.path → ∀ others : List (File σ),
    (∀ o ∈ others, o ∈ files ∧ o.path ≠ f.path) → (f.body (visit s others)).1 = (g.body s).1

/-- The verdict on a file follows from its path, its kind and its body. -/
theorem examine_congr {f g : File σ} {s t : σ} (hpath : f.path = g.path) (hkind : f.kind = g.kind)
    (hbody : (f.body s).1 = (g.body t).1) : (examine f s).1 = (examine g t).1 := by
  have hread : readFile f s = readFile g t := by simp only [readFile, hbody]
  unfold examine
  rw [hpath, hkind, hread]
  split <;> rfl

/-- What comes of a path does not depend on which of its files is examined, or on which other paths
were visited before. -/
theorem Consistent.examine_eq {files : List (File σ)} {s : σ} (h : Consistent files s)
    {f g : File σ} (hf : f ∈ files) (hg : g ∈ files) (hpath : f.path = g.path)
    {others : List (File σ)} (hothers : ∀ o ∈ others, o ∈ files ∧ o.path ≠ f.path) :
    (examine f (visit s others)).1 = (examine g s).1 :=
  examine_congr hpath (h.kind f hf g hg hpath) (h.body f hf g hg hpath others hothers)

/-- The verdict on the first file of a path. -/
def verdictOn (files : List (File σ)) (s : σ) (path : Bytes) : Option Verdict :=
  (files.find? fun file => file.path = path).map fun file => (examine file s).1

/-- So there is one verdict on every path. -/
theorem Consistent.verdictOn_eq {files : List (File σ)} {s : σ} (h : Consistent files s)
    {file : File σ} (hfile : file ∈ files) :
    verdictOn files s file.path = some (examine file s).1 := by
  obtain ⟨first, hfirst⟩ : ∃ first, files.find? (fun f => f.path = file.path) = some first := by
    rw [← Option.isSome_iff_exists, List.find?_isSome]
    exact ⟨file, hfile, by simp⟩
  have hpath : first.path = file.path := by simpa using List.find?_some hfirst
  have hnone : ∀ o ∈ ([] : List (File σ)), o ∈ files ∧ o.path ≠ first.path := by simp
  have hsame : (examine first s).1 = (examine file s).1 :=
    h.examine_eq (List.mem_of_find?_eq_some hfirst) hfile hpath hnone
  rw [verdictOn, hfirst, Option.map_some, hsame]

namespace Workshop

/-- The storage is what the visits so far have made of it. -/
theorem Trail.eq_visit {s₀ s : σ} {history : List (File σ × σ)} (h : Trail s₀ history s) :
    s = visit s₀ (history.map (·.1)) := by
  induction history generalizing s with
  | nil => exact h
  | cons x earlier ih =>
    obtain ⟨rfl, hearlier⟩ := h
    rw [List.map_cons, visit, ← ih hearlier]

/-- The verdicts of a history are those on its paths before anything was opened. -/
theorem Trail.examine_eq {files : List (File σ)} {s₀ s : σ} {history : List (File σ × σ)}
    (h : Trail s₀ history s) (hconsistent : Consistent files s₀)
    (hfiles : ∀ x ∈ history, x.1 ∈ files) (hnodup : (history.map (·.1.path)).Nodup) :
    ∀ x ∈ history, ∀ g ∈ files, x.1.path = g.path →
      (Compilation.examine x.1 x.2).1 = (Compilation.examine g s₀).1 := by
  induction history generalizing s with
  | nil => simp
  | cons y earlier ih =>
    rw [List.map_cons, List.nodup_cons] at hnodup
    have hearlier : ∀ x ∈ earlier, x.1 ∈ files := fun x hx => hfiles x (List.mem_cons_of_mem _ hx)
    intro x hx g hg hpath
    rcases List.mem_cons.mp hx with rfl | hx
    · -- it was opened behind the earlier files, none of which has its path
      rw [h.2.eq_visit]
      refine hconsistent.examine_eq (hfiles x List.mem_cons_self) hg hpath ?_
      intro o ho
      obtain ⟨z, hz, rfl⟩ := List.mem_map.mp ho
      refine ⟨hearlier z hz, fun hsame => hnodup.1 ?_⟩
      exact List.mem_map.mpr ⟨z, hz, hsame⟩
    · exact ih h.2 hearlier hnodup.2 x hx g hg hpath

variable {files : List (File σ)} {p : Progress σ} {w w' : Workshop σ}

/-- Whoever owned a path came to the verdict that any of its files would have had at the start. -/
theorem Sound.examine_eq (h : w.Sound files p) (hdone : w.Done)
    (hconsistent : Consistent files p.storage) {x : File σ × σ} (hx : x ∈ w.history) {g : File σ}
    (hg : g ∈ files) (hpath : x.1.path = g.path) :
    (Compilation.examine x.1 x.2).1 = (Compilation.examine g p.storage).1 :=
  h.trail.examine_eq hconsistent h.ownership.examined (h.nodup_history hdone) x hx g hg hpath

/-- The verdicts are those on the files before anything was opened. -/
theorem Sound.mem_verdicts_iff (h : w.Sound files p) (hdone : w.Done)
    (hconsistent : Consistent files p.storage) {v : Verdict} :
    v ∈ w.verdicts ↔ ∃ file ∈ files, (Compilation.examine file p.storage).1 = v := by
  constructor
  · intro hv
    obtain ⟨x, hx, rfl⟩ := List.mem_map.mp hv
    exact ⟨x.1, h.ownership.examined x hx,
      (h.examine_eq hdone hconsistent hx (h.ownership.examined x hx) rfl).symm⟩
  · rintro ⟨file, hfile, rfl⟩
    obtain ⟨x, hx, hpath⟩ := h.exists_mem_history hdone hfile
    exact List.mem_map.mpr ⟨x, hx, h.examine_eq hdone hconsistent hx hfile hpath⟩

/-- The paths that were examined are those of the files. -/
theorem Sound.mem_paths_iff (h : w.Sound files p) (hdone : w.Done) {path : Bytes} :
    path ∈ w.history.map (·.1.path) ↔ ∃ file ∈ files, file.path = path := by
  rw [List.mem_map]
  constructor
  · rintro ⟨x, hx, rfl⟩
    exact ⟨x.1, h.ownership.examined x hx, rfl⟩
  · rintro ⟨file, hfile, rfl⟩
    exact h.exists_mem_history hdone hfile

/-- The verdicts of a run are the verdicts on its paths. -/
theorem Sound.verdicts_eq (h : w.Sound files p) (hdone : w.Done)
    (hconsistent : Consistent files p.storage) :
    w.verdicts = (w.history.map (·.1.path)).filterMap (verdictOn files p.storage) := by
  rw [List.filterMap_map, verdicts, ← List.filterMap_eq_map]
  refine List.filterMap_congr fun x hx => ?_
  have hfile := h.ownership.examined x hx
  rw [Function.comp_apply, Function.comp_apply, hconsistent.verdictOn_eq hfile,
    h.examine_eq hdone hconsistent hx hfile rfl]

/-- **Any two runs come to the same verdicts**, up to their order. -/
theorem verdicts_perm (h : w.Sound files p) (hdone : w.Done) (h' : w'.Sound files p)
    (hdone' : w'.Done) (hconsistent : Consistent files p.storage) :
    w.verdicts.Perm w'.verdicts := by
  have hpaths : (w.history.map (·.1.path)).Perm (w'.history.map (·.1.path)) := by
    rw [List.perm_ext_iff_of_nodup (h.nodup_history hdone) (h'.nodup_history hdone')]
    intro path
    rw [h.mem_paths_iff hdone, h'.mem_paths_iff hdone']
  rw [h.verdicts_eq hdone hconsistent, h'.verdicts_eq hdone' hconsistent]
  exact hpaths.filterMap _

/-- The answer to results takes nothing but the report from what came before. -/
theorem answer_congr {results : List Result} {p p' : Progress σ} (h : p.report = p'.report) :
    (Compilation.answer results p).1 = (Compilation.answer results p').1 := by
  unfold Compilation.answer
  split
  · rfl
  · simp [h]

/-- A compilation gives the answer of one of the schedules. -/
theorem exists_run_eq {fs : FileSystem σ} {request : Request} {p₀ : Progress σ}
    (hcancelled : request.cancelled = false) (hselect : select fs request p₀ = (some files, p)) :
    ∃ w, Steps (start files p) w ∧ w.Done ∧ (run fs request p₀).1 = some w.answer := by
  obtain ⟨w, hsteps, hdone, hreport, harrived⟩ := exists_steps_workAll hcancelled files [] p [] []
  refine ⟨w, hsteps, hdone, ?_⟩
  have hanswer : (Compilation.answer w.arrived (.start w.storage w.report)).1 =
      (Compilation.answer w.arrived (workAll request files [] p).2).1 := answer_congr hreport
  rw [answer, hanswer, harrived, List.nil_append]
  simp only [run, hselect]

end Workshop

/-! ## Files that behave

Where opening a file changes nothing, it is enough that files of the same path are alike. Sources
that hold bytes are such files, and can always be read.
-/

/-- Files whose bodies leave the storage as it is can be visited without a trace. -/
theorem visit_eq_self {s : σ} {others : List (File σ)} (h : ∀ o ∈ others, (o.body s).2 = s) :
    visit s others = s := by
  induction others with
  | nil => rfl
  | cons file earlier ih =>
    rw [visit, ih fun o ho => h o (List.mem_cons_of_mem _ ho), examine]
    split
    · exact h file List.mem_cons_self
    · rfl

/-- If opening changes nothing, files are consistent as soon as those of the same path are alike. -/
theorem Consistent.of_unchanged {files : List (File σ)} {s : σ}
    (hkind : ∀ f ∈ files, ∀ g ∈ files, f.path = g.path → f.kind = g.kind)
    (hbody : ∀ f ∈ files, ∀ g ∈ files, f.path = g.path → (f.body s).1 = (g.body s).1)
    (hunchanged : ∀ f ∈ files, (f.body s).2 = s) : Consistent files s where
  kind := hkind
  body f hf g hg hpath others hothers := by
    rw [visit_eq_self fun o ho => hunchanged o (hothers o ho).1]
    exact hbody f hf g hg hpath

/-- Sources that hold bytes are consistent if their path determines the bytes. -/
theorem consistent_ofContent (content : Bytes → Bytes) {files : List (File σ)}
    (h : ∀ file ∈ files, file = .ofContent file.path .brainfuck (content file.path)) (s : σ) :
    Consistent files s := by
  have hbody : ∀ file ∈ files, file.body s =
      (.ok (.ofDevice file.path (.ofContent (content file.path))), s) := by
    intro file hfile
    rw [h file hfile]
    rfl
  refine .of_unchanged ?_ ?_ ?_
  · intro f hf g hg _
    rw [h f hf, h g hg]
    rfl
  · intro f hf g hg hpath
    rw [hbody f hf, hbody g hg, hpath]
  · intro f hf
    rw [hbody f hf]

/-- A text that is at hand can always be read, so nothing stops its compilation. -/
theorem passes_ofContent (content : Bytes → Bytes) {files : List (File σ)}
    (h : ∀ file ∈ files, file = .ofContent file.path .brainfuck (content file.path))
    (nonFatal : List Code) (s : σ) :
    ∀ file ∈ files, ((examine file s).1.result nonFatal).Passes := by
  intro file hfile
  rw [Verdict.passes_result]
  intro f hf
  have hread := (examine_eq_unread_iff.mp hf).2
  rw [h file hfile, readFile_ofContent] at hread
  simp at hread

/-! ## The answer -/

/-- **The answer does not depend on the schedule.** Files of one path are alike, and no worker fails
without a diagnosis. Then all schedules come to an end with the same answer, and it is the answer of
the compilation. The image has one module for each path whose file is parsed, in ascending order of
their names. Reported is, in listing order, what was reported while targets were opened, and at most
one diagnosis for each path, which is that of its worker. -/
theorem answer_independent_of_schedule {fs : FileSystem σ} {request : Request} {storage : σ}
    {nonFatal : List Code} {files : List (File σ)} {p : Progress σ}
    (hcancelled : request.cancelled = false)
    (hselect : select fs request (.start storage (.empty nonFatal)) = (some files, p))
    (hconsistent : Consistent files p.storage)
    (hpasses : ∀ file ∈ files, ((examine file p.storage).1.result nonFatal).Passes) :
    ∃ (image : Image) (told : List Diagnosis),
      (∀ w, Workshop.Steps (.start files p) w → w.Done →
        w.answer = .finished image (p.report.addAll told).listed) ∧
      (∀ w, Workshop.Steps (.start files p) w → ∃ w', Workshop.Steps w w' ∧ w'.Done) ∧
      (run fs request (.start storage (.empty nonFatal))).1 =
        some (.finished image (p.report.addAll told).listed) ∧
      image.modules.Pairwise (fun a b => a.uri < b.uri) ∧
      (∀ m, m ∈ image.modules ↔ ∃ file ∈ files, file.kind = .brainfuck ∧ m.uri = file.path ∧
        ∃ tokens, readFile file p.storage = .ok tokens ∧
          Grammar.parse (tokens.map (·.symbol)) = .ok m.program) ∧
      (∀ d, d ∈ told ↔ ∃ file ∈ files, d.location.uri = file.path ∧
        (examine file p.storage).1 = .diagnosed d) ∧
      (told.map (·.location.uri)).Nodup := by
  -- the schedule of the compilation itself gives the answer, and all others are compared with it
  obtain ⟨w₀, hsteps₀, hdone₀, hrun⟩ := Workshop.exists_run_eq hcancelled hselect
  have hsound₀ := Workshop.Sound.of_steps hsteps₀
  refine ⟨imageOf (w₀.verdicts.flatMap Verdict.modules), w₀.verdicts.flatMap (·.told), ?_⟩
  have hpass : ∀ w : Workshop σ, w.Sound files p → w.Done → Workshop.AllPass w.verdicts := by
    intro w hsound hdone v hv
    obtain ⟨file, hfile, rfl⟩ := (hsound.mem_verdicts_iff hdone hconsistent).mp hv
    exact Verdict.passes_result.mp (hpasses file hfile)
  have hanswer : ∀ w, Workshop.Steps (.start files p) w → w.Done →
      w.answer = .finished (imageOf (w₀.verdicts.flatMap Verdict.modules))
        (p.report.addAll (w₀.verdicts.flatMap (·.told))).listed := by
    intro w hsteps hdone
    have hsound := Workshop.Sound.of_steps hsteps
    have hperm := Workshop.verdicts_perm hsound hdone hsound₀ hdone₀ hconsistent
    rw [hsound.answer_eq_finished hdone (hpass w hsound hdone)]
    congr 1
    · exact imageOf_perm (hperm.flatMap_right _) (hsound.nodup_modules hdone)
    · exact Report.listed_perm rfl rfl (hperm.flatMap_right _) (hsound.nodup_told hdone)
  refine ⟨hanswer, fun w _ => w.exists_done, ?_, pairwise_imageOf _, ?_, ?_, hsound₀.nodup_told hdone₀⟩
  · rw [hrun, hanswer w₀ hsteps₀ hdone₀]
  · intro m
    rw [mem_imageOf (hsound₀.nodup_modules hdone₀)]
    simp only [List.mem_flatMap, Verdict.mem_modules, exists_eq_right,
      hsound₀.mem_verdicts_iff hdone₀ hconsistent, examine_eq_parsed_iff]
  · intro d
    simp only [List.mem_flatMap, Verdict.mem_told, exists_eq_right,
      hsound₀.mem_verdicts_iff hdone₀ hconsistent]
    constructor
    · rintro ⟨file, hfile, hd⟩
      exact ⟨file, hfile, (examine_uri file p.storage).2 d (Verdict.mem_told.mpr hd), hd⟩
    · rintro ⟨file, hfile, -, hd⟩
      exact ⟨file, hfile, hd⟩

/-- Answers for every name with one source, which holds its own name. -/
def echo : FileSystem Unit where
  resolve uri s := (.ok [.ofContent uri .brainfuck uri], s)
  write _ _ s := (none, s)

/-- Targets `/+` and `/[` are asked for twice each, and hold their own names: the one is parsed, the
other is not. -/
theorem answer_independent_of_schedule_repeated :
    ∃ (files : List (File Unit)) (p : Progress Unit) (image : Image) (reported : List Diagnosis),
      select echo ⟨[[0x2F, 0x2B], [0x2F, 0x5B], [0x2F, 0x2B], [0x2F, 0x5B]], [], false, false, false⟩
        (.start () (.empty [])) = (some files, p) ∧
      (∀ w, Workshop.Steps (.start files p) w → w.Done → w.answer = .finished image reported) ∧
      ⟨[0x2F, 0x2B], [.operator .incrementValue]⟩ ∈ image.modules := by
  have hselect : select echo
      ⟨[[0x2F, 0x2B], [0x2F, 0x5B], [0x2F, 0x2B], [0x2F, 0x5B]], [], false, false, false⟩
      (.start () (.empty [])) =
        (some ([[0x2F, 0x2B], [0x2F, 0x5B], [0x2F, 0x2B], [0x2F, 0x5B]].map fun name =>
          .ofContent name .brainfuck name), .start () (.empty [])) := by
    have hplus : Target.normalize [0x2F, 0x2B] = [0x2F, 0x2B] := by decide
    have hloop : Target.normalize [0x2F, 0x5B] = [0x2F, 0x5B] := by decide
    simp [select, openTargets, openTarget, sift, inlineFiles, hplus, hloop, echo, File.ofContent,
      Progress.start]
  obtain ⟨image, told, hanswer, -, -, -, hmodules, -, -⟩ :=
    answer_independent_of_schedule rfl hselect (consistent_ofContent id (by simp [File.ofContent]) ())
      (passes_ofContent id (by simp [File.ofContent]) [] ())
  refine ⟨_, _, image, _, hselect, hanswer, (hmodules _).mpr ?_⟩
  refine ⟨_, List.mem_cons_self, rfl, rfl, _, readFile_ofContent _ _ _ _, ?_⟩
  exact Module.parse_symbols_eq_ok_iff.mpr ⟨rfl, by decide⟩

end Compilation

end Bracket
