import Bracket.Proofs.Compilation.Schedule

/-!
# Files that are lost

A compilation that ends without a failure may still lack a module that it was asked for. Whoever
gathers the results takes a failure that holds a diagnosis for one that was reported, but the
diagnosis of a file that cannot be opened or read is handed back without being reported.

`module_missing_iff_unread` tells exactly when that happens: of each path one file is examined, and
its module is missing if and only if that file could not be read. Nothing else is lost: a file that
was asked for is selected (`mem_of_requested`), a file that is selected is examined under its own
path, and a file that is examined and can be read is either parsed or reported.
-/

namespace Bracket

namespace Compilation

variable {σ : Type}

/-! ## What is asked for -/

/-- The file system gave the file when one of the targets was opened. -/
inductive Resolved (fs : FileSystem σ) : List Bytes → Progress σ → File σ → Prop where
  | here {target : Bytes} {rest : List Bytes} {p : Progress σ} {files : List (File σ)} {s : σ}
      {file : File σ} (hresolve : fs.resolve (Target.normalize target) p.storage = (.ok files, s))
      (hfile : file ∈ files) : Resolved fs (target :: rest) p file
  | later {target : Bytes} {rest : List Bytes} {p : Progress σ} {file : File σ}
      (hfile : Resolved fs rest (openTarget fs target p).2 file) :
      Resolved fs (target :: rest) p file

/-- The file is a source that a target stands for, or an inline program. -/
def Requested (fs : FileSystem σ) (request : Request) (p : Progress σ) (file : File σ) : Prop :=
  (file.kind = .brainfuck ∧ Resolved fs request.targets p file) ∨
    ∃ name content, (name, content) ∈ request.inline ∧
      file = .ofContent (Target.normalize name) .brainfuck content

/-- A file that can be compiled is not sifted out. -/
theorem mem_sift {uri : Bytes} {files : List (File σ)} {file : File σ} (hfile : file ∈ files)
    (hkind : file.kind ≠ .none) (p : Progress σ) : file ∈ (sift uri files p).1 := by
  induction files generalizing p with
  | nil => simp at hfile
  | cons first rest ih =>
    unfold sift
    rcases List.mem_cons.mp hfile with rfl | hfile
    · simp [hkind]
    · split
      · exact ih hfile _
      · exact List.mem_cons_of_mem _ (ih hfile p)

/-- Every source that a target stands for is selected. -/
theorem mem_openTargets {fs : FileSystem σ} {targets : List Bytes} {p p' : Progress σ}
    {files : List (File σ)} {file : File σ} (h : Resolved fs targets p file)
    (hkind : file.kind ≠ .none) (hopen : openTargets fs targets p = (some files, p')) :
    file ∈ files := by
  induction h generalizing files p' with
  | @here target rest p found s file hresolve hfile =>
    unfold openTargets openTarget at hopen
    simp only [hresolve] at hopen
    split at hopen
    · simp at hopen
    · obtain rfl : _ = files := by simpa using congrArg Prod.fst hopen
      exact List.mem_append_left _ (mem_sift hfile hkind _)
  | @later target rest p file hfile ih =>
    -- the first target must have been opened, or nothing would be selected
    unfold openTargets at hopen
    split at hopen
    · simp at hopen
    · next found p₁ hfirst =>
      rw [hfirst] at ih
      split at hopen
      · simp at hopen
      · next more p₂ hrest =>
        obtain rfl : found ++ more = files := by simpa using congrArg Prod.fst hopen
        exact List.mem_append_right _ (ih hkind hrest)

/-- **Every file that is asked for is selected.** -/
theorem mem_of_requested {fs : FileSystem σ} {request : Request} {p₀ p : Progress σ}
    {files : List (File σ)} (hselect : select fs request p₀ = (some files, p)) {file : File σ}
    (h : Requested fs request p₀ file) : file ∈ files := by
  unfold select at hselect
  split at hselect
  · simp at hselect
  · next opened p₁ hopen =>
    obtain rfl : opened ++ inlineFiles request = files := by simpa using congrArg Prod.fst hselect
    rcases h with ⟨hkind, hresolved⟩ | ⟨name, content, hinline, rfl⟩
    · refine List.mem_append_left _ (mem_openTargets hresolved ?_ hopen)
      simp [hkind]
    · refine List.mem_append_right _ (List.mem_map.mpr ⟨(name, content), ?_, rfl⟩)
      exact List.mem_mergeSort.mpr hinline

/-! ## What goes wrong unnoticed -/

/-- A file that cannot be opened cannot be read, and the failure is a diagnosis. -/
theorem readFile_of_access {file : File σ} {s : σ} {f : Failure}
    (h : (file.access s).1 = .error f) :
    readFile file s = .error (Diagnosis.ofAccess file.path f).toFailure := by
  simp [readFile, File.body, Body.ofOpened, h]

/-- The verdict passes unnoticed: there is a module, or a failure that is taken for reported. -/
def Verdict.Silent (v : Verdict) : Prop :=
  (∃ m, v = parsed m) ∨ ∃ f, v = unread f ∧ (Diagnosis.first? f).isSome

namespace Workshop

variable {files : List (File σ)} {p : Progress σ} {w : Workshop σ}

/-- Verdicts pass unnoticed if none stops the compilation and there is nothing to tell. -/
theorem silent_iff {vs : List Verdict} :
    (∀ v ∈ vs, v.Silent) ↔ AllPass vs ∧ vs.flatMap (·.told) = [] := by
  rw [AllPass, List.flatMap_eq_nil_iff, ← forall₂_and]
  refine forall₂_congr fun v _ => ?_
  cases v <;> simp [Verdict.Silent, Verdict.told]

/-- If nothing was reported before the work and every verdict passes unnoticed, there is an image and
nothing to report. -/
theorem Sound.answer_of_silent (h : w.Sound files p) (hdone : w.Done)
    (hfresh : p.report.arrived = []) (hsilent : ∀ v ∈ w.verdicts, v.Silent) :
    w.answer = .finished (imageOf (w.verdicts.flatMap Verdict.modules)) [] := by
  obtain ⟨hpass, htold⟩ := silent_iff.mp hsilent
  have hlisted : (p.report.addAll (w.verdicts.flatMap (·.told))).listed = [] := by
    rw [Report.listed_eq_nil_iff, Report.arrived_addAll, hfresh, htold, List.nil_append]
  rw [h.answer_eq_finished hdone hpass, hlisted]

/-- There is no other way to end without a failure. -/
theorem Sound.failure?_eq_none_iff (h : w.Sound files p) (hdone : w.Done) :
    w.answer.failure? = none ↔ p.report.arrived = [] ∧ ∀ v ∈ w.verdicts, v.Silent := by
  constructor
  · intro hnone
    by_cases hpass : AllPass w.verdicts
    · -- the failure is that of the report, so nothing was reported at all
      rw [h.answer_eq_finished hdone hpass] at hnone
      have hlisted : (p.report.addAll (w.verdicts.flatMap (·.told))).listed = [] := by
        cases hl : (p.report.addAll (w.verdicts.flatMap (·.told))).listed with
        | nil => rfl
        | cons d ds => simp [hl, Answer.failure?] at hnone
      rw [Report.listed_eq_nil_iff, Report.arrived_addAll, List.append_eq_nil_iff] at hlisted
      exact ⟨hlisted.1, silent_iff.mpr ⟨hpass, hlisted.2⟩⟩
    · obtain ⟨f, hf⟩ := h.answer_eq_stopped hdone hpass
      simp [hf, Answer.failure?] at hnone
  · rintro ⟨hfresh, hsilent⟩
    rw [h.answer_of_silent hdone hfresh hsilent, Answer.failure?]

/-- A path is examined once. -/
theorem Sound.eq_of_path_eq (h : w.Sound files p) (hdone : w.Done) {x y : File σ × σ}
    (hx : x ∈ w.history) (hy : y ∈ w.history) (hpath : x.1.path = y.1.path) : x = y :=
  List.inj_on_of_nodup_map (h.nodup_history hdone) hx hy hpath

/-- The image has a module for an examined path if that file is parsed. -/
theorem Sound.exists_module_iff (h : w.Sound files p) (hdone : w.Done) {x : File σ × σ}
    (hx : x ∈ w.history) :
    (∃ m ∈ (imageOf (w.verdicts.flatMap Verdict.modules)).modules, m.uri = x.1.path) ↔
      ∃ m, (Compilation.examine x.1 x.2).1 = .parsed m := by
  simp only [mem_imageOf (h.nodup_modules hdone), List.mem_flatMap, Verdict.mem_modules,
    exists_eq_right]
  constructor
  · rintro ⟨m, hm, huri⟩
    obtain ⟨y, hy, hparsed⟩ := List.mem_map.mp hm
    have hpath : y.1.path = x.1.path := by
      rw [← huri, (examine_eq_parsed_iff.mp hparsed).2.1]
    -- modules have the names of their files, so it comes from the one file of that path
    obtain rfl := h.eq_of_path_eq hdone hy hx hpath
    exact ⟨m, hparsed⟩
  · rintro ⟨m, hparsed⟩
    exact ⟨m, List.mem_map.mpr ⟨x, hx, hparsed⟩, (examine_eq_parsed_iff.mp hparsed).2.1⟩

end Workshop

/-- A verdict that passes unnoticed is a module if the file can be read. -/
theorem Verdict.Silent.parsed_iff {file : File σ} {s : σ} (h : (examine file s).1.Silent) :
    (∃ m, (examine file s).1 = .parsed m) ↔ ∃ tokens, readFile file s = .ok tokens := by
  rcases h with ⟨m, hm⟩ | ⟨f, hf, -⟩
  · obtain ⟨-, -, tokens, hread, -⟩ := examine_eq_parsed_iff.mp hm
    exact ⟨fun _ => ⟨tokens, hread⟩, fun _ => ⟨m, hm⟩⟩
  · simp [hf, (examine_eq_unread_iff.mp hf).2]

/-- **Only files that cannot be read are lost.** A compilation with a fresh report and no codes that
are not fatal ends without a failure if and only if nothing was reported while targets were opened,
and each file that was examined is parsed or fails to be read with a failure that holds a diagnosis.
Then there is one examined file for the path of every file that was asked for, and the image has a
module of that name if and only if that one could be read. -/
theorem module_missing_iff_unread {fs : FileSystem σ} {request : Request} {storage : σ}
    {files : List (File σ)} {p : Progress σ} {w : Workshop σ}
    (hselect : select fs request (.start storage (.empty [])) = (some files, p))
    (hsteps : Workshop.Steps (.start files p) w) (hdone : w.Done) :
    (w.answer.failure? = none ↔
      p.report.arrived = [] ∧ ∀ x ∈ w.history, (∃ m, (examine x.1 x.2).1 = .parsed m) ∨
        ∃ f, x.1.kind = .brainfuck ∧ readFile x.1 x.2 = .error f ∧ (Diagnosis.first? f).isSome) ∧
    (w.answer.failure? = none → ∃ image, w.answer = .finished image [] ∧
      ∀ file, Requested fs request (.start storage (.empty [])) file →
        ∃ x ∈ w.history, x.1 ∈ files ∧ x.1.path = file.path ∧
          (∀ y ∈ w.history, y.1.path = file.path → y = x) ∧
          ((∃ m ∈ image.modules, m.uri = file.path) ↔
            ∃ tokens, readFile x.1 x.2 = .ok tokens)) := by
  have hsound := Workshop.Sound.of_steps hsteps
  have hsilent : (∀ v ∈ w.verdicts, v.Silent) ↔
      ∀ x ∈ w.history, (∃ m, (examine x.1 x.2).1 = .parsed m) ∨
        ∃ f, x.1.kind = .brainfuck ∧ readFile x.1 x.2 = .error f ∧ (Diagnosis.first? f).isSome := by
    simp only [Workshop.verdicts, List.forall_mem_map, Verdict.Silent, examine_eq_unread_iff,
      and_assoc]
  refine ⟨by rw [hsound.failure?_eq_none_iff hdone, hsilent], fun hnone => ?_⟩
  obtain ⟨hfresh, hall⟩ := (hsound.failure?_eq_none_iff hdone).mp hnone
  refine ⟨_, hsound.answer_of_silent hdone hfresh hall, fun file hfile => ?_⟩
  obtain ⟨x, hx, hpath⟩ := hsound.exists_mem_history hdone (mem_of_requested hselect hfile)
  refine ⟨x, hx, hsound.ownership.examined x hx, hpath, ?_, ?_⟩
  · intro y hy hy'
    exact hsound.eq_of_path_eq hdone hy hx (hy'.trans hpath.symm)
  · rw [← hpath, hsound.exists_module_iff hdone hx]
    exact (hall _ (List.mem_map.mpr ⟨x, hx, rfl⟩)).parsed_iff

/-- Answers for every name with one source, which cannot be opened. -/
def sealed : FileSystem Unit where
  resolve uri s := (.ok [⟨uri, .brainfuck, fun s => (.error .noProgress, s)⟩], s)
  write _ _ s := (none, s)

/-- The target `/a` stands for a source that cannot be opened. The compilation ends without a
failure, and there is no module. -/
theorem module_missing_iff_unread_sealed :
    ∃ (files : List (File Unit)) (p : Progress Unit) (w : Workshop Unit) (image : Image),
      select sealed ⟨[[0x2F, 0x61]], [], false, false, false⟩ (.start () (.empty [])) =
        (some files, p) ∧
      Workshop.Steps (.start files p) w ∧ w.Done ∧ w.answer = .finished image [] ∧
      ¬ ∃ m ∈ image.modules, m.uri = [0x2F, 0x61] := by
  have hname : Target.normalize [0x2F, 0x61] = [0x2F, 0x61] := by decide
  have hselect : select sealed ⟨[[0x2F, 0x61]], [], false, false, false⟩
      (.start () (.empty [])) =
        (some [⟨[0x2F, 0x61], .brainfuck, fun s => (.error .noProgress, s)⟩],
          .start () (.empty [])) := by
    simp [select, openTargets, openTarget, sift, inlineFiles, hname, sealed, Progress.start]
  obtain ⟨w, hsteps, hdone, -⟩ := Workshop.exists_run_eq rfl hselect
  obtain ⟨hfailure, hmodules⟩ := module_missing_iff_unread hselect hsteps hdone
  have hunread : ∀ x ∈ w.history, x.1.kind = .brainfuck ∧
      readFile x.1 x.2 = .error (Diagnosis.ofAccess x.1.path .noProgress).toFailure := by
    intro x hx
    have hfile := (Workshop.Sound.of_steps hsteps).ownership.examined x hx
    obtain ⟨file, s⟩ := x
    obtain rfl : file = _ := List.mem_singleton.mp hfile
    exact ⟨rfl, readFile_of_access rfl⟩
  have hnone : w.answer.failure? = none := by
    refine hfailure.mpr ⟨rfl, fun x hx => .inr ⟨_, (hunread x hx).1, (hunread x hx).2, ?_⟩⟩
    simp
  obtain ⟨image, hanswer, hrequested⟩ := hmodules hnone
  refine ⟨_, _, w, image, hselect, hsteps, hdone, hanswer, ?_⟩
  obtain ⟨x, hx, -, -, -, hiff⟩ :=
    hrequested ⟨[0x2F, 0x61], .brainfuck, fun s => (.error .noProgress, s)⟩
      (.inl ⟨rfl, .here (by rw [hname]; rfl) List.mem_cons_self⟩)
  rw [hiff, (hunread x hx).2]
  simp

end Compilation

end Bracket
