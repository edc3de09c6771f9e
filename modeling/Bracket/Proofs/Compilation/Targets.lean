import Bracket.Proofs.Compilation.Calls

/-!
# Targets in any order

A request lists its targets, and the list may name a file several times: twice by the same name, by a
name and the directory above it, or by an inline program of that name. The order and the repetitions
leave traces in what is selected and in what is reported, since a target that cannot be opened is
reported each time. They leave none in the image, nor in whether anything is reported at all.

What is selected depends on the set of normalised targets only, as a set (`mem_selections_iff`). If
files of one path are alike, the verdicts on them are a function of that set again, and an image is
determined by its members (`Image.eq_of_mem_iff`), because their names are strictly ascending.
-/

namespace Bracket

/-- An image whose names are strictly ascending is determined by its members. -/
theorem Image.eq_of_mem_iff {image image' : Image}
    (h : image.modules.Pairwise (fun a b => a.uri < b.uri))
    (h' : image'.modules.Pairwise (fun a b => a.uri < b.uri))
    (hmem : ∀ m, m ∈ image.modules ↔ m ∈ image'.modules) : image = image' := by
  have hnodup : ∀ {ms : List Module}, ms.Pairwise (fun a b => a.uri < b.uri) → ms.Nodup := by
    intro ms hms
    refine hms.imp fun {a b} hlt heq => ?_
    exact List.lt_irrefl _ (heq ▸ hlt)
  have hperm := (List.perm_ext_iff_of_nodup (hnodup h) (hnodup h')).mpr hmem
  have heq : image.modules = image'.modules :=
    List.Perm.eq_of_pairwise (fun a b _ _ hab hba => absurd hba (List.lt_asymm hab)) h h' hperm
  exact congrArg Image.mk heq

variable {σ : Type} {among : σ → Prop}

/-- The body of a steady file is always the same. -/
theorem File.Steady.body {file : File σ} (h : file.Steady among) {s t : σ} (hs : among s)
    (ht : among t) : (file.body s).1 = (file.body t).1 := by
  simp only [File.body, h.same s t hs ht]

/-- An answer with an image holds no failure if nothing is reported. -/
theorem Answer.failure?_finished_eq_none_iff {image : Image} {reported : List Diagnosis} :
    (finished image reported).failure? = none ↔ reported = [] := by
  cases reported <;> simp [failure?]

namespace Compilation

variable {fs : FileSystem σ} {request : Request} {files : List (File σ)} {s t : σ}

/-! ## What is selected, as a set -/

/-- Opening targets fails if there is nothing to tell of one of them. -/
theorem selections_eq_none_iff {targets : List Bytes} :
    (selections fs s targets).1 = none ↔
      ∃ uri ∈ targets.map Target.normalize, selection uri (fs.resolve uri s).1 = none := by
  induction targets with
  | nil => simp [selections]
  | cons target rest ih =>
    rw [selections]
    cases hselection : selection (Target.normalize target)
        (fs.resolve (Target.normalize target) s).1 with
    | none => simp [hselection]
    | some chosen => simp [ih, hselection]

/-- **What is selected, and what is reported on the way, comes from one of the names.** -/
theorem mem_selections_iff {targets : List Bytes} (h : (selections fs s targets).1 = some files) :
    (∀ file, file ∈ files ↔ ∃ uri ∈ targets.map Target.normalize, ∃ chosen told,
      selection uri (fs.resolve uri s).1 = some (chosen, told) ∧ file ∈ chosen) ∧
    ∀ d, d ∈ (selections fs s targets).2 ↔ ∃ uri ∈ targets.map Target.normalize, ∃ chosen told,
      selection uri (fs.resolve uri s).1 = some (chosen, told) ∧ d ∈ told := by
  induction targets generalizing files with
  | nil =>
    obtain rfl : [] = files := by simpa [selections] using h
    simp [selections]
  | cons target rest ih =>
    rw [selections] at h ⊢
    cases hselection : selection (Target.normalize target)
        (fs.resolve (Target.normalize target) s).1 with
    | none => simp [hselection] at h
    | some outcome =>
      obtain ⟨chosen, told⟩ := outcome
      rw [hselection] at h
      obtain ⟨more, hmore, rfl⟩ := Option.map_eq_some_iff.mp h
      obtain ⟨hfiles, htold⟩ := ih hmore
      constructor
      · intro file
        simp [hfiles, hselection]
      · intro d
        simp [htold, hselection]

/-- The inline files are the given texts under their normalized names. -/
theorem mem_inlineFiles_iff {file : File σ} :
    file ∈ inlineFiles request ↔
      ∃ x ∈ request.inline, File.ofContent (Target.normalize x.1) .brainfuck x.2 = file := by
  simp [inlineFiles]

/-- The file is among those that are selected for the request. -/
def Selects (fs : FileSystem σ) (s : σ) (request : Request) (file : File σ) : Prop :=
  ∃ files, (select fs request (.start s (.empty []))).1 = some files ∧ file ∈ files

/-! ## Files that are always the same -/

/-- Visiting steady files leaves the storage among those that can be met. -/
theorem among_visit (hs : among s) {others : List (File σ)}
    (hsteady : ∀ o ∈ others, o.Steady among) : among (visit s others) := by
  induction others with
  | nil => exact hs
  | cons file earlier ih =>
    have hearlier := ih fun o ho => hsteady o (List.mem_cons_of_mem _ ho)
    exact ((hsteady file List.mem_cons_self).examine hearlier hearlier).1

/-- Steady files are consistent as soon as those of the same path are alike. -/
theorem Consistent.of_steady (hs : among s) (ht : among t)
    (hsteady : ∀ file ∈ files, file.Steady among)
    (halike : ∀ f ∈ files, ∀ g ∈ files, f.path = g.path →
      f.kind = g.kind ∧ (f.body t).1 = (g.body t).1) : Consistent files s where
  kind f hf g hg hpath := (halike f hf g hg hpath).1
  body f hf g hg hpath others hothers := by
    have hvisit : among (visit s others) :=
      among_visit hs fun o ho => hsteady o (hothers o ho).1
    calc (f.body (visit s others)).1
        = (f.body t).1 := (hsteady f hf).body hvisit ht
      _ = (g.body t).1 := (halike f hf g hg hpath).2
      _ = (g.body s).1 := (hsteady g hg).body ht hs

/-! ## The answer by its members -/

/-- **Consistent files settle the answer.** Its image and what the workers report are known by their
members, and the workers report at most one diagnosis for each path. -/
theorem Settled.of_consistent {c : Compiler σ} {p : Progress σ}
    (hcancelled : request.cancelled = false)
    (hselect : select fs request (.start c.storage c.report) = (some files, p))
    (hconsistent : Consistent files p.storage)
    (hpasses : ∀ file ∈ files, ∀ f, (examine file p.storage).1 = .unread f →
      (Diagnosis.first? f).isSome) :
    ∃ (image : Image) (told : List Diagnosis),
      Settled fs request c (.finished image (p.report.addAll told).listed) ∧
      image.modules.Pairwise (fun a b => a.uri < b.uri) ∧
      (∀ m, m ∈ image.modules ↔ ∃ file ∈ files, (examine file p.storage).1 = .parsed m) ∧
      (∀ d, d ∈ told ↔ ∃ file ∈ files, (examine file p.storage).1 = .diagnosed d) ∧
      (told.map (·.location.uri)).Nodup := by
  obtain ⟨w₀, hsteps₀, hdone₀⟩ := (Workshop.start files p).exists_done
  have hsound₀ := Workshop.Sound.of_steps hsteps₀
  have hverdicts : ∀ v, v ∈ w₀.verdicts ↔ ∃ file ∈ files, (examine file p.storage).1 = v :=
    fun v => hsound₀.mem_verdicts_iff hdone₀ hconsistent
  refine ⟨imageOf (w₀.verdicts.flatMap Verdict.modules), w₀.verdicts.flatMap (·.told),
    .of_select hcancelled hselect fun w hsteps hdone => ?_, pairwise_imageOf _, ?_, ?_,
    hsound₀.nodup_told hdone₀⟩
  · -- any other run comes to the same verdicts
    have hsound := Workshop.Sound.of_steps hsteps
    have hperm := Workshop.verdicts_perm hsound hdone hsound₀ hdone₀ hconsistent
    have hpass : Workshop.AllPass w.verdicts := by
      intro v hv f hf
      obtain ⟨file, hfile, hfv⟩ := (hverdicts v).mp (hperm.mem_iff.mp hv)
      exact hpasses file hfile f (hfv.trans hf)
    rw [hsound.answer_eq_finished hdone hpass,
      imageOf_perm (hperm.flatMap_right _) (hsound.nodup_modules hdone)]
    exact congrArg _ (Report.listed_perm rfl rfl (hperm.flatMap_right _) (hsound.nodup_told hdone))
  · intro m
    rw [mem_imageOf (hsound₀.nodup_modules hdone₀)]
    simp only [List.mem_flatMap, Verdict.mem_modules, exists_eq_right, hverdicts]
  · intro d
    simp only [List.mem_flatMap, Verdict.mem_told, exists_eq_right, hverdicts]

/-- The compilation gives the answer that is settled. -/
theorem Settled.run_eq {c : Compiler σ} {a : Answer} (h : Settled fs request c a) :
    (run fs request (.start c.storage c.report)).1 = some a := by
  obtain ⟨⟨c', hcall⟩, hunique⟩ := h
  obtain ⟨b, d, hcall', hrun⟩ := hcall.exists_run
  rw [hrun, hunique b d hcall']

/-- In unchanging surroundings a fresh compiler has one answer, known by its members. -/
theorem exists_settled_of_steady (hfs : fs.Steady among) (hs : among s) (ht : among t)
    (hcancelled : request.cancelled = false) {opened : List (File σ)}
    (hopened : (selections fs s request.targets).1 = some opened)
    (hfiles : files = opened ++ inlineFiles request)
    (halike : ∀ f ∈ files, ∀ g ∈ files, f.path = g.path →
      f.kind = g.kind ∧ (f.body s).1 = (g.body s).1)
    (hpasses : ∀ file ∈ files, ∀ f, (examine file s).1 = .unread f → (Diagnosis.first? f).isSome)
    (nonFatal : List Code) :
    ∃ (image : Image) (reported : List Diagnosis),
      Settled fs request (.fresh t nonFatal) (.finished image reported) ∧
      image.modules.Pairwise (fun a b => a.uri < b.uri) ∧
      (∀ m, m ∈ image.modules ↔ ∃ file ∈ files, (examine file s).1 = .parsed m) ∧
      ∀ d, d ∈ reported ↔ d ∈ (selections fs s request.targets).2 ∨
        ∃ file ∈ files, (examine file s).1 = .diagnosed d := by
  obtain ⟨p, hselect, hstays, harrived⟩ : ∃ p,
      select fs request (.start t (.empty nonFatal)) = (some files, p) ∧ among p.storage ∧
        p.report.arrived = (selections fs s request.targets).2 := by
    obtain ⟨hselect, hstays, hreport⟩ :=
      select_spec hfs hs request (p := .start t (.empty nonFatal)) ht
    rw [hopened, Option.map_some, ← hfiles] at hselect
    exact ⟨_, Prod.ext hselect rfl, hstays, congrArg Report.arrived hreport⟩
  have hsteady : ∀ file ∈ files, file.Steady among := by
    rw [hfiles]
    exact List.forall_mem_append.mpr
      ⟨steady_of_mem_selections hfs hs hopened, steady_of_mem_inlineFiles among request⟩
  -- the targets were opened in between, and the files are still what they were
  have hsame : ∀ file ∈ files, (examine file p.storage).1 = (examine file s).1 :=
    fun file hfile => ((hsteady file hfile).examine hstays hs).2
  obtain ⟨image, told, hsettled, hascending, hmodules, htold, -⟩ :=
    Settled.of_consistent (c := .fresh t nonFatal) hcancelled hselect
      (.of_steady hstays hs hsteady halike)
      (fun file hfile f hf => hpasses file hfile f ((hsame file hfile).symm.trans hf))
  refine ⟨image, _, hsettled, hascending, fun m => ?_, fun d => ?_⟩
  · rw [hmodules]
    exact exists_congr fun file => and_congr_right fun hfile => by rw [hsame file hfile]
  · rw [Report.listed, List.mem_mergeSort, Report.arrived_addAll, harrived, List.mem_append, htold]
    refine or_congr_right ?_
    exact exists_congr fun file => and_congr_right fun hfile => by rw [hsame file hfile]

/-! ## Two requests -/

/-- The files that are selected for a request in unchanging surroundings. -/
theorem selects_iff (hfs : fs.Steady among) (hs : among s) {opened : List (File σ)}
    (hopened : (selections fs s request.targets).1 = some opened) {file : File σ} :
    Selects fs s request file ↔ file ∈ opened ++ inlineFiles request := by
  obtain ⟨hselect, -, -⟩ := select_spec hfs hs request (p := .start s (.empty [])) hs
  rw [hopened, Option.map_some] at hselect
  simp [Selects, hselect]

/-- There is no answer if there is nothing to tell of a target. -/
theorem run_eq_none (hfs : fs.Steady among) (hs : among s) (ht : among t)
    (hopened : (selections fs s request.targets).1 = none) (report : Report) :
    (run fs request (.start t report)).1 = none := by
  obtain ⟨hselect, -, -⟩ := select_spec hfs hs request (p := .start t report) ht
  rw [hopened, Option.map_none] at hselect
  unfold run
  split
  · rfl
  · next hfiles => simp [hfiles] at hselect

/-- **The image does not depend on the order or the repetition of targets.** Two requests have the
same inline programs, and the same targets up to order, repetition and spelling. The answers of the
file system do not change, files of one path are of one kind and have one body, and no worker fails
without a diagnosis. Then either there is something that cannot be told of a target, and neither
request is answered; or each request has one answer, whatever the schedule and whatever the codes
that are not fatal, and both have the same image, report the same diagnoses up to their number, and
so hold a failure both or neither. -/
theorem answers_independent_of_targets {request' : Request} {s' : σ} (hfs : fs.Steady among)
    (hs : among s) (hs' : among s') (hcancelled : request.cancelled = false)
    (hcancelled' : request'.cancelled = false)
    (hinline : ∀ x, x ∈ request.inline ↔ x ∈ request'.inline)
    (htargets : ∀ uri, uri ∈ request.targets.map Target.normalize ↔
      uri ∈ request'.targets.map Target.normalize)
    (halike : ∀ f g, Selects fs s request f → Selects fs s request g → f.path = g.path →
      f.kind = g.kind ∧ (f.body s).1 = (g.body s).1)
    (hpasses : ∀ file, Selects fs s request file →
      ∀ f, (examine file s).1 = .unread f → (Diagnosis.first? f).isSome)
    (nonFatal nonFatal' : List Code) :
    ((run fs request (.start s (.empty nonFatal))).1 = none ∧
      (run fs request' (.start s' (.empty nonFatal'))).1 = none) ∨
    ∃ (image : Image) (reported reported' : List Diagnosis),
      Settled fs request (.fresh s nonFatal) (.finished image reported) ∧
      Settled fs request' (.fresh s' nonFatal') (.finished image reported') ∧
      (run fs request (.start s (.empty nonFatal))).1 = some (.finished image reported) ∧
      (run fs request' (.start s' (.empty nonFatal'))).1 = some (.finished image reported') ∧
      (∀ d, d ∈ reported ↔ d ∈ reported') ∧
      ((Answer.finished image reported).failure? = none ↔
        (Answer.finished image reported').failure? = none) := by
  have hnone : (selections fs s request.targets).1 = none ↔
      (selections fs s request'.targets).1 = none := by
    simp only [selections_eq_none_iff, htargets]
  cases hopened : (selections fs s request.targets).1 with
  | none =>
    exact .inl ⟨run_eq_none hfs hs hs hopened _, run_eq_none hfs hs hs' (hnone.mp hopened) _⟩
  | some opened =>
    obtain ⟨opened', hopened'⟩ : ∃ opened', (selections fs s request'.targets).1 = some opened' :=
      Option.ne_none_iff_exists'.mp fun h => by simp [hnone.mpr h] at hopened
    obtain ⟨hchosen, htold⟩ := mem_selections_iff hopened
    obtain ⟨hchosen', htold'⟩ := mem_selections_iff hopened'
    have hmem : ∀ file, file ∈ opened' ++ inlineFiles request' ↔
        file ∈ opened ++ inlineFiles request := by
      intro file
      simp only [List.mem_append, hchosen, hchosen', htargets, mem_inlineFiles_iff, hinline]
    have hselects : ∀ file, file ∈ opened ++ inlineFiles request → Selects fs s request file :=
      fun file hfile => (selects_iff hfs hs hopened).mpr hfile
    obtain ⟨image, reported, hsettled, hascending, hmodules, hreported⟩ :=
      exists_settled_of_steady hfs hs hs hcancelled hopened rfl
        (fun f hf g hg => halike f g (hselects f hf) (hselects g hg))
        (fun file hfile => hpasses file (hselects file hfile)) nonFatal
    obtain ⟨image', reported', hsettled', hascending', hmodules', hreported'⟩ :=
      exists_settled_of_steady hfs hs hs' hcancelled' hopened' rfl
        (fun f hf g hg => halike f g (hselects f ((hmem f).mp hf)) (hselects g ((hmem g).mp hg)))
        (fun file hfile => hpasses file (hselects file ((hmem file).mp hfile))) nonFatal'
    obtain rfl : image = image' := by
      refine Image.eq_of_mem_iff hascending hascending' fun m => ?_
      simp only [hmodules, hmodules', hmem]
    have hsame : ∀ d, d ∈ reported ↔ d ∈ reported' := by
      intro d
      simp only [hreported, hreported', hmem, htold, htold', htargets]
    refine .inr ⟨image, reported, reported', hsettled, hsettled', hsettled.run_eq, hsettled'.run_eq,
      hsame, ?_⟩
    simp only [Answer.failure?_finished_eq_none_iff, List.eq_nil_iff_forall_not_mem, hsame]

theorem steady_echo : echo.Steady fun _ => True where
  stays _ _ _ := trivial
  same _ _ _ _ _ := rfl
  files uri s files _ h file hfile := by
    obtain rfl : [.ofContent uri .brainfuck uri] = files := Except.ok.inj h
    obtain rfl := List.mem_singleton.mp hfile
    exact File.steady_ofContent _ _ _ _

/-- The targets `/+` and `/[` are asked for in this order, and then the other way round and one of
them twice. The second cannot be parsed. -/
theorem answers_independent_of_targets_swapped :
    let request : Request := ⟨[[0x2F, 0x2B], [0x2F, 0x5B]], [], false, false, false⟩
    let request' : Request :=
      ⟨[[0x2F, 0x5B], [0x2F, 0x2B], [0x2F, 0x5B]], [], false, false, false⟩
    ∃ (image : Image) (reported reported' : List Diagnosis),
      Settled echo request (.fresh () []) (.finished image reported) ∧
      Settled echo request' (.fresh () [.trailingInput]) (.finished image reported') ∧
      ∀ d, d ∈ reported ↔ d ∈ reported' := by
  intro request request'
  have hselect : select echo request (.start () (.empty [])) =
      (some ([[0x2F, 0x2B], [0x2F, 0x5B]].map fun name => .ofContent name .brainfuck name),
        .start () (.empty [])) := by
    have hplus : Target.normalize [0x2F, 0x2B] = [0x2F, 0x2B] := by decide
    have hloop : Target.normalize [0x2F, 0x5B] = [0x2F, 0x5B] := by decide
    simp [request, select, openTargets, openTarget, sift, inlineFiles, hplus, hloop, echo,
      File.ofContent, Progress.start]
  have hechoes : ∀ file, Selects echo () request file →
      file = .ofContent file.path .brainfuck file.path := by
    rintro file ⟨files, hfiles, hfile⟩
    rw [hselect] at hfiles
    obtain rfl := Option.some.inj hfiles
    obtain ⟨name, -, rfl⟩ := List.mem_map.mp hfile
    rfl
  have hamong : (fun _ : Unit => True) () := trivial
  have hcancelled : request.cancelled = false := rfl
  have hcancelled' : request'.cancelled = false := rfl
  have htargets : ∀ uri, uri ∈ request.targets.map Target.normalize ↔
      uri ∈ request'.targets.map Target.normalize := by
    simp only [request, request', List.map_cons, List.map_nil, List.mem_cons, List.not_mem_nil]
    tauto
  obtain ⟨hnone, -⟩ | ⟨image, reported, reported', hsettled, hsettled', -, -, hsame, -⟩ :=
    answers_independent_of_targets steady_echo hamong hamong hcancelled hcancelled' (fun _ => .rfl)
      htargets
      (fun f g hf hg hpath => by
        rw [hechoes f hf, hechoes g hg, hpath]
        exact ⟨rfl, rfl⟩)
      (fun file hfile f hf => by
        have hread := (examine_eq_unread_iff.mp hf).2
        rw [hechoes file hfile, readFile_ofContent] at hread
        simp at hread) [] [.trailingInput]
  · simp [run, hselect] at hnone
  · exact ⟨image, reported, reported', hsettled, hsettled', hsame⟩

end Compilation

end Bracket
