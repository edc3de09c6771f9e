import Bracket.Proofs.Compilation.Verdicts

/-!
# What is selected

Targets are opened one after the other, and what comes of a target follows from the answer of the
file system alone (`openTarget_spec`): the sources among its files are selected, and reported are a
failure to open it, or a file of no known kind that has the very name that was asked for.

If the answers of a file system do not change (`FileSystem.Steady`), neither do the files that are
selected nor what is reported depend on anything that happened before (`select_spec`).
-/

namespace Bracket

variable {σ : Type}

/-! ## Answers that do not change -/

/-- Among the given states, opening the file always gives the same, and leads to one of them. -/
structure File.Steady (among : σ → Prop) (file : File σ) : Prop where
  stays : ∀ s, among s → among (file.access s).2
  same : ∀ s t, among s → among t → (file.access s).1 = (file.access t).1

/-- Among the given states, a name always stands for the same files, and neither resolving it nor
opening its files leads out of them. -/
structure FileSystem.Steady (among : σ → Prop) (fs : FileSystem σ) : Prop where
  stays : ∀ uri s, among s → among (fs.resolve uri s).2
  same : ∀ uri s t, among s → among t → (fs.resolve uri s).1 = (fs.resolve uri t).1
  files : ∀ uri s files, among s → (fs.resolve uri s).1 = .ok files →
    ∀ file ∈ files, file.Steady among

theorem File.steady_ofContent (among : σ → Prop) (path : Bytes) (kind : FileKind)
    (content : Bytes) : (File.ofContent path kind content : File σ).Steady among :=
  ⟨fun _ hs => hs, fun _ _ _ _ => rfl⟩

namespace Compilation

/-! ## One target -/

/-- What is reported of the files that a name stands for. -/
def refusals (uri : Bytes) (files : List (File σ)) : List Diagnosis :=
  (files.filter fun file => file.kind = .none ∧ file.path = uri).map fun _ => unsupported uri

/-- Only a target that names a file of no known kind is refused. -/
theorem mem_refusals {uri : Bytes} {files : List (File σ)} {d : Diagnosis} :
    d ∈ refusals uri files ↔
      d = unsupported uri ∧ ∃ file ∈ files, file.kind = .none ∧ file.path = uri := by
  simp only [refusals, List.mem_map, List.mem_filter, decide_eq_true_eq]
  constructor
  · rintro ⟨file, ⟨hfile, hrefused⟩, rfl⟩
    exact ⟨rfl, file, hfile, hrefused⟩
  · rintro ⟨rfl, file, hfile, hrefused⟩
    exact ⟨file, ⟨hfile, hrefused⟩, rfl⟩

/-- Sifting takes the sources, reports what is refused, and opens nothing. -/
theorem sift_spec (uri : Bytes) (files : List (File σ)) (p : Progress σ) :
    (sift uri files p).1 = files.filter (fun file => file.kind ≠ .none) ∧
      (sift uri files p).2.storage = p.storage ∧
      (sift uri files p).2.report = p.report.addAll (refusals uri files) := by
  induction files generalizing p with
  | nil => simp [sift, refusals]
  | cons file rest ih =>
    unfold sift
    split
    · next hkind =>
      -- a file of no kind is refused under the name that was asked for, and skipped under any other
      by_cases hpath : file.path = uri
      · obtain ⟨hfiles, hstorage, hreport⟩ := ih (p.add (unsupported uri))
        rw [if_pos hpath, hfiles, hstorage, hreport]
        refine ⟨by simp [hkind], rfl, ?_⟩
        simp [refusals, hkind, hpath, Progress.add, Report.add, Report.addAll]
      · obtain ⟨hfiles, hstorage, hreport⟩ := ih (p.tell (.skipped file.path))
        rw [if_neg hpath, hfiles, hstorage, hreport]
        refine ⟨by simp [hkind], rfl, ?_⟩
        simp [refusals, hkind, hpath, Progress.tell]
    · next hkind =>
      obtain ⟨hfiles, hstorage, hreport⟩ := ih p
      refine ⟨?_, hstorage, ?_⟩
      · simp [hfiles, hkind]
      · simp [hreport, refusals, hkind]

/-- What comes of a name, given the answer of the file system: the files that are selected, and what
is reported; nothing if there is a failure that cannot be told. -/
def selection (uri : Bytes) :
    Except Failure (List (File σ)) → Option (List (File σ) × List Diagnosis)
  | .ok files => some (files.filter (fun file => file.kind ≠ .none), refusals uri files)
  | .error f => (Diagnosis.tell? uri f).map fun d => ([], [d])

/-- **What comes of a target follows from the answer of the file system.** -/
theorem openTarget_spec (fs : FileSystem σ) (target : Bytes) (p : Progress σ) :
    (openTarget fs target p).1 =
      (selection (Target.normalize target)
        (fs.resolve (Target.normalize target) p.storage).1).map (·.1) ∧
    (openTarget fs target p).2.storage = (fs.resolve (Target.normalize target) p.storage).2 ∧
    (openTarget fs target p).2.report =
      p.report.addAll (((selection (Target.normalize target)
        (fs.resolve (Target.normalize target) p.storage).1).map (·.2)).getD []) := by
  unfold openTarget
  dsimp only
  cases fs.resolve (Target.normalize target) p.storage with
  | mk answer storage =>
    cases answer with
    | ok files =>
      obtain ⟨hfiles, hstorage, hreport⟩ :=
        sift_spec (Target.normalize target) files { p with storage }
      simp [selection, hfiles, hstorage, hreport]
    | error f =>
      dsimp only
      cases htell : Diagnosis.tell? (Target.normalize target) f with
      | none => simp [selection, htell]
      | some d => simp [selection, htell, Progress.add, Report.add, Report.addAll]

/-! ## All targets -/

/-- What comes of targets if the file system answers for each of them as in the given state: the
files that are selected, if all failures can be told, and what is reported until then. -/
def selections (fs : FileSystem σ) (s : σ) : List Bytes → Option (List (File σ)) × List Diagnosis
  | [] => (some [], [])
  | target :: rest =>
    match selection (Target.normalize target) (fs.resolve (Target.normalize target) s).1 with
    | none => (none, [])
    | some (files, told) =>
      ((selections fs s rest).1.map (files ++ ·), told ++ (selections fs s rest).2)

variable {fs : FileSystem σ} {among : σ → Prop}

/-- Opening targets stops at the first failure that cannot be told. -/
theorem openTargets_cons (fs : FileSystem σ) (target : Bytes) (rest : List Bytes) (p : Progress σ) :
    openTargets fs (target :: rest) p =
      match (openTarget fs target p).1 with
      | none => (none, (openTarget fs target p).2)
      | some files =>
        ((openTargets fs rest (openTarget fs target p).2).1.map (files ++ ·),
          (openTargets fs rest (openTarget fs target p).2).2) := by
  rw [openTargets]
  cases openTarget fs target p with
  | mk files? p₁ =>
    cases files? with
    | none => rfl
    | some files =>
      dsimp only
      cases openTargets fs rest p₁ with
      | mk more? p₂ => cases more? <;> rfl

/-- Opening targets in unchanging surroundings. -/
theorem openTargets_spec (hfs : fs.Steady among) {s : σ} (hs : among s) (targets : List Bytes)
    {p : Progress σ} (hp : among p.storage) :
    (openTargets fs targets p).1 = (selections fs s targets).1 ∧
      among (openTargets fs targets p).2.storage ∧
      (openTargets fs targets p).2.report = p.report.addAll (selections fs s targets).2 := by
  induction targets generalizing p with
  | nil => simp [openTargets, selections, hp]
  | cons target rest ih =>
    obtain ⟨hfiles, hstorage, hreport⟩ := openTarget_spec fs target p
    -- the answer is the same in every storage that can be met
    rw [hfs.same _ p.storage s hp hs] at hfiles hreport
    have hstays : among (openTarget fs target p).2.storage := by
      rw [hstorage]
      exact hfs.stays _ _ hp
    rw [openTargets_cons, selections, hfiles]
    cases hselection : selection (Target.normalize target)
        (fs.resolve (Target.normalize target) s).1 with
    | none =>
      rw [hselection] at hreport
      exact ⟨rfl, hstays, hreport⟩
    | some chosen =>
      obtain ⟨hmore, hstays', hreport'⟩ := ih hstays
      rw [hselection] at hreport
      refine ⟨by simp [hmore], hstays', ?_⟩
      simp [hreport', hreport, Report.addAll]

/-- **What a request selects in unchanging surroundings** does not depend on what was opened or
reported before. -/
theorem select_spec (hfs : fs.Steady among) {s : σ} (hs : among s) (request : Request)
    {p : Progress σ} (hp : among p.storage) :
    (select fs request p).1 =
        (selections fs s request.targets).1.map (· ++ inlineFiles request) ∧
      among (select fs request p).2.storage ∧
      (select fs request p).2.report = p.report.addAll (selections fs s request.targets).2 := by
  obtain ⟨hfiles, hstays, hreport⟩ := openTargets_spec hfs hs request.targets hp
  unfold select
  cases hopened : openTargets fs request.targets p with
  | mk files? p₁ =>
    rw [hopened] at hfiles hstays hreport
    dsimp only at hfiles hstays hreport
    cases files? with
    | none => exact ⟨by simp [← hfiles], hstays, hreport⟩
    | some files => exact ⟨by simp [← hfiles], hstays, hreport⟩

/-- Everything that is selected opens in the same way all the time. -/
theorem steady_of_mem_selections (hfs : fs.Steady among) {s : σ} (hs : among s)
    {targets : List Bytes} {files : List (File σ)} (h : (selections fs s targets).1 = some files) :
    ∀ file ∈ files, file.Steady among := by
  induction targets generalizing files with
  | nil =>
    obtain rfl : [] = files := by simpa [selections] using h
    simp
  | cons target rest ih =>
    unfold selections at h
    split at h
    · simp at h
    · next chosen told hselection =>
      obtain ⟨more, hmore, rfl⟩ := Option.map_eq_some_iff.mp h
      refine List.forall_mem_append.mpr ⟨fun file hfile => ?_, ih hmore⟩
      -- only a target that could be opened has files
      cases hanswer : (fs.resolve (Target.normalize target) s).1 with
      | error f =>
        rw [hanswer, selection, Option.map_eq_some_iff] at hselection
        obtain ⟨d, -, hpair⟩ := hselection
        obtain ⟨rfl, -⟩ := Prod.mk.inj hpair
        simp at hfile
      | ok found =>
        rw [hanswer, selection, Option.some.injEq] at hselection
        obtain ⟨rfl, -⟩ := Prod.mk.inj hselection
        exact hfs.files _ s found hs hanswer file (List.mem_filter.mp hfile).1

/-- Programs that are given inline do not depend on the storage. -/
theorem steady_of_mem_inlineFiles (among : σ → Prop) (request : Request) :
    ∀ file ∈ (inlineFiles request : List (File σ)), file.Steady among := by
  intro file hfile
  obtain ⟨⟨name, content⟩, -, rfl⟩ := List.mem_map.mp hfile
  exact File.steady_ofContent among _ _ _

end Compilation

end Bracket
