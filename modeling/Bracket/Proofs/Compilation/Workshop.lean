import Mathlib.Data.Multiset.Bind
import Mathlib.Logic.Relation
import Bracket.Proofs.Compilation.Gathering

/-!
# Workers side by side

The workers of a compilation run side by side, and nothing says which of them moves next. A
`Workshop` holds everything that they share, and each worker at the stage it has reached:

* **waiting** for its turn to claim the path of its file. Whoever finds the path taken is done with
  nothing to deliver;
* **claimed**, and about to examine the file, which may change the state of the file system;
* **examined**, with a verdict that is not reported yet;
* **finished**, with a result that has not arrived yet.

A step (`Workshop.Step`) moves any one worker to its next stage, so claims, examinations, reports
and arrivals interleave in every possible way. What every workshop on the way has in common is
`Workshop.Sound`: one step keeps it (`Sound.step`), hence every run does (`Sound.steps`). No run can
get stuck (`exists_done`), and doing the work file by file is one of the runs
(`exists_steps_workAll`).
-/

namespace Bracket

namespace Compilation

variable {σ : Type}

/-- The shared state of all workers, and the workers by the stage that they have reached. The
history is for the record only: it tells which files were examined, last first, each with the state
of the file system that it was examined in. -/
structure Workshop (σ : Type) where
  storage : σ
  report : Report
  taken : List Bytes
  waiting : Multiset (File σ)
  claimed : Multiset (File σ)
  examined : Multiset Verdict
  finished : Multiset Result
  arrived : List Result
  history : List (File σ × σ)

namespace Workshop

/-- One worker for each file, all of them waiting. -/
def start (files : List (File σ)) (p : Progress σ) : Workshop σ :=
  ⟨p.storage, p.report, [], files, 0, 0, 0, [], []⟩

/-- One worker moves on. -/
inductive Step : Workshop σ → Workshop σ → Prop where
  /-- The path is taken by another worker. -/
  | skip {w : Workshop σ} {file : File σ} {rest : Multiset (File σ)}
      (hwaiting : w.waiting = file ::ₘ rest) (htaken : file.path ∈ w.taken) :
      Step w { w with waiting := rest, finished := .idle ::ₘ w.finished }
  /-- The path is claimed. -/
  | claim {w : Workshop σ} {file : File σ} {rest : Multiset (File σ)}
      (hwaiting : w.waiting = file ::ₘ rest) (hfree : file.path ∉ w.taken) :
      Step w { w with
        waiting := rest
        taken := file.path :: w.taken
        claimed := file ::ₘ w.claimed }
  /-- The file is opened, read and parsed. -/
  | examine {w : Workshop σ} {file : File σ} {rest : Multiset (File σ)}
      (hclaimed : w.claimed = file ::ₘ rest) :
      Step w { w with
        storage := (Compilation.examine file w.storage).2
        claimed := rest
        examined := (Compilation.examine file w.storage).1 ::ₘ w.examined
        history := (file, w.storage) :: w.history }
  /-- The diagnosis is reported, if there is one. -/
  | tell {w : Workshop σ} {v : Verdict} {rest : Multiset Verdict}
      (hexamined : w.examined = v ::ₘ rest) :
      Step w { w with
        report := w.report.addAll v.told
        examined := rest
        finished := v.result w.report.nonFatal ::ₘ w.finished }
  /-- The result arrives. -/
  | arrive {w : Workshop σ} {r : Result} {rest : Multiset Result}
      (hfinished : w.finished = r ::ₘ rest) :
      Step w { w with finished := rest, arrived := w.arrived ++ [r] }

abbrev Steps : Workshop σ → Workshop σ → Prop := Relation.ReflTransGen Step

/-- All results have arrived. -/
structure Done (w : Workshop σ) : Prop where
  waiting : w.waiting = 0
  claimed : w.claimed = 0
  examined : w.examined = 0
  finished : w.finished = 0

/-- The answer to the results that have arrived. -/
def answer (w : Workshop σ) : Answer :=
  (Compilation.answer w.arrived (.start w.storage w.report)).1

/-- The verdicts on the files that were examined. -/
def verdicts (w : Workshop σ) : List Verdict :=
  w.history.map fun x => (Compilation.examine x.1 x.2).1

/-! ## The end of every run -/

def left (w : Workshop σ) : Nat :=
  4 * w.waiting.card + 3 * w.claimed.card + 2 * w.examined.card + w.finished.card

/-- Every step leaves less to do. -/
theorem Step.left_lt {w w' : Workshop σ} (h : Step w w') : w'.left < w.left := by
  cases h with
  | skip hwaiting _ =>
    simp only [left, hwaiting, Multiset.card_cons]
    omega
  | claim hwaiting _ =>
    simp only [left, hwaiting, Multiset.card_cons]
    omega
  | examine hclaimed =>
    simp only [left, hclaimed, Multiset.card_cons]
    omega
  | tell hexamined =>
    simp only [left, hexamined, Multiset.card_cons]
    omega
  | arrive hfinished =>
    simp only [left, hfinished, Multiset.card_cons]
    omega

/-- As long as not all results have arrived, some worker can move. -/
theorem exists_step {w : Workshop σ} (h : ¬ w.Done) : ∃ w', Step w w' := by
  by_contra hstuck
  refine h ⟨?_, ?_, ?_, ?_⟩
  · refine Multiset.eq_zero_of_forall_notMem fun file hfile => hstuck ?_
    obtain ⟨rest, hrest⟩ := Multiset.exists_cons_of_mem hfile
    by_cases htaken : file.path ∈ w.taken
    · exact ⟨_, .skip hrest htaken⟩
    · exact ⟨_, .claim hrest htaken⟩
  · refine Multiset.eq_zero_of_forall_notMem fun file hfile => hstuck ?_
    obtain ⟨rest, hrest⟩ := Multiset.exists_cons_of_mem hfile
    exact ⟨_, .examine hrest⟩
  · refine Multiset.eq_zero_of_forall_notMem fun v hv => hstuck ?_
    obtain ⟨rest, hrest⟩ := Multiset.exists_cons_of_mem hv
    exact ⟨_, .tell hrest⟩
  · refine Multiset.eq_zero_of_forall_notMem fun r hr => hstuck ?_
    obtain ⟨rest, hrest⟩ := Multiset.exists_cons_of_mem hr
    exact ⟨_, .arrive hrest⟩

/-- **No run gets stuck:** every workshop can be brought to its end. -/
theorem exists_done (w : Workshop σ) : ∃ w', Steps w w' ∧ w'.Done := by
  induction hleft : w.left using Nat.strong_induction_on generalizing w with
  | _ n ih =>
    by_cases hdone : w.Done
    · exact ⟨w, .refl, hdone⟩
    · obtain ⟨w', hstep⟩ := exists_step hdone
      obtain ⟨w'', hsteps, hdone'⟩ := ih w'.left (hleft ▸ hstep.left_lt) w' rfl
      exact ⟨w'', .head hstep hsteps, hdone'⟩

/-- What has arrived stays. -/
theorem exists_arrived {w w' : Workshop σ} (h : Steps w w') :
    ∃ more, w'.arrived = w.arrived ++ more := by
  induction h with
  | refl => exact ⟨[], (List.append_nil _).symm⟩
  | tail _ hstep ih =>
    obtain ⟨more, harrived⟩ := ih
    cases hstep with
    | @arrive r rest _ => exact ⟨more ++ [r], by simp [harrived]⟩
    | _ => exact ⟨more, harrived⟩

/-! ## Ownership

Every path is claimed once, and by a worker whose file has that path.
-/

/-- Who has claimed what. -/
structure Ownership (files : List (File σ)) (w : Workshop σ) : Prop where
  nodup : w.taken.Nodup
  taken : (w.taken : Multiset Bytes) =
    w.claimed.map (·.path) + (w.history.map (·.1.path) : Multiset Bytes)
  waiting : ∀ file ∈ w.waiting, file ∈ files
  claimed : ∀ file ∈ w.claimed, file ∈ files
  examined : ∀ x ∈ w.history, x.1 ∈ files
  covered : ∀ file ∈ files, file ∈ w.waiting ∨ file.path ∈ w.taken

theorem ownership_start (files : List (File σ)) (p : Progress σ) : (start files p).Ownership files where
  nodup := List.nodup_nil
  taken := rfl
  waiting := by simp [start]
  claimed := by simp [start]
  examined := by simp [start]
  covered := by simp [start]

/-- When one of the waiting workers moves on, every other file is still waiting or taken. -/
theorem Ownership.waiting_cons {files : List (File σ)} {w : Workshop σ} (h : w.Ownership files)
    {file : File σ} {rest : Multiset (File σ)} (hwaiting : w.waiting = file ::ₘ rest) :
    file ∈ files ∧ (∀ f ∈ rest, f ∈ files) ∧
      ∀ f ∈ files, f = file ∨ f ∈ rest ∨ f.path ∈ w.taken := by
  have hmem : ∀ f ∈ file ::ₘ rest, f ∈ files := fun f hf => h.waiting f (hwaiting ▸ hf)
  refine ⟨hmem file (Multiset.mem_cons_self file rest),
    fun f hf => hmem f (Multiset.mem_cons_of_mem hf), fun f hf => ?_⟩
  rcases h.covered f hf with hf | hf
  · rw [hwaiting, Multiset.mem_cons] at hf
    exact hf.imp_right .inl
  · exact .inr (.inr hf)

/-- **A step keeps the books on who has which file.** Only the first worker at a path takes it. -/
theorem Ownership.step {files : List (File σ)} {w w' : Workshop σ} (h : w.Ownership files)
    (hstep : Step w w') : w'.Ownership files := by
  cases hstep with
  | @skip file rest hwaiting htaken =>
    -- whoever leaves without a claim leaves a path that is taken
    obtain ⟨-, hrest, hcovered⟩ := h.waiting_cons hwaiting
    refine ⟨h.nodup, h.taken, hrest, h.claimed, h.examined, fun f hf => ?_⟩
    rcases hcovered f hf with rfl | hf | hf
    · exact .inr htaken
    · exact .inl hf
    · exact .inr hf
  | @claim file rest hwaiting hfree =>
    obtain ⟨hfile, hrest, hcovered⟩ := h.waiting_cons hwaiting
    refine ⟨List.nodup_cons.mpr ⟨hfree, h.nodup⟩, ?_, hrest, ?_, h.examined, fun f hf => ?_⟩
    · rw [Multiset.map_cons, Multiset.cons_add, ← h.taken, Multiset.cons_coe]
    · intro f hf
      rcases Multiset.mem_cons.mp hf with rfl | hf
      · exact hfile
      · exact h.claimed f hf
    · rcases hcovered f hf with rfl | hf | hf
      · exact .inr List.mem_cons_self
      · exact .inl hf
      · exact .inr (List.mem_cons_of_mem _ hf)
  | @examine file rest hclaimed =>
    -- a claim becomes an entry of the history, and the paths taken stay as they are
    have hmem : ∀ f ∈ file ::ₘ rest, f ∈ files := fun f hf => h.claimed f (hclaimed ▸ hf)
    refine ⟨h.nodup, ?_, h.waiting, fun f hf => hmem f (Multiset.mem_cons_of_mem hf), ?_, h.covered⟩
    · rw [h.taken, hclaimed, Multiset.map_cons, List.map_cons, ← Multiset.cons_coe,
        Multiset.cons_add, Multiset.add_cons]
    · intro x hx
      rcases List.mem_cons.mp hx with rfl | hx
      · exact hmem file (Multiset.mem_cons_self file rest)
      · exact h.examined x hx
  | tell _ => exact ⟨h.nodup, h.taken, h.waiting, h.claimed, h.examined, h.covered⟩
  | arrive _ => exact ⟨h.nodup, h.taken, h.waiting, h.claimed, h.examined, h.covered⟩

/-! ## Accounts

What was reported, and what has arrived, is what the verdicts say, up to what is still under way.
-/

/-- What was reported and delivered, given the report before. -/
structure Accounts (before : Report) (w : Workshop σ) : Prop where
  nonFatal : w.report.nonFatal = before.nonFatal
  told : ∃ told : List Diagnosis, w.report.arrived = before.arrived ++ told ∧
    (told : Multiset Diagnosis) + w.examined.bind (fun v => (v.told : Multiset Diagnosis)) =
      (w.verdicts.flatMap (·.told) : Multiset Diagnosis)
  results : ∃ idlers : Nat,
    (w.arrived : Multiset Result) + w.finished + w.examined.map (·.result before.nonFatal) =
      Multiset.replicate idlers .idle +
        (w.verdicts.map (·.result before.nonFatal) : Multiset Result)

theorem accounts_start (files : List (File σ)) (p : Progress σ) :
    (start files p).Accounts p.report where
  nonFatal := rfl
  told := ⟨[], by simp [start], rfl⟩
  results := ⟨0, rfl⟩

/-- **A step keeps the report in line with the verdicts**: what is added is what the finished files
tell. -/
theorem Accounts.step {before : Report} {w w' : Workshop σ} (h : w.Accounts before)
    (hstep : Step w w') : w'.Accounts before := by
  obtain ⟨told, harrived, htold⟩ := h.told
  obtain ⟨idlers, hresults⟩ := h.results
  cases hstep with
  | skip _ _ =>
    refine ⟨h.nonFatal, ⟨told, harrived, htold⟩, idlers + 1, ?_⟩
    rw [Multiset.add_cons, Multiset.cons_add, hresults, Multiset.replicate_succ, Multiset.cons_add]
    rfl
  | claim _ _ => exact ⟨h.nonFatal, ⟨told, harrived, htold⟩, idlers, hresults⟩
  | @examine file rest _ =>
    -- the verdict is new on both sides
    refine ⟨h.nonFatal, ⟨told, harrived, ?_⟩, idlers, ?_⟩
    · simp only [verdicts, List.map_cons, List.flatMap_cons, Multiset.cons_bind] at htold ⊢
      rw [← Multiset.coe_add, ← htold, add_left_comm]
    · simp only [verdicts, List.map_cons, Multiset.map_cons] at hresults ⊢
      rw [← Multiset.cons_coe, Multiset.add_cons, Multiset.add_cons, hresults]
  | @tell v rest hexamined =>
    -- the diagnosis moves to the report, and the result to those that are finished
    refine ⟨h.nonFatal, ⟨told ++ v.told, ?_, ?_⟩, idlers, ?_⟩
    · simp [harrived]
    · rw [hexamined, Multiset.cons_bind, ← add_assoc] at htold
      rw [← Multiset.coe_add]
      exact htold
    · rw [hexamined, Multiset.map_cons, Multiset.add_cons] at hresults
      rw [h.nonFatal, Multiset.add_cons, Multiset.cons_add]
      exact hresults
  | @arrive r rest hfinished =>
    refine ⟨h.nonFatal, ⟨told, harrived, htold⟩, idlers, ?_⟩
    rw [hfinished, Multiset.add_cons] at hresults
    rw [← Multiset.coe_add, Multiset.coe_singleton, add_comm (w.arrived : Multiset Result),
      Multiset.singleton_add, Multiset.cons_add]
    exact hresults

/-! ## The state of the file system -/

/-- Each file of a history was examined in the state that the earlier ones left behind, and `s` is
the state after all of them. -/
def Trail (s₀ : σ) : List (File σ × σ) → σ → Prop
  | [], s => s = s₀
  | (file, t) :: earlier, s => s = (Compilation.examine file t).2 ∧ Trail s₀ earlier t

/-- A step that examines a file adds it to the history, with the storage that the file met. -/
theorem trail_step {s₀ : σ} {w w' : Workshop σ} (h : Trail s₀ w.history w.storage)
    (hstep : Step w w') : Trail s₀ w'.history w'.storage := by
  cases hstep with
  | skip _ _ => exact h
  | claim _ _ => exact h
  | examine _ => exact ⟨rfl, h⟩
  | tell _ => exact h
  | arrive _ => exact h

/-! ## Every run -/

/-- What all runs of a workshop have in common. -/
structure Sound (files : List (File σ)) (p : Progress σ) (w : Workshop σ) : Prop where
  ownership : w.Ownership files
  accounts : w.Accounts p.report
  trail : Trail p.storage w.history w.storage

variable {files : List (File σ)} {p : Progress σ} {w w' : Workshop σ}

/-- All three parts of the invariant are kept together. -/
theorem Sound.step (h : w.Sound files p) (hstep : Step w w') : w'.Sound files p :=
  ⟨h.ownership.step hstep, h.accounts.step hstep, trail_step h.trail hstep⟩

/-- **Every workshop that a run leads to is sound.** -/
theorem Sound.of_steps (h : Steps (start files p) w) : w.Sound files p := by
  induction h with
  | refl => exact ⟨ownership_start files p, accounts_start files p, rfl⟩
  | tail _ hstep ih => exact ih.step hstep

/-- In the end the paths that are taken are those of the files that were examined. -/
theorem Sound.taken_perm (h : w.Sound files p) (hdone : w.Done) :
    w.taken.Perm (w.history.map (·.1.path)) := by
  have htaken := h.ownership.taken
  rw [hdone.claimed, Multiset.map_zero, zero_add] at htaken
  exact Multiset.coe_eq_coe.mp htaken

/-- No path was examined twice. -/
theorem Sound.nodup_history (h : w.Sound files p) (hdone : w.Done) :
    (w.history.map (·.1.path)).Nodup :=
  (h.taken_perm hdone).nodup_iff.mp h.ownership.nodup

/-- Every path was examined. -/
theorem Sound.exists_mem_history (h : w.Sound files p) (hdone : w.Done) {file : File σ}
    (hfile : file ∈ files) : ∃ x ∈ w.history, x.1.path = file.path := by
  have htaken : file.path ∈ w.taken := by
    refine (h.ownership.covered file hfile).resolve_left fun hwaiting => ?_
    rw [hdone.waiting] at hwaiting
    exact absurd hwaiting (Multiset.notMem_zero file)
  exact List.mem_map.mp ((h.taken_perm hdone).mem_iff.mp htaken)

/-- What was reported is what the verdicts tell. -/
theorem Sound.exists_told (h : w.Sound files p) (hdone : w.Done) :
    ∃ told, w.report = p.report.addAll told ∧ told.Perm (w.verdicts.flatMap (·.told)) := by
  obtain ⟨told, harrived, htold⟩ := h.accounts.told
  rw [hdone.examined, Multiset.zero_bind, add_zero] at htold
  refine ⟨told, ?_, Multiset.coe_eq_coe.mp htold⟩
  have hnonFatal := h.accounts.nonFatal
  cases hreport : w.report
  simp_all [Report.addAll]

/-- What arrived is what the verdicts leave behind, and nothing from the workers that were late. -/
theorem Sound.exists_arrived_perm (h : w.Sound files p) (hdone : w.Done) :
    ∃ idlers, w.arrived.Perm
      (List.replicate idlers .idle ++ w.verdicts.map (·.result p.report.nonFatal)) := by
  obtain ⟨idlers, hresults⟩ := h.accounts.results
  rw [hdone.examined, hdone.finished, Multiset.map_zero, add_zero, add_zero,
    ← Multiset.coe_replicate, Multiset.coe_add] at hresults
  exact ⟨idlers, Multiset.coe_eq_coe.mp hresults⟩

/-! ## The answer -/

/-- All verdicts let the compilation go on. -/
def AllPass (vs : List Verdict) : Prop :=
  ∀ v ∈ vs, ∀ f, v = .unread f → (Diagnosis.first? f).isSome

/-- The collector is not stopped iff no verdict stops it. -/
theorem Sound.passes_iff (h : w.Sound files p) (hdone : w.Done) :
    (∀ r ∈ w.arrived, r.Passes) ↔ AllPass w.verdicts := by
  obtain ⟨idlers, hperm⟩ := h.exists_arrived_perm hdone
  constructor
  · intro hall v hv
    refine Verdict.passes_result.mp (hall (v.result p.report.nonFatal) ?_)
    exact hperm.mem_iff.mpr (List.mem_append_right _ (List.mem_map_of_mem hv))
  · intro hall r hr
    rcases List.mem_append.mp (hperm.mem_iff.mp hr) with hr | hr
    · rw [(List.mem_replicate.mp hr).2]
      exact Result.passes_idle
    · obtain ⟨v, hv, rfl⟩ := List.mem_map.mp hr
      exact Verdict.passes_result.mpr (hall v hv)

/-- The modules that arrived are those of the verdicts. -/
theorem Sound.modules_perm (h : w.Sound files p) (hdone : w.Done) :
    (w.arrived.flatMap Result.modules).Perm (w.verdicts.flatMap Verdict.modules) := by
  obtain ⟨idlers, hperm⟩ := h.exists_arrived_perm hdone
  refine (hperm.flatMap_right _).trans (List.Perm.of_eq ?_)
  have hidle : (List.replicate idlers Result.idle).flatMap Result.modules = [] := by
    simp [List.flatMap_eq_nil_iff]
  rw [List.flatMap_append, hidle, List.nil_append, List.flatMap_map]
  simp

/-- What the verdicts on different files say has different names. -/
theorem nodup_flatMap_verdicts {α : Type} (f : Verdict → List α) (name : α → Bytes)
    (hlength : ∀ v, (f v).length ≤ 1)
    (hname : ∀ (file : File σ) s, ∀ a ∈ f (Compilation.examine file s).1, name a = file.path)
    {history : List (File σ × σ)} (hnodup : (history.map (·.1.path)).Nodup) :
    (((history.map fun x => (Compilation.examine x.1 x.2).1).flatMap f).map name).Nodup := by
  induction history with
  | nil => simp
  | cons x earlier ih =>
    rw [List.map_cons, List.nodup_cons] at hnodup
    rw [List.map_cons, List.flatMap_cons, List.map_append, List.nodup_append']
    refine ⟨?_, ih hnodup.2, ?_⟩
    · -- one name at most
      have hone := hlength (Compilation.examine x.1 x.2).1
      rcases hf : f (Compilation.examine x.1 x.2).1 with _ | ⟨a, _ | ⟨b, rest⟩⟩ <;> simp_all
    · intro n hn hn'
      obtain ⟨a, ha, rfl⟩ := List.mem_map.mp hn
      obtain ⟨b, hb, hba⟩ := List.mem_map.mp hn'
      obtain ⟨v, hv, hbv⟩ := List.mem_flatMap.mp hb
      obtain ⟨y, hy, rfl⟩ := List.mem_map.mp hv
      -- two with one name would come from two files of one path
      refine hnodup.1 (List.mem_map.mpr ⟨y, hy, ?_⟩)
      rw [← hname _ _ a ha, ← hba, hname _ _ b hbv]

/-- Every path is owned once, so no two modules have the same name. -/
theorem Sound.nodup_modules (h : w.Sound files p) (hdone : w.Done) :
    ((w.verdicts.flatMap Verdict.modules).map (·.uri)).Nodup := by
  refine nodup_flatMap_verdicts _ _ (fun v => ?_) (fun file s => (examine_uri file s).1)
    (h.nodup_history hdone)
  cases v <;> simp [Verdict.modules]

/-- Every path is owned once, so every path is diagnosed at most once. -/
theorem Sound.nodup_told (h : w.Sound files p) (hdone : w.Done) :
    ((w.verdicts.flatMap (·.told)).map (·.location.uri)).Nodup := by
  refine nodup_flatMap_verdicts _ _ (fun v => ?_) (fun file s => (examine_uri file s).2)
    (h.nodup_history hdone)
  cases v <;> simp [Verdict.told]

/-- **The answer is a function of the verdicts**, whatever order they come in. -/
theorem Sound.answer_eq_finished (h : w.Sound files p) (hdone : w.Done)
    (hpass : AllPass w.verdicts) :
    w.answer = .finished (imageOf (w.verdicts.flatMap Verdict.modules))
      (p.report.addAll (w.verdicts.flatMap (·.told))).listed := by
  obtain ⟨told, hreport, htold⟩ := h.exists_told hdone
  have hgather : gather w.arrived = .ok (w.arrived.flatMap Result.modules) :=
    gather_eq_ok_iff.mpr ⟨(h.passes_iff hdone).mpr hpass, rfl⟩
  have hnodup := ((h.modules_perm hdone).map (·.uri)).nodup_iff.mpr (h.nodup_modules hdone)
  have himage : imageOf (w.arrived.flatMap Result.modules) =
      imageOf (w.verdicts.flatMap Verdict.modules) := imageOf_perm (h.modules_perm hdone) hnodup
  have hlisted : w.report.listed = (p.report.addAll (w.verdicts.flatMap (·.told))).listed := by
    refine Report.listed_perm (congrArg Report.arrived hreport) rfl htold ?_
    exact (htold.map _).nodup_iff.mpr (h.nodup_told hdone)
  simp only [answer, Compilation.answer, hgather, Progress.start, himage, hlisted]

/-- A verdict that does not let the compilation go on stops it. -/
theorem Sound.answer_eq_stopped (h : w.Sound files p) (hdone : w.Done)
    (hpass : ¬ AllPass w.verdicts) : ∃ f, w.answer = .stopped f := by
  rw [← h.passes_iff hdone] at hpass
  cases hgather : gather w.arrived with
  | ok ms => exact absurd (gather_eq_ok_iff.mp hgather).1 hpass
  | error f => exact ⟨f, by simp only [answer, Compilation.answer, hgather]⟩

/-! ## File by file -/

/-- The work on one file, done without a break. -/
theorem exists_steps_work {request : Request} (hcancelled : request.cancelled = false)
    (file : File σ) (taken : List Bytes) (p : Progress σ) (rest : Multiset (File σ))
    (arrived : List Result) (history : List (File σ × σ)) :
    ∃ history',
      Steps ⟨p.storage, p.report, taken, file ::ₘ rest, 0, 0, 0, arrived, history⟩
        ⟨(work request file taken p).2.2.storage, (work request file taken p).2.2.report,
          (work request file taken p).2.1, rest, 0, 0, 0,
          arrived ++ [(work request file taken p).1], history'⟩ := by
  by_cases htaken : file.path ∈ taken
  · rw [work_of_taken hcancelled htaken]
    exact ⟨history, .tail (.single (.skip rfl htaken)) (.arrive rfl)⟩
  · obtain ⟨p', hwork, hstorage, hreport⟩ := work_of_free hcancelled htaken p
    rw [hwork, hstorage, hreport]
    refine ⟨(file, p.storage) :: history, ?_⟩
    exact .tail (.tail (.tail (.single (.claim rfl htaken)) (.examine rfl)) (.tell rfl)) (.arrive rfl)

/-- **Doing the work file by file is a run.** -/
theorem exists_steps_workAll {request : Request} (hcancelled : request.cancelled = false)
    (files : List (File σ)) (taken : List Bytes) (p : Progress σ) (arrived : List Result)
    (history : List (File σ × σ)) :
    ∃ w : Workshop σ,
      Steps ⟨p.storage, p.report, taken, files, 0, 0, 0, arrived, history⟩ w ∧ w.Done ∧
        w.report = (workAll request files taken p).2.report ∧
        w.arrived = arrived ++ (workAll request files taken p).1 := by
  induction files generalizing taken p arrived history with
  | nil => exact ⟨_, .refl, ⟨rfl, rfl, rfl, rfl⟩, rfl, by simp [workAll]⟩
  | cons file rest ih =>
    obtain ⟨history', hfirst⟩ := exists_steps_work hcancelled file taken p rest arrived history
    obtain ⟨w, hrest, hdone, hreport, harrived⟩ := ih (work request file taken p).2.1
      (work request file taken p).2.2 (arrived ++ [(work request file taken p).1]) history'
    refine ⟨w, hfirst.trans hrest, hdone, hreport, ?_⟩
    rw [harrived]
    simp [workAll]

end Workshop

end Compilation

end Bracket
