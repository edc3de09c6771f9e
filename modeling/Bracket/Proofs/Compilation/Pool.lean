import Mathlib.Algebra.GroupWithZero.Nat
import Bracket.Proofs.Compilation.Workshop

/-!
# The pool of workers

`Workshop` leaves out what keeps the workers in check: there are only so many permits, a result is
sent before it arrives, and whoever collects the results may give up early. A `Pool` has all of it.
A worker

* **waits** until there is a permit for it;
* is **admitted**, and looks for the path of its file among those that are taken;
* has **claimed** the path, examines the file, and reports what there is to report;
* is **leaving**, still with its permit, also if it came too late to claim its path;
* has **released** its permit, and sends its result, for which there must be room;
* has **sent** it.

The collector receives results in the order in which they were sent. It concludes when it has
received as many as there are files, or is stopped by a result that failed without a diagnosis. Then
it receives nothing more, and the workers go on without it.

One step keeps `Pool.Sound` (`Sound.step`), hence every run does. From it follows that a step is
possible as long as anything is left to do (`Sound.exists_step`): whoever is inside has a permit to
give back, and if nobody is inside there is a permit to get; and there is room for every result
because no more results are sent than there are files. Pools do nothing that workshops do not do
(`exists_workshop`).
-/

namespace Bracket

namespace Compilation

variable {σ : Type}

/-! ## Stages -/

/-- How far a worker has come. The mark tells whether it has claimed the path of its file; it is for
the record only. -/
inductive Stage where
  | waiting
  | admitted
  | claimed
  | examined (v : Verdict)
  | leaving (owner : Bool) (r : Result)
  | released (owner : Bool) (r : Result)
  | sent (owner : Bool)

namespace Stage

/-- Between getting a permit and giving it back. -/
def isInside : Stage → Bool
  | admitted | claimed | examined _ | leaving _ _ => true
  | _ => false

/-- The worker got past the paths that are taken, and claimed its own. -/
def isOwner : Stage → Bool
  | claimed | examined _ => true
  | leaving owner _ | released owner _ | sent owner => owner
  | _ => false

/-- The worker found its path taken. -/
def isLate : Stage → Bool
  | leaving owner _ | released owner _ | sent owner => !owner
  | _ => false

/-- The worker is done. -/
def isSent : Stage → Bool
  | sent _ => true
  | _ => false

/-- How many steps are left to do, twice the last one: the result has to be received, too. -/
def left : Stage → Nat
  | waiting => 7
  | admitted => 6
  | claimed => 5
  | examined _ => 4
  | leaving _ _ => 3
  | released _ _ => 2
  | sent _ => 0

end Stage

structure Worker (σ : Type) where
  file : File σ
  stage : Stage

/-! ## Steps -/

/-- What the workers share: the state of the file system, the report, the number of permits that were
given out, the paths that are taken, and the results that were sent and not received. -/
structure Shared (σ : Type) where
  storage : σ
  report : Report
  permits : Nat
  taken : List Bytes
  channel : List Result

/-- What a worker can do, where there are `limit` permits and there is room for `size` results. -/
inductive Act (limit size : Nat) (file : File σ) :
    Shared σ → Stage → Shared σ → Stage → Prop where
  /-- It gets a permit. -/
  | acquire {s : Shared σ} (hpermit : s.permits < limit) :
      Act limit size file s .waiting { s with permits := s.permits + 1 } .admitted
  /-- It finds its path taken. -/
  | skip {s : Shared σ} (htaken : file.path ∈ s.taken) :
      Act limit size file s .admitted s (.leaving false .idle)
  /-- It finds its path free, and claims it. -/
  | claim {s : Shared σ} (hfree : file.path ∉ s.taken) :
      Act limit size file s .admitted { s with taken := file.path :: s.taken } .claimed
  /-- It opens, reads and parses its file. -/
  | examine {s : Shared σ} :
      Act limit size file s .claimed { s with storage := (Compilation.examine file s.storage).2 }
        (.examined (Compilation.examine file s.storage).1)
  /-- It reports its diagnosis, if there is one. -/
  | tell {s : Shared σ} {v : Verdict} :
      Act limit size file s (.examined v) { s with report := s.report.addAll v.told }
        (.leaving true (v.result s.report.nonFatal))
  /-- It gives its permit back. -/
  | release {s : Shared σ} {owner : Bool} {r : Result} (hpermit : 0 < s.permits) :
      Act limit size file s (.leaving owner r) { s with permits := s.permits - 1 }
        (.released owner r)
  /-- It sends its result. -/
  | send {s : Shared σ} {owner : Bool} {r : Result} (hroom : s.channel.length < size) :
      Act limit size file s (.released owner r) { s with channel := s.channel ++ [r] } (.sent owner)

/-- The failure of a result that stops the compilation. -/
def Result.stop? (r : Result) : Option Failure :=
  r.failure?.filter fun f => (Diagnosis.first? f).isNone

/-- A result stops the collector iff it does not pass. -/
theorem Result.stop?_eq_none_iff {r : Result} : r.stop? = none ↔ r.Passes := by
  cases hf : r.failure? with
  | none => simp [stop?, Passes, hf]
  | some f => cases hd : Diagnosis.first? f <;> simp [stop?, Passes, hf, hd, Option.filter]

/-- A result that stops the compilation does so whatever comes behind it. -/
theorem gather_append_of_error {results : List Result} {f : Failure}
    (h : gather results = .error f) (more : List Result) : gather (results ++ more) = .error f := by
  induction results with
  | nil => simp [gather] at h
  | cons r rest ih =>
    rw [List.cons_append]
    unfold gather at h ⊢
    cases hf : r.failure? with
    | none =>
      rw [hf] at h
      cases hrest : gather rest with
      | ok modules => simp [hrest, Except.map] at h
      | error f' =>
        obtain rfl : f' = f := by simpa [hrest, Except.map] using h
        simp [ih hrest, Except.map]
    | some f' =>
      cases hd : Diagnosis.first? f' with
      | none => simpa [hf, hd] using h
      | some d =>
        simp only [hf, hd] at h ⊢
        exact ih h

/-- The first result that stops the compilation is the one that is told. -/
theorem gather_eq_error_of_stop? {results : List Result} (hpass : ∀ r ∈ results, r.Passes)
    {r : Result} {f : Failure} (h : r.stop? = some f) : gather (results ++ [r]) = .error f := by
  obtain ⟨hf, hd⟩ : r.failure? = some f ∧ Diagnosis.first? f = none := by
    simpa [Result.stop?, Option.filter_eq_some_iff] using h
  induction results with
  | nil => simp [gather, hf, hd]
  | cons first rest ih =>
    obtain ⟨hfirst, hrest⟩ := List.forall_mem_cons.mp hpass
    rw [List.cons_append]
    unfold gather
    cases hf' : first.failure? with
    | none => simp [ih hrest, Except.map]
    | some f' =>
      obtain ⟨d, hd'⟩ := Option.isSome_iff_exists.mp (hfirst f' hf')
      simp [hd', ih hrest]

/-- Workers with their permits, and whoever collects their results. -/
structure Pool (σ : Type) where
  shared : Shared σ
  workers : List (Worker σ)
  received : List Result
  answer? : Option Answer

namespace Pool

/-- One worker for each file, all of them waiting. -/
def start (files : List (File σ)) (p : Progress σ) : Pool σ :=
  ⟨⟨p.storage, p.report, 0, [], []⟩, files.map fun file => ⟨file, .waiting⟩, [], none⟩

/-- A worker or the collector moves on. -/
inductive Step (limit size : Nat) : Pool σ → Pool σ → Prop where
  /-- A worker acts. -/
  | act {w : Pool σ} {before after : List (Worker σ)} {file : File σ} {stage stage' : Stage}
      {shared : Shared σ} (hworkers : w.workers = before ++ ⟨file, stage⟩ :: after)
      (hact : Act limit size file w.shared stage shared stage') :
      Step limit size w
        { w with shared := shared, workers := before ++ ⟨file, stage'⟩ :: after }
  /-- The collector receives the next result. -/
  | receive {w : Pool σ} {r : Result} {rest : List Result} (hopen : w.answer? = none)
      (hleft : w.received.length < size) (hchannel : w.shared.channel = r :: rest) :
      Step limit size w
        { w with
          shared := { w.shared with channel := rest }
          received := w.received ++ [r]
          answer? := r.stop?.map .stopped }
  /-- The collector has received all results. -/
  | conclude {w : Pool σ} (hopen : w.answer? = none) (hall : size ≤ w.received.length) :
      Step limit size w
        { w with
          answer? := (Compilation.answer w.received (.start w.shared.storage w.shared.report)).1 }

abbrev Steps (limit size : Nat) : Pool σ → Pool σ → Prop :=
  Relation.ReflTransGen (Step limit size)

/-- All workers have sent their results, and the collector has given its answer. -/
structure Done (w : Pool σ) : Prop where
  sent : ∀ x ∈ w.workers, x.stage.isSent = true
  answered : w.answer? ≠ none

/-- How many workers there are of a kind. -/
def count (w : Pool σ) (kind : Stage → Bool) : Nat := w.workers.countP fun x => kind x.stage

/-- How many workers have claimed a path. -/
def owners (w : Pool σ) (path : Bytes) : Nat :=
  w.workers.countP fun x => x.stage.isOwner && x.file.path == path

/-- How many steps are left to do. -/
def left (w : Pool σ) : Nat :=
  (w.workers.map (·.stage.left)).sum + w.shared.channel.length + if w.answer? = none then 1 else 0

end Pool

/-! ## One worker

What a worker does to the shared state, and to its own stage, keeps the books.
-/

namespace Act

variable {limit size : Nat} {file : File σ} {s s' : Shared σ} {stage stage' : Stage}

/-- A permit is given out to whoever goes inside, and comes back from whoever leaves. -/
theorem permits_eq (h : Act limit size file s stage s' stage') :
    s'.permits + stage.isInside.toNat = s.permits + stage'.isInside.toNat := by
  cases h with
  | release hpermit =>
    simp only [Stage.isInside, Bool.toNat_true, Bool.toNat_false]
    omega
  | _ => simp [Stage.isInside]

/-- No act takes a permit beyond the limit. -/
theorem permits_le (h : Act limit size file s stage s' stage') (hs : s.permits ≤ limit) :
    s'.permits ≤ limit := by
  cases h with
  | acquire hpermit => exact hpermit
  | release _ => exact Nat.le_trans (Nat.sub_le _ _) hs
  | _ => exact hs

/-- Results come into the channel from workers that have sent them. -/
theorem channel_eq (h : Act limit size file s stage s' stage') :
    s'.channel.length + stage.isSent.toNat = s.channel.length + stage'.isSent.toNat := by
  cases h <;> simp [Stage.isSent]

/-- A path is taken by whoever becomes its owner, and was free until then. -/
theorem taken_cases (h : Act limit size file s stage s' stage') :
    (s'.taken = s.taken ∧ stage'.isOwner = stage.isOwner) ∨
      (s'.taken = file.path :: s.taken ∧ file.path ∉ s.taken ∧ stage.isOwner = false ∧
        stage'.isOwner = true) := by
  cases h with
  | claim hfree => exact .inr ⟨rfl, hfree, rfl, rfl⟩
  | _ => exact .inl ⟨rfl, rfl⟩

/-- Whoever comes too late has found its path taken. -/
theorem late (h : Act limit size file s stage s' stage') (hlate : stage'.isLate = true) :
    stage.isLate = true ∨ file.path ∈ s.taken := by
  cases h with
  | skip htaken => exact .inr htaken
  | release _ => exact .inl hlate
  | send _ => exact .inl hlate
  | _ => simp [Stage.isLate] at hlate

/-- Every act leaves less to do, also the sending of a result, which leaves it to be received. -/
theorem left_lt (h : Act limit size file s stage s' stage') :
    stage'.left + s'.channel.length < stage.left + s.channel.length := by
  cases h with
  | send _ =>
    simp only [Stage.left, List.length_append, List.length_singleton]
    omega
  | _ => simp [Stage.left]

end Act

/-! ## The invariant -/

namespace Pool

variable {limit size : Nat} {files : List (File σ)} {p : Progress σ} {w w' : Pool σ}

/-- The paths of the workers that have claimed theirs. -/
def owned (workers : List (Worker σ)) : List Bytes :=
  (workers.filter (·.stage.isOwner)).map (·.file.path)

/-- A path has as many owners as it stands among the owned paths. -/
theorem owners_eq (w : Pool σ) (path : Bytes) : w.owners path = (owned w.workers).count path := by
  rw [owned, List.count_eq_countP, List.countP_map, List.countP_filter, owners]
  refine List.countP_congr fun x _ => ?_
  simp [and_comm]

theorem mem_owned {workers : List (Worker σ)} {x : Worker σ} (hx : x ∈ workers)
    (howner : x.stage.isOwner = true) : x.file.path ∈ owned workers :=
  List.mem_map.mpr ⟨x, List.mem_filter.mpr ⟨hx, howner⟩, rfl⟩

/-- When one worker acts, it is counted at its new stage and no longer at its old one. -/
theorem countP_act (kind : Stage → Bool) (before after : List (Worker σ)) (file : File σ)
    (stage stage' : Stage) :
    (before ++ ⟨file, stage'⟩ :: after).countP (fun x => kind x.stage) + (kind stage).toNat =
      (before ++ ⟨file, stage⟩ :: after).countP (fun x => kind x.stage) + (kind stage').toNat := by
  simp only [List.countP_append, List.countP_cons]
  cases kind stage <;> cases kind stage' <;> simp <;> omega

/-- The answer of the collector is due to a result that stopped it, or to all of the results. Then no
worker can change anything any more. -/
def Answered (w : Pool σ) (a : Answer) : Prop :=
  (∃ f, a = .stopped f ∧ gather w.received = .error f) ∨
    ((∀ x ∈ w.workers, x.stage.isSent = true) ∧ w.shared.channel = [] ∧
      a = (Compilation.answer w.received (.start w.shared.storage w.shared.report)).1)

/-- What all pools of a run have in common. -/
structure Sound (limit : Nat) (files : List (File σ)) (w : Pool σ) : Prop where
  files : w.workers.map (·.file) = files
  permits : w.shared.permits = w.count Stage.isInside
  limited : w.shared.permits ≤ limit
  nodup : w.shared.taken.Nodup
  taken : w.shared.taken.Perm (owned w.workers)
  late : ∀ x ∈ w.workers, x.stage.isLate = true → x.file.path ∈ w.shared.taken
  sent : w.received.length + w.shared.channel.length = w.count Stage.isSent
  passed : w.answer? = none → ∀ r ∈ w.received, r.Passes
  answered : ∀ a, w.answer? = some a → w.Answered a

theorem sound_start (limit : Nat) (files : List (File σ)) (p : Progress σ) :
    (start files p).Sound limit files where
  files := by simp [start, Function.comp_def]
  permits := by simp [start, count, List.countP_map, Function.comp_def, Stage.isInside]
  limited := Nat.zero_le limit
  nodup := List.nodup_nil
  taken := by simp [start, owned, List.filter_map, Function.comp_def, Stage.isOwner]
  late := by simp [start, Stage.isLate]
  sent := by simp [start, count, List.countP_map, Function.comp_def, Stage.isSent]
  passed := by simp [start]
  answered := by simp [start]

theorem Sound.length_workers (h : w.Sound limit files) : w.workers.length = files.length := by
  rw [← h.files, List.length_map]

/-- No more results are sent than there are files, and as many only if all workers are done. -/
theorem Sound.length_le (h : w.Sound limit files) :
    w.received.length + w.shared.channel.length ≤ files.length ∧
      (w.received.length + w.shared.channel.length = files.length →
        ∀ x ∈ w.workers, x.stage.isSent = true) := by
  rw [h.sent, ← h.length_workers]
  exact ⟨List.countP_le_length, fun hall => List.countP_eq_length.mp hall⟩

/-- The books are kept when a worker acts. -/
theorem Sound.act (h : w.Sound limit files) {before after : List (Worker σ)} {file : File σ}
    {stage stage' : Stage} {shared : Shared σ}
    (hworkers : w.workers = before ++ ⟨file, stage⟩ :: after)
    (hact : Act limit size file w.shared stage shared stage') :
    Sound limit files
      { w with shared := shared, workers := before ++ ⟨file, stage'⟩ :: after } := by
  have hcount : ∀ kind : Stage → Bool,
      (before ++ ⟨file, stage'⟩ :: after).countP (fun x => kind x.stage) + (kind stage).toNat =
        w.count kind + (kind stage').toNat := by
    intro kind
    rw [count, hworkers]
    exact countP_act kind before after file stage stage'
  have hother : ∀ x, x ∈ before ++ after → x ∈ w.workers := by
    intro x hx
    rw [hworkers]
    exact (List.sublist_cons_self _ _).append_left before |>.mem hx
  refine ⟨?_, ?_, hact.permits_le h.limited, ?_, ?_, ?_, ?_, h.passed, ?_⟩
  · have hfiles := h.files
    rw [hworkers] at hfiles
    simpa using hfiles
  · have hinside := hcount Stage.isInside
    have hpermits := hact.permits_eq
    rw [h.permits] at hpermits
    show shared.permits = (before ++ ⟨file, stage'⟩ :: after).countP (fun x => x.stage.isInside)
    omega
  · rcases hact.taken_cases with ⟨htaken, -⟩ | ⟨htaken, hfree, -⟩
    · exact htaken ▸ h.nodup
    · exact htaken ▸ List.nodup_cons.mpr ⟨hfree, h.nodup⟩
  · -- a new owner is put where it stands among the others
    have htaken' := h.taken
    simp only [owned, hworkers, List.filter_append, List.filter_cons] at htaken' ⊢
    rcases hact.taken_cases with ⟨htaken, howner⟩ | ⟨htaken, -, howner, howner'⟩
    · rw [htaken, howner]
      split at htaken' <;> simp_all
    · rw [howner] at htaken'
      rw [htaken, if_pos howner', List.map_append, List.map_cons]
      refine (htaken'.cons file.path).trans ?_
      simpa using (List.perm_middle (a := file.path)).symm
  · have hkept : ∀ path ∈ w.shared.taken, path ∈ shared.taken := by
      intro path hpath
      rcases hact.taken_cases with ⟨htaken, -⟩ | ⟨htaken, -⟩
      · exact htaken ▸ hpath
      · exact htaken ▸ List.mem_cons_of_mem _ hpath
    intro x hx hlate
    rcases List.mem_append.mp hx with hx | hx
    · exact hkept _ (h.late x (hother x (List.mem_append_left _ hx)) hlate)
    · rcases List.mem_cons.mp hx with rfl | hx
      · rcases hact.late hlate with hlate' | htaken
        · exact hkept _ (h.late ⟨file, stage⟩ (by simp [hworkers]) hlate')
        · exact hkept _ htaken
      · exact hkept _ (h.late x (hother x (List.mem_append_right _ hx)) hlate)
  · have hsent := hcount Stage.isSent
    have hchannel := hact.channel_eq
    have hbefore := h.sent
    show w.received.length + shared.channel.length =
      (before ++ ⟨file, stage'⟩ :: after).countP (fun x => x.stage.isSent)
    omega
  · intro a ha
    rcases h.answered a ha with hstopped | ⟨hall, -⟩
    · exact .inl hstopped
    · -- a worker that has sent its result does nothing any more
      have hdone : stage.isSent = true := hall ⟨file, stage⟩ (by simp [hworkers])
      cases hact <;> simp [Stage.isSent] at hdone

/-- **One step keeps the books.** -/
theorem Sound.step (h : w.Sound limit files) (hstep : Step limit files.length w w') :
    w'.Sound limit files := by
  cases hstep with
  | act hworkers hact => exact h.act hworkers hact
  | @receive r rest hopen hleft hchannel =>
    have hsent := h.sent
    rw [hchannel, List.length_cons] at hsent
    refine ⟨h.files, h.permits, h.limited, h.nodup, h.taken, h.late, ?_, ?_, ?_⟩
    · rw [List.length_append, List.length_singleton]
      exact (by omega : w.received.length + 1 + rest.length = w.count Stage.isSent)
    · intro hgoes
      have hpasses : r.Passes := Result.stop?_eq_none_iff.mp (Option.map_eq_none_iff.mp hgoes)
      exact List.forall_mem_append.mpr ⟨h.passed hopen, by simpa using hpasses⟩
    · intro a ha
      obtain ⟨f, hf, rfl⟩ := Option.map_eq_some_iff.mp ha
      exact .inl ⟨f, rfl, gather_eq_error_of_stop? (h.passed hopen) hf⟩
  | conclude hopen hall =>
    refine ⟨h.files, h.permits, h.limited, h.nodup, h.taken, h.late, h.sent, by simp, ?_⟩
    rintro a ⟨rfl⟩
    obtain ⟨hle, hdone⟩ := h.length_le
    refine .inr ⟨hdone (by omega), List.length_eq_zero_iff.mp ?_, rfl⟩
    exact (by omega : w.shared.channel.length = 0)

/-- **Every pool that a run leads to is sound.** -/
theorem Sound.of_steps (h : Steps limit files.length (start files p) w) : w.Sound limit files := by
  induction h with
  | refl => exact sound_start limit files p
  | tail _ hstep ih => exact ih.step hstep

/-! ## Paths -/

/-- No path has two owners. -/
theorem Sound.owners_le_one (h : w.Sound limit files) (path : Bytes) : w.owners path ≤ 1 := by
  rw [owners_eq, ← h.taken.count_eq]
  exact List.nodup_iff_count_le_one.mp h.nodup path

/-- Once nobody has yet to look for its path, every path has its owner. -/
theorem Sound.owners_eq_one (h : w.Sound limit files)
    (hpast : ∀ x ∈ w.workers, x.stage ≠ .waiting ∧ x.stage ≠ .admitted) {file : File σ}
    (hfile : file ∈ files) : w.owners file.path = 1 := by
  rw [← h.files] at hfile
  obtain ⟨x, hx, rfl⟩ := List.mem_map.mp hfile
  have htaken : x.file.path ∈ w.shared.taken := by
    have hcases : x.stage.isOwner = true ∨ x.stage.isLate = true := by
      have hx' := hpast x hx
      cases hstage : x.stage <;> simp_all [Stage.isOwner, Stage.isLate]
    rcases hcases with howner | hlate
    · exact h.taken.mem_iff.mpr (mem_owned hx howner)
    · exact h.late x hx hlate
  rw [owners_eq, ← h.taken.count_eq]
  exact List.count_eq_one_of_mem h.nodup htaken

/-! ## Nobody is blocked for good -/

/-- A worker that is inside can move on. -/
theorem Sound.exists_act_of_inside (h : w.Sound limit files) {x : Worker σ} (hx : x ∈ w.workers)
    (hinside : x.stage.isInside = true) :
    ∃ shared stage, Act limit files.length x.file w.shared x.stage shared stage := by
  obtain ⟨file, stage⟩ := x
  cases stage with
  | admitted =>
    by_cases htaken : file.path ∈ w.shared.taken
    · exact ⟨_, _, .skip htaken⟩
    · exact ⟨_, _, .claim htaken⟩
  | claimed => exact ⟨_, _, .examine⟩
  | examined v => exact ⟨_, _, .tell⟩
  | leaving owner r =>
    -- its own permit is among those that were given out
    refine ⟨_, _, .release ?_⟩
    rw [h.permits]
    exact List.countP_pos_iff.mpr ⟨_, hx, rfl⟩
  | waiting => simp [Stage.isInside] at hinside
  | released owner r => simp [Stage.isInside] at hinside
  | sent owner => simp [Stage.isInside] at hinside

/-- Some worker can move on as long as one of them has not sent its result. -/
theorem Sound.exists_act (h : w.Sound limit files) (hlimit : 0 < limit) {x : Worker σ}
    (hx : x ∈ w.workers) (hsent : x.stage.isSent = false) :
    ∃ y ∈ w.workers, ∃ shared stage,
      Act limit files.length y.file w.shared y.stage shared stage := by
  by_cases hinside : ∃ y ∈ w.workers, y.stage.isInside = true
  · obtain ⟨y, hy, hinside⟩ := hinside
    exact ⟨y, hy, h.exists_act_of_inside hy hinside⟩
  · obtain ⟨file, stage⟩ := x
    cases stage with
    | waiting =>
      -- nobody is inside, so that all permits are there
      refine ⟨_, hx, _, _, .acquire ?_⟩
      have hnone : w.count Stage.isInside = 0 :=
        List.countP_eq_zero.mpr fun y hy hin => hinside ⟨y, hy, hin⟩
      rw [h.permits, hnone]
      exact hlimit
    | released owner r =>
      -- its own result is not among those that were sent
      refine ⟨_, hx, _, _, .send ?_⟩
      obtain ⟨hle, hall⟩ := h.length_le
      have hne : w.received.length + w.shared.channel.length ≠ files.length := by
        intro heq
        have hdone := hall heq _ hx
        simp [Stage.isSent] at hdone
      omega
    | sent owner => simp [Stage.isSent] at hsent
    | admitted => exact absurd ⟨_, hx, rfl⟩ hinside
    | claimed => exact absurd ⟨_, hx, rfl⟩ hinside
    | examined v => exact absurd ⟨_, hx, rfl⟩ hinside
    | leaving owner r => exact absurd ⟨_, hx, rfl⟩ hinside

/-- **A step is possible as long as there is anything to do.** -/
theorem Sound.exists_step (h : w.Sound limit files) (hlimit : 0 < limit)
    (hleft : (∃ x ∈ w.workers, x.stage.isSent = false) ∨ w.answer? = none) :
    ∃ w', Step limit files.length w w' := by
  by_cases hworkers : ∃ x ∈ w.workers, x.stage.isSent = false
  · obtain ⟨x, hx, hsent⟩ := hworkers
    obtain ⟨y, hy, shared, stage, hact⟩ := h.exists_act hlimit hx hsent
    obtain ⟨before, after, hsplit⟩ := List.append_of_mem hy
    exact ⟨_, .act hsplit hact⟩
  · have hopen := hleft.resolve_left hworkers
    have hall : w.count Stage.isSent = files.length := by
      rw [← h.length_workers]
      exact List.countP_eq_length.mpr fun x hx => by_contra fun hx' =>
        hworkers ⟨x, hx, by simpa using hx'⟩
    have hsent := h.sent
    cases hchannel : w.shared.channel with
    | nil =>
      rw [hchannel, List.length_nil] at hsent
      exact ⟨_, .conclude hopen (by omega)⟩
    | cons r rest =>
      rw [hchannel, List.length_cons] at hsent
      exact ⟨_, .receive hopen (by omega) hchannel⟩

/-- **Every step leaves less to do.** -/
theorem Step.left_lt (h : Step limit size w w') : w'.left < w.left := by
  cases h with
  | act hworkers hact =>
    have hlt := hact.left_lt
    simp only [left, hworkers, List.map_append, List.map_cons, List.sum_append, List.sum_cons]
    omega
  | @receive r rest hopen hleft hchannel =>
    simp only [left, hchannel, hopen, List.length_cons, if_true]
    split <;> omega
  | conclude hopen hall =>
    simp [left, hopen]

/-- **No worker is blocked for good:** every pool of a run can be brought to its end. -/
theorem Sound.exists_done (h : w.Sound limit files) (hlimit : 0 < limit) :
    ∃ w', Steps limit files.length w w' ∧ w'.Done := by
  induction hleft : w.left using Nat.strong_induction_on generalizing w with
  | _ n ih =>
    by_cases hdone : (∃ x ∈ w.workers, x.stage.isSent = false) ∨ w.answer? = none
    · obtain ⟨w', hstep⟩ := h.exists_step hlimit hdone
      obtain ⟨w'', hsteps, hdone'⟩ := ih w'.left (hleft ▸ hstep.left_lt) (h.step hstep) rfl
      exact ⟨w'', .head hstep hsteps, hdone'⟩
    · obtain ⟨hsent, hanswered⟩ := not_or.mp hdone
      refine ⟨w, .refl, ⟨fun x hx => by_contra fun hx' => hsent ⟨x, hx, by simpa using hx'⟩,
        hanswered⟩⟩

/-! ## A pool is a workshop

Permits, sending and receiving only decide who moves when. Seen from outside, the workers that have
not looked for their path are waiting, and those that are done have finished, until the collector
receives what they sent.
-/

/-- The file of a worker that has not looked for its path. -/
def early? (x : Worker σ) : Option (File σ) :=
  match x.stage with
  | .waiting | .admitted => some x.file
  | _ => none

/-- The file of a worker that has claimed its path. -/
def claimed? (x : Worker σ) : Option (File σ) :=
  match x.stage with
  | .claimed => some x.file
  | _ => none

/-- The verdict that a worker has to report. -/
def examined? (x : Worker σ) : Option Verdict :=
  match x.stage with
  | .examined v => some v
  | _ => none

/-- The result that a worker has to send. -/
def unsent? (x : Worker σ) : Option Result :=
  match x.stage with
  | .leaving _ r | .released _ r => some r
  | _ => none

/-- The workshop that is seen when one looks at a pool from outside, with a history of what was
examined. -/
def seen (w : Pool σ) (history : List (File σ × σ)) : Workshop σ where
  storage := w.shared.storage
  report := w.shared.report
  taken := w.shared.taken
  waiting := w.workers.filterMap early?
  claimed := w.workers.filterMap claimed?
  examined := w.workers.filterMap examined?
  finished := w.workers.filterMap unsent? ++ w.shared.channel
  arrived := w.received
  history := history

theorem seen_start (files : List (File σ)) (p : Progress σ) :
    (start files p).seen [] = .start files p := by
  simp [seen, start, Workshop.start, List.filterMap_map, Function.comp_def, early?, claimed?,
    examined?, unsent?]

theorem filterMap_middle {α β : Type} (f : α → Option β) (before after : List α) (x : α) :
    ((before ++ x :: after).filterMap f).Perm
      ((f x).toList ++ (before ++ after).filterMap f) := by
  refine (List.perm_middle.filterMap f).trans (List.Perm.of_eq ?_)
  cases hf : f x with
  | none => rw [List.filterMap_cons_none hf, Option.toList_none, List.nil_append]
  | some b => rw [List.filterMap_cons_some hf, Option.toList_some, List.singleton_append]

/-- What is seen of a pool, with one of its workers in front. -/
theorem seen_middle {before after : List (Worker σ)} {x : Worker σ}
    (hworkers : w.workers = before ++ x :: after) (history : List (File σ × σ)) :
    w.seen history = {
      storage := w.shared.storage
      report := w.shared.report
      taken := w.shared.taken
      waiting := (early? x).toList ++ (before ++ after).filterMap early?
      claimed := (claimed? x).toList ++ (before ++ after).filterMap claimed?
      examined := (examined? x).toList ++ (before ++ after).filterMap examined?
      finished := (unsent? x).toList ++ ((before ++ after).filterMap unsent? ++ w.shared.channel)
      arrived := w.received
      history := history } := by
  have hperm {β : Type} (f : Worker σ → Option β) := hworkers ▸ filterMap_middle f before after x
  simp only [seen, Workshop.mk.injEq, Multiset.coe_eq_coe, ← List.append_assoc, true_and, and_true]
  exact ⟨hperm early?, hperm claimed?, hperm examined?, (hperm unsent?).append_right _⟩

/-- **Whatever happens in a pool happens in a workshop.** -/
theorem Step.exists_seen (h : Step limit size w w') (history : List (File σ × σ)) :
    ∃ history', Workshop.Steps (w.seen history) (w'.seen history') := by
  cases h with
  | @act before after file stage stage' shared hworkers hact =>
    have hafter := seen_middle (w := { w with
      shared := shared, workers := before ++ ⟨file, stage'⟩ :: after }) rfl
    rw [seen_middle hworkers]
    cases hact with
    | acquire _ => exact ⟨history, hafter history ▸ .refl⟩
    | skip htaken => exact ⟨history, hafter history ▸ .single (.skip rfl htaken)⟩
    | claim hfree => exact ⟨history, hafter history ▸ .single (.claim rfl hfree)⟩
    | examine =>
      exact ⟨(file, w.shared.storage) :: history, hafter _ ▸ .single (.examine rfl)⟩
    | tell => exact ⟨history, hafter history ▸ .single (.tell rfl)⟩
    | release _ => exact ⟨history, hafter history ▸ .refl⟩
    | @send owner r _ =>
      -- the result is finished before and after it is sent
      have hperm : ([r] ++ ((before ++ after).filterMap unsent? ++ w.shared.channel)).Perm
          ([] ++ ((before ++ after).filterMap unsent? ++ (w.shared.channel ++ [r]))) := by
        rw [List.nil_append, ← List.append_assoc _ w.shared.channel]
        exact List.perm_append_comm
      refine ⟨history, ?_⟩
      simp only [hafter, early?, claimed?, examined?, unsent?, Option.toList_some,
        Option.toList_none, Multiset.coe_eq_coe.mpr hperm]
      exact .refl
  | @receive r rest hopen hleft hchannel =>
    refine ⟨history, .single ?_⟩
    have hfinished : (w.seen history).finished =
        r ::ₘ (w.workers.filterMap unsent? ++ rest : List Result) := by
      simp only [seen, hchannel]
      exact Multiset.coe_eq_coe.mpr List.perm_middle
    exact .arrive hfinished
  | conclude hopen hall => exact ⟨history, .refl⟩

/-- **Every run of the pool is a run of the workshop**, which knows nothing of permits and channels.
-/
theorem exists_seen (h : Steps limit size (start files p) w) :
    ∃ history, Workshop.Steps (.start files p) (w.seen history) := by
  induction h with
  | refl => exact ⟨[], seen_start files p ▸ .refl⟩
  | tail _ hstep ih =>
    obtain ⟨history, hsteps⟩ := ih
    obtain ⟨history', hsteps'⟩ := hstep.exists_seen history
    exact ⟨history', hsteps.trans hsteps'⟩

/-- When all workers have sent their results and all results are received, the workshop is done. -/
theorem done_seen (hsent : ∀ x ∈ w.workers, x.stage.isSent = true) (hchannel : w.shared.channel = [])
    (history : List (File σ × σ)) : (w.seen history).Done := by
  have hnone {β : Type} (f : Worker σ → Option β)
      (hf : ∀ file owner, f ⟨file, .sent owner⟩ = none) : w.workers.filterMap f = [] := by
    refine List.filterMap_eq_nil_iff.mpr fun x hx => ?_
    obtain ⟨file, stage⟩ := x
    have hx' := hsent _ hx
    cases stage with
    | sent owner => exact hf file owner
    | _ => simp [Stage.isSent] at hx'
  refine ⟨?_, ?_, ?_, ?_⟩
  · exact congrArg _ (hnone early? fun _ _ => rfl)
  · exact congrArg _ (hnone claimed? fun _ _ => rfl)
  · exact congrArg _ (hnone examined? fun _ _ => rfl)
  · simp [seen, hchannel, hnone unsent? fun _ _ => rfl]

/-- **The collector answers as a workshop does.** Also if it is stopped early, there is a workshop
in which all results arrive and which gives that answer. -/
theorem Sound.exists_workshop (h : w.Sound limit files)
    (hsteps : Steps limit files.length (start files p) w) {a : Answer} (ha : w.answer? = some a) :
    ∃ v, Workshop.Steps (.start files p) v ∧ v.Done ∧ v.answer = a := by
  obtain ⟨history, hseen⟩ := exists_seen hsteps
  rcases h.answered a ha with ⟨f, rfl, hgather⟩ | ⟨hsent, hchannel, rfl⟩
  · obtain ⟨v, hmore, hdone⟩ := (w.seen history).exists_done
    obtain ⟨more, harrived⟩ := Workshop.exists_arrived hmore
    have hgather' : gather v.arrived = .error f := by
      rw [harrived]
      exact gather_append_of_error hgather more
    exact ⟨v, hseen.trans hmore, hdone, by simp only [Workshop.answer, Compilation.answer, hgather']⟩
  · exact ⟨_, hseen, done_seen hsent hchannel history, rfl⟩

/-- **The pool is safe and nobody in it is blocked, whatever the order of steps.** In every pool that
a run leads to, with at least one permit,

* no more workers are inside than there are permits;
* no path has two owners, and every path has one when all workers have looked for theirs;
* each worker has sent its result or has yet to send it, and no result is lost or comes twice;
* a step is possible as long as a worker has not sent its result or there is no answer, also if the
  collector was stopped early. Every step leaves less to do, so every run comes to its end;
* the answer, if there is one, is that of a workshop in which all results arrive. -/
theorem steps_safe_and_live {limit : Nat} (hlimit : 0 < limit) {files : List (File σ)}
    {p : Progress σ} {w : Pool σ} (h : Steps limit files.length (start files p) w) :
    w.count Stage.isInside ≤ limit ∧
    (∀ path, w.owners path ≤ 1) ∧
    ((∀ x ∈ w.workers, x.stage ≠ .waiting ∧ x.stage ≠ .admitted) →
      ∀ file ∈ files, w.owners file.path = 1) ∧
    w.received.length + w.shared.channel.length + w.count (fun stage => !stage.isSent) =
      files.length ∧
    ((∃ x ∈ w.workers, x.stage.isSent = false) ∨ w.answer? = none →
      ∃ w', Step limit files.length w w') ∧
    (∀ w', Step limit files.length w w' → w'.left < w.left) ∧
    (∃ w', Steps limit files.length w w' ∧ w'.Done) ∧
    (∀ a, w.answer? = some a →
      ∃ v, Workshop.Steps (.start files p) v ∧ v.Done ∧ v.answer = a) := by
  have hsound := Sound.of_steps h
  refine ⟨hsound.permits ▸ hsound.limited, hsound.owners_le_one,
    fun hpast file hfile => hsound.owners_eq_one hpast hfile, ?_, hsound.exists_step hlimit,
    fun _ hstep => hstep.left_lt, hsound.exists_done hlimit,
    fun a ha => hsound.exists_workshop h ha⟩
  rw [hsound.sent, ← hsound.length_workers,
    List.length_eq_countP_add_countP fun x : Worker σ => x.stage.isSent]
  simp [count]

/-- A source without any content that fails to close. -/
def jammed : File Unit :=
  ⟨[0x2F, 0x61], .brainfuck, fun s => (.ok ⟨[], none, none, some .noProgress⟩, s)⟩

theorem examine_jammed : examine jammed () = (.unread .noProgress, ()) := by
  have hflows : (Body.ofDevice jammed.path ⟨[], none, none, some .noProgress⟩).device.Flows := by
    simp [Device.Flows, Body.ofDevice]
  obtain ⟨r, hr, htokens⟩ := Module.tokens_eq hflows
  rw [hr.close_eq (Body.isEndOfInput_finish _)] at htokens
  have hread : readFile jammed () = .error .noProgress := by
    show (Module.tokens false _).1 = _
    rw [htokens]
    rfl
  simp only [examine, hread]
  rfl

/-- Two workers on the same path and one permit. The first of them fails without a diagnosis, and the
collector is stopped before the second has its permit. The second still has its turn. -/
theorem steps_safe_and_live_stopped :
    ∃ w : Pool Unit, Steps 1 2 (start [jammed, jammed] (.start () (.empty []))) w ∧
      w.answer? = some (.stopped .noProgress) ∧ w.workers.map (·.stage) = [.sent true, .waiting] ∧
      w.owners jammed.path ≤ 1 ∧ ∃ w', Step 1 2 w w' := by
  have hact {s s' : Shared Unit} {stage stage' : Stage} (h : Act 1 2 jammed s stage s' stage') :
      Step 1 2 ⟨s, [⟨jammed, stage⟩, ⟨jammed, .waiting⟩], [], none⟩
        ⟨s', [⟨jammed, stage'⟩, ⟨jammed, .waiting⟩], [], none⟩ := by
    have hworkers : [⟨jammed, stage⟩, ⟨jammed, .waiting⟩] =
        [] ++ ⟨jammed, stage⟩ :: [(⟨jammed, .waiting⟩ : Worker Unit)] := rfl
    exact .act (w := ⟨s, [⟨jammed, stage⟩, ⟨jammed, .waiting⟩], [], none⟩) hworkers h
  have hlast : Steps 1 2 (start [jammed, jammed] (.start () (.empty [])))
      ⟨⟨(), .empty [], 0, [jammed.path], []⟩, [⟨jammed, .sent true⟩, ⟨jammed, .waiting⟩],
        [⟨none, some .noProgress⟩], some (.stopped .noProgress)⟩ := by
    refine .head (hact (.acquire Nat.zero_lt_one)) (.head (hact (.claim (by simp)))
      (.head (hact .examine) ?_))
    rw [examine_jammed]
    refine .head (hact .tell) (.head (hact (.release Nat.zero_lt_one))
      (.head (hact (.send Nat.zero_lt_two)) (.single ?_)))
    exact .receive rfl Nat.zero_lt_two rfl
  obtain ⟨-, howners, -, -, hstep, -⟩ := steps_safe_and_live Nat.zero_lt_one
    (show Steps 1 [jammed, jammed].length _ _ from hlast)
  exact ⟨_, hlast, rfl, rfl, howners _, hstep (.inl ⟨⟨jammed, .waiting⟩, by simp, rfl⟩)⟩

end Pool

end Compilation

end Bracket
