import Bracket.Proofs.Compilation.Schedule
import Bracket.Proofs.Compilation.Selection

/-!
# One request after the other

A compiler serves any number of requests. From one to the next it keeps the state of the file system
and its report, and nothing ever takes a diagnosis out of a report. So a request is answered with
the diagnoses of all requests before it.

That is the only trace of them (`call_behind_earlier`), if the answers of the file system do not
change: two compilers whose reports differ in what they held before do the same work step by step
(`Workshop.Alike`), and so come to the same image, or are stopped by the same failure.
-/

namespace Bracket

/-! ## Answers -/

namespace Answer

/-- The answer that is given behind what was reported earlier. -/
def behind (earlier : List Diagnosis) : Answer → Answer
  | stopped f => stopped f
  | finished image reported => finished image ((earlier ++ reported).mergeSort Report.before)

/-- What was reported earlier can be seen in an answer, unless the compilation was stopped. -/
theorem behind_eq_self_iff {a : Answer} {earlier : List Diagnosis}
    (hlisted : ∀ image reported, a = finished image reported →
      ∃ report : Report, reported = report.listed) :
    a.behind earlier = a ↔ (∃ f, a = stopped f) ∨ earlier = [] := by
  cases a with
  | stopped f => simp [behind]
  | finished image reported =>
    obtain ⟨report, rfl⟩ := hlisted image reported rfl
    simp only [behind, finished.injEq, true_and, reduceCtorEq, exists_false, false_or]
    constructor
    · intro h
      have hlength := congrArg List.length h
      rw [List.length_mergeSort, List.length_append] at hlength
      exact List.length_eq_zero_iff.mp (by omega)
    · rintro rfl
      exact Report.mergeSort_append_mergeSort [] report.arrived

end Answer

variable {σ : Type} {among : σ → Prop}

/-- The verdict on a steady file is always the same. -/
theorem File.Steady.examine {file : File σ} (h : file.Steady among) {s t : σ} (hs : among s)
    (ht : among t) :
    among (Compilation.examine file s).2 ∧
      (Compilation.examine file s).1 = (Compilation.examine file t).1 := by
  constructor
  · unfold Compilation.examine
    split
    · exact h.stays s hs
    · exact hs
  · refine Compilation.examine_congr rfl rfl ?_
    simp only [File.body, h.same s t hs ht]

namespace Compilation

/-! ## Work behind different reports -/

namespace Workshop

/-- What a workshop answers, in terms of what its workers have handed in. -/
theorem answer_eq (w : Workshop σ) :
    w.answer =
      match gather w.arrived with
      | .error f => .stopped f
      | .ok modules => .finished (imageOf modules) w.report.listed := by
  unfold answer Compilation.answer
  split <;> simp_all [Progress.start]

/-- Two workshops that differ in nothing but the state of the file system and what was reported
before the work. -/
structure Alike (among : σ → Prop) (r r' : Report) (w w' : Workshop σ) : Prop where
  storage : among w.storage
  storage' : among w'.storage
  report : ∃ told, w.report = r.addAll told ∧ w'.report = r'.addAll told
  taken : w.taken = w'.taken
  waiting : w.waiting = w'.waiting
  claimed : w.claimed = w'.claimed
  examined : w.examined = w'.examined
  finished : w.finished = w'.finished
  arrived : w.arrived = w'.arrived
  steady : ∀ file, file ∈ w.waiting ∨ file ∈ w.claimed → file.Steady among

variable {r r' : Report} {w w' v : Workshop σ}

/-- Whatever a worker does in one of two workshops can be done in the other. -/
theorem Alike.step (hnonFatal : r.nonFatal = r'.nonFatal) (h : Alike among r r' w w')
    (hstep : Step w v) : ∃ v', Step w' v' ∧ Alike among r r' v v' := by
  obtain ⟨told, hreport, hreport'⟩ := h.report
  cases hstep with
  | @skip file rest hwaiting htaken =>
    refine ⟨_, .skip (h.waiting ▸ hwaiting) (h.taken ▸ htaken), ?_⟩
    exact { h with
      waiting := rfl
      finished := by rw [h.finished]
      steady := fun f hf =>
        h.steady f (hf.imp_left fun hf => hwaiting ▸ Multiset.mem_cons_of_mem hf) }
  | @claim file rest hwaiting hfree =>
    refine ⟨_, .claim (h.waiting ▸ hwaiting) (h.taken ▸ hfree), ?_⟩
    have hmem : ∀ f ∈ file ::ₘ rest, f.Steady among := fun f hf => h.steady f (.inl (hwaiting ▸ hf))
    exact { h with
      waiting := rfl
      taken := by rw [h.taken]
      claimed := by rw [h.claimed]
      steady := by
        rintro f (hf | hf)
        · exact hmem f (Multiset.mem_cons_of_mem hf)
        · rcases Multiset.mem_cons.mp hf with rfl | hf
          · exact hmem f (Multiset.mem_cons_self f rest)
          · exact h.steady f (.inr hf) }
  | @examine file rest hclaimed =>
    refine ⟨_, .examine (h.claimed ▸ hclaimed), ?_⟩
    have hfile : file.Steady among :=
      h.steady file (.inr (hclaimed ▸ Multiset.mem_cons_self file rest))
    obtain ⟨hstays, hsame⟩ := hfile.examine h.storage h.storage'
    exact { h with
      storage := hstays
      storage' := (hfile.examine h.storage' h.storage).1
      claimed := rfl
      examined := by rw [hsame, h.examined]
      steady := fun f hf =>
        h.steady f (hf.imp_right fun hf => hclaimed ▸ Multiset.mem_cons_of_mem hf) }
  | @tell v rest hexamined =>
    refine ⟨_, .tell (h.examined ▸ hexamined), ?_⟩
    exact { h with
      report := ⟨told ++ v.told, by simp [hreport, Report.addAll],
        by simp [hreport', Report.addAll]⟩
      examined := rfl
      finished := by simp only [hreport, hreport', Report.addAll, hnonFatal, h.finished] }
  | @arrive r rest hfinished =>
    refine ⟨_, .arrive (h.finished ▸ hfinished), ?_⟩
    exact { h with
      finished := rfl
      arrived := by rw [h.arrived] }

/-- Whatever a run does in one of two workshops can be done in the other. -/
theorem Alike.steps (hnonFatal : r.nonFatal = r'.nonFatal) (h : Alike among r r' w w')
    (hsteps : Steps w v) : ∃ v', Steps w' v' ∧ Alike among r r' v v' := by
  induction hsteps with
  | refl => exact ⟨w', .refl, h⟩
  | tail _ hstep ih =>
    obtain ⟨v', hsteps', halike⟩ := ih
    obtain ⟨u', hstep', halike'⟩ := halike.step hnonFatal hstep
    exact ⟨u', hsteps'.tail hstep', halike'⟩

/-- If one of two such workshops has nothing left to do, neither has the other. -/
theorem Alike.done (h : Alike among r r' w w') (hdone : w.Done) : w'.Done where
  waiting := h.waiting.symm.trans hdone.waiting
  claimed := h.claimed.symm.trans hdone.claimed
  examined := h.examined.symm.trans hdone.examined
  finished := h.finished.symm.trans hdone.finished

/-- Beside a workshop that nothing was reported before, only what was reported before is added to
the answer. -/
theorem Alike.answer_eq {nonFatal : List Code} (h : Alike among r (.empty nonFatal) w w') :
    w.answer = w'.answer.behind r.arrived := by
  obtain ⟨told, hreport, hreport'⟩ := h.report
  rw [w.answer_eq, w'.answer_eq, ← h.arrived]
  cases gather w.arrived with
  | error f => rfl
  | ok modules =>
    have hlisted := Report.mergeSort_append_mergeSort r.arrived told
    simp only [Answer.behind, hreport, hreport', Report.listed, Report.arrived_addAll, Report.empty,
      List.nil_append, hlisted]

end Workshop

/-! ## Requests one after the other -/

/-- What a compiler keeps between requests. -/
structure Compiler (σ : Type) where
  storage : σ
  report : Report

/-- A compiler that has not been asked for anything. -/
def Compiler.fresh (storage : σ) (nonFatal : List Code) : Compiler σ := ⟨storage, .empty nonFatal⟩

variable {fs : FileSystem σ} {request : Request} {c c' d : Compiler σ} {a : Answer}

/-- A compiler serves a request under some schedule of its workers. They have all come to their end
before the next request, even if the answer was known before. -/
inductive Call (fs : FileSystem σ) (request : Request) (c : Compiler σ) :
    Answer → Compiler σ → Prop where
  | intro {files : List (File σ)} {p : Progress σ} {w : Workshop σ}
      (hcancelled : request.cancelled = false)
      (hselect : select fs request (.start c.storage c.report) = (some files, p))
      (hsteps : Workshop.Steps (.start files p) w) (hdone : w.Done) :
      Call fs request c w.answer ⟨w.storage, w.report⟩

/-- A compiler serves requests in order. -/
inductive Calls (fs : FileSystem σ) (c : Compiler σ) : List Request → Compiler σ → Prop where
  | none : Calls fs c [] c
  | next {requests : List Request} {request : Request} {d d' : Compiler σ} {a : Answer}
      (hearlier : Calls fs c requests d) (hcall : Call fs request d a d') :
      Calls fs c (requests ++ [request]) d'

/-- The request has the one answer, whatever the schedule. -/
def Settled (fs : FileSystem σ) (request : Request) (c : Compiler σ) (a : Answer) : Prop :=
  (∃ c', Call fs request c a c') ∧ ∀ b c', Call fs request c b c' → b = a

/-- What is selected for a request does not depend on the compiler. -/
theorem exists_select_alike (hfs : fs.Steady among) (hc : among c.storage) (hd : among d.storage)
    {files : List (File σ)} {p : Progress σ}
    (hselect : select fs request (.start c.storage c.report) = (some files, p)) :
    ∃ p', select fs request (.start d.storage d.report) = (some files, p') ∧
      Workshop.Alike among c.report d.report (.start files p) (.start files p') := by
  obtain ⟨hfiles, hstays, hreport⟩ := select_spec hfs hc request (p := .start c.storage c.report) hc
  obtain ⟨hfiles', hstays', hreport'⟩ :=
    select_spec hfs hc request (p := .start d.storage d.report) hd
  rw [hselect] at hfiles hstays hreport
  refine ⟨(select fs request (.start d.storage d.report)).2,
    Prod.ext (hfiles'.trans hfiles.symm) rfl, ?_⟩
  obtain ⟨opened, hopened, rfl⟩ := Option.map_eq_some_iff.mp hfiles.symm
  refine ⟨hstays, hstays', ⟨_, hreport, hreport'⟩, rfl, rfl, rfl, rfl, rfl, rfl, ?_⟩
  rintro file (hfile | hfile)
  · rcases List.mem_append.mp (Multiset.mem_coe.mp hfile) with hfile | hfile
    · exact steady_of_mem_selections hfs hc hopened file hfile
    · exact steady_of_mem_inlineFiles among request file hfile
  · exact absurd hfile (Multiset.notMem_zero file)

/-- **Two compilers do the same work**, whatever was reported to them before. -/
theorem Call.exists_alike (hfs : fs.Steady among) (hc : among c.storage) (hd : among d.storage)
    (hnonFatal : c.report.nonFatal = d.report.nonFatal) (h : Call fs request c a c') :
    ∃ w w', Workshop.Alike among c.report d.report w w' ∧ a = w.answer ∧
      c' = ⟨w.storage, w.report⟩ ∧ Call fs request d w'.answer ⟨w'.storage, w'.report⟩ := by
  obtain @⟨files, p, w, hcancelled, hselect, hsteps, hdone⟩ := h
  obtain ⟨p', hselect', halike⟩ := exists_select_alike hfs hc hd hselect
  obtain ⟨w', hsteps', halike'⟩ := halike.steps hnonFatal hsteps
  exact ⟨w, w', halike', rfl, rfl, .intro hcancelled hselect' hsteps' (halike'.done hdone)⟩

/-- Whatever is reported in a listing is all that the compiler holds then. -/
theorem Call.reported_eq (h : Call fs request c a c') :
    ∀ image reported, a = .finished image reported → reported = c'.report.listed := by
  obtain @⟨files, p, w, -, -, -, -⟩ := h
  intro image reported hanswer
  rw [w.answer_eq] at hanswer
  split at hanswer
  · simp at hanswer
  · exact (Answer.finished.inj hanswer).2.symm

/-- The compilation of a request file by file is one way to serve it. -/
theorem Call.exists_run (h : Call fs request c a c') :
    ∃ b d, Call fs request c b d ∧ (run fs request (.start c.storage c.report)).1 = some b := by
  obtain @⟨files, p, -, hcancelled, hselect, -, -⟩ := h
  obtain ⟨w, hsteps, hdone, hrun⟩ := Workshop.exists_run_eq hcancelled hselect
  exact ⟨_, _, .intro hcancelled hselect hsteps hdone, hrun⟩

/-- What a fresh compiler has to report of a request. -/
def Tells (fs : FileSystem σ) (s : σ) (nonFatal : List Code) (request : Request)
    (told : List Diagnosis) : Prop :=
  ∃ a c', Call fs request (.fresh s nonFatal) a c' ∧ c'.report.arrived = told ∧
    ∀ image reported, a = .finished image reported → reported = told.mergeSort Report.before

/-- A compiler holds what it would have had to report of each of the requests afresh. -/
theorem Calls.exists_told (hfs : fs.Steady among) {s : σ} (hs : among s) {nonFatal : List Code}
    {requests : List Request} (h : Calls fs (.fresh s nonFatal) requests c) :
    among c.storage ∧ ∃ told : List (List Diagnosis),
      List.Forall₂ (Tells fs s nonFatal) requests told ∧ c.report = ⟨nonFatal, told.flatten⟩ := by
  induction h with
  | none => exact ⟨hs, [], .nil, rfl⟩
  | @next requests request d d' a hearlier hcall ih =>
    obtain ⟨hd, told, htold, hreport⟩ := ih
    obtain ⟨w, w', halike, rfl, rfl, hcall'⟩ :=
      hcall.exists_alike (d := .fresh s nonFatal) hfs hd hs (by rw [hreport]; rfl)
    obtain ⟨more, hmore, hmore'⟩ := halike.report
    have hmore'' : w'.report.arrived = more := by rw [hmore']; rfl
    refine ⟨halike.storage, told ++ [more], ?_, ?_⟩
    · refine List.rel_append htold (.cons ⟨_, _, hcall', hmore'', ?_⟩ .nil)
      intro image reported hanswer
      rw [hcall'.reported_eq image reported hanswer, Report.listed, hmore'']
    · simp [hmore, hreport, Report.addAll]

/-! ## A single file -/

/-- The one file that there is has the one verdict. -/
theorem Workshop.Sound.verdicts_singleton {file : File σ} {p : Progress σ} {w : Workshop σ}
    (h : w.Sound [file] p) (hdone : w.Done) : w.verdicts = [(examine file p.storage).1] := by
  have hconsistent : Consistent [file] p.storage := by
    refine ⟨by simp, ?_⟩
    intro f hf g hg _ others hothers
    obtain rfl := List.mem_singleton.mp hf
    obtain rfl := List.mem_singleton.mp hg
    have hnone : others = [] :=
      List.eq_nil_iff_forall_not_mem.mpr fun o ho =>
        (hothers o ho).2 (congrArg File.path (List.mem_singleton.mp (hothers o ho).1))
    rw [hnone, visit]
  have hpaths : w.history.map (·.1.path) = [file.path] := by
    rw [← List.perm_singleton, List.perm_ext_iff_of_nodup (h.nodup_history hdone) (by simp)]
    intro path
    rw [h.mem_paths_iff hdone]
    simp [eq_comm]
  rw [h.verdicts_eq hdone hconsistent, hpaths, List.filterMap_cons_some
    (hconsistent.verdictOn_eq List.mem_cons_self), List.filterMap_nil]

/-- It is enough to know what is selected. -/
theorem Settled.of_select {files : List (File σ)} {p : Progress σ}
    (hcancelled : request.cancelled = false)
    (hselect : select fs request (.start c.storage c.report) = (some files, p))
    (hanswer : ∀ w, Workshop.Steps (.start files p) w → w.Done → w.answer = a) :
    Settled fs request c a := by
  obtain ⟨w, hsteps, hdone⟩ := (Workshop.start files p).exists_done
  refine ⟨⟨⟨w.storage, w.report⟩, ?_⟩, ?_⟩
  · rw [← hanswer w hsteps hdone]
    exact .intro hcancelled hselect hsteps hdone
  · rintro _ _ @⟨files', p', w', -, hselect', hsteps', hdone'⟩
    obtain ⟨hfiles, rfl⟩ := Prod.mk.inj (hselect.symm.trans hselect')
    obtain rfl := Option.some.inj hfiles
    exact hanswer w' hsteps' hdone'

/-- A request for one file that is parsed. -/
theorem Settled.of_parsed {file : File σ} {p : Progress σ} {m : Module}
    (hcancelled : request.cancelled = false)
    (hselect : select fs request (.start c.storage c.report) = (some [file], p))
    (hparsed : (examine file p.storage).1 = .parsed m) :
    Settled fs request c (.finished ⟨[m]⟩ p.report.listed) := by
  refine .of_select hcancelled hselect fun w hsteps hdone => ?_
  have hsound := Workshop.Sound.of_steps hsteps
  have hverdicts := hsound.verdicts_singleton hdone
  rw [hparsed] at hverdicts
  have hpass : Workshop.AllPass w.verdicts := by simp [Workshop.AllPass, hverdicts]
  rw [hsound.answer_eq_finished hdone hpass, hverdicts]
  simp [Verdict.modules, Verdict.told, imageOf, distinct]

/-! ## Without any file system -/

/-- No file system at all. -/
def bare : FileSystem Unit := .layered []

/-- A request for the file `/a`. -/
def missing : Request := ⟨[bytes "/a"], [], false, false, false⟩

/-- A request for the program `+`, called `e`. -/
def increment : Request := ⟨[], [(bytes "e", bytes "+")], false, false, false⟩

/-- The image of the program `+`, called `e`. -/
def increments : Image := ⟨[⟨bytes "/e", [.operator .incrementValue]⟩]⟩

theorem steady_bare : bare.Steady fun _ => True where
  stays _ _ _ := trivial
  same _ _ _ _ _ := rfl
  files uri s files _ h := by simp [bare, FileSystem.layered, FileSystem.resolveFirst] at h

theorem settled_increment (c : Compiler Unit) :
    Settled bare increment c (.finished increments c.report.listed) := by
  have hname : Target.normalize (bytes "e") = bytes "/e" := by decide +kernel
  have hselect : select bare increment (.start c.storage c.report) =
      (some [.ofContent (bytes "/e") .brainfuck (bytes "+")], .start c.storage c.report) := by
    simp [select, openTargets, increment, inlineFiles, hname]
  refine .of_parsed rfl hselect (examine_eq_parsed_iff.mpr ⟨rfl, rfl, _, readFile_ofContent .., ?_⟩)
  exact Module.parse_symbols_eq_ok_iff.mpr ⟨rfl, by decide⟩

/-- Without any file system no file is opened for `/a`, and that it was not found is reported. -/
theorem select_missing (c : Compiler Unit) :
    select bare missing (.start c.storage c.report) =
      (some [], .start c.storage (c.report.add (FileSystem.unresolved (bytes "/a")))) := by
  have hname : Target.normalize (bytes "/a") = bytes "/a" := by decide +kernel
  simp [select, openTargets, openTarget, missing, inlineFiles, hname, bare, FileSystem.layered,
    FileSystem.resolveFirst, Diagnosis.tell?, Progress.add, Progress.start]

/-- The file `/a` is reported. -/
theorem call_missing {c c' : Compiler Unit} {a : Answer} (h : Call bare missing c a c') :
    c'.report = c.report.add (FileSystem.unresolved (bytes "/a")) := by
  obtain @⟨files, p, w, -, hselect, hsteps, hdone⟩ := h
  obtain ⟨hfiles, rfl⟩ := Prod.mk.inj ((select_missing c).symm.trans hselect)
  obtain rfl := Option.some.inj hfiles
  rcases hsteps.cases_head with rfl | ⟨v, hstep, -⟩
  · rfl
  · -- no worker can move, because there is none
    exact absurd hstep.left_lt (Nat.not_lt_zero _)

theorem exists_call_missing (c : Compiler Unit) : ∃ a c', Call bare missing c a c' := by
  obtain ⟨w, hsteps, hdone⟩ := Workshop.exists_done (.start _ _)
  exact ⟨_, _, .intro rfl (select_missing c) hsteps hdone⟩

/-- **All that is left of earlier requests is what they reported.** A compiler has served requests,
and the answer of a fresh one to the next request does not depend on the schedule. Then neither does
the answer of this one, and it is the same image or the same failure that stops it, but what is
reported is listed together with what each earlier request has to be reported for. The two answers
are equal exactly if the compilation is stopped or nothing was reported earlier. -/
theorem call_behind_earlier (hfs : fs.Steady among) {s t : σ} (hs : among s) (ht : among t)
    {nonFatal : List Code} {earlier : List Request}
    (hcalls : Calls fs (.fresh s nonFatal) earlier c)
    (hsettled : Settled fs request (.fresh t nonFatal) a) :
    ∃ told : List (List Diagnosis), List.Forall₂ (Tells fs s nonFatal) earlier told ∧
      Settled fs request c (a.behind told.flatten) ∧
      (run fs request (.start c.storage c.report)).1 = some (a.behind told.flatten) ∧
      (a.behind told.flatten = a ↔ (∃ f, a = .stopped f) ∨ told.flatten = []) := by
  obtain ⟨hc, told, htold, hreport⟩ := hcalls.exists_told hfs hs
  have hnonFatal : c.report.nonFatal = (Compiler.fresh t nonFatal).report.nonFatal := by
    rw [hreport]
    rfl
  have harrived : c.report.arrived = told.flatten := by rw [hreport]
  obtain ⟨⟨d, hfresh⟩, hunique⟩ := hsettled
  -- a call of either compiler is matched by one of the other
  have hanswers : ∀ b c', Call fs request c b c' → b = a.behind told.flatten := by
    intro b c' hcall
    obtain ⟨w, w', halike, rfl, -, hcall'⟩ := hcall.exists_alike hfs hc ht hnonFatal
    rw [halike.answer_eq, harrived, hunique _ _ hcall']
  have hexists : ∃ c', Call fs request c (a.behind told.flatten) c' := by
    obtain ⟨w, w', -, -, -, hcall⟩ := hfresh.exists_alike hfs ht hc hnonFatal.symm
    exact ⟨_, hanswers _ _ hcall ▸ hcall⟩
  refine ⟨told, htold, ⟨hexists, hanswers⟩, ?_, ?_⟩
  · obtain ⟨_, hcall⟩ := hexists
    obtain ⟨b, d, hcall', hrun⟩ := hcall.exists_run
    rw [hrun, hanswers b d hcall']
  · exact Answer.behind_eq_self_iff fun image reported hanswer =>
      ⟨d.report, hfresh.reported_eq image reported hanswer⟩

/-- A file that is missing is asked for twice. A program is then answered with its image, and with
both reports of the missing file. -/
theorem call_behind_earlier_missing :
    ∃ c, Calls bare (.fresh () []) [missing, missing] c ∧
      Settled bare increment (.fresh () []) (.finished increments []) ∧
      Settled bare increment c (.finished increments
        [FileSystem.unresolved (bytes "/a"), FileSystem.unresolved (bytes "/a")]) := by
  obtain ⟨a₁, c₁, hcall₁⟩ := exists_call_missing (.fresh () [])
  obtain ⟨a₂, c₂, hcall₂⟩ := exists_call_missing c₁
  have hcalls : Calls bare (.fresh () []) [missing, missing] c₂ :=
    (Calls.none.next hcall₁).next hcall₂
  have hsettled : Settled bare increment (.fresh () []) (.finished increments []) := by
    simpa [Compiler.fresh, Report.empty, Report.listed] using settled_increment (.fresh () [])
  obtain ⟨told, htold, hanswer, -⟩ :=
    call_behind_earlier steady_bare trivial trivial hcalls hsettled
  have htells : ∀ ds, Tells bare () [] missing ds → ds = [FileSystem.unresolved (bytes "/a")] := by
    rintro ds ⟨a, c', hcall, rfl, -⟩
    rw [call_missing hcall]
    rfl
  obtain _ | ⟨hfirst, _ | ⟨hsecond, _ | _⟩⟩ := htold
  obtain rfl := htells _ hfirst
  obtain rfl := htells _ hsecond
  refine ⟨c₂, hcalls, hsettled, ?_⟩
  rwa [Answer.behind, List.mergeSort_of_pairwise (by decide +kernel)] at hanswer

/-- **Requests are not independent:** what was reported of one appears in the answer to the next. -/
theorem calls_not_independent :
    ¬ ∀ (σ : Type) (fs : FileSystem σ) (among : σ → Prop) (s : σ) (nonFatal : List Code)
        (earlier : List Request) (c : Compiler σ) (request : Request) (a : Answer),
      fs.Steady among → among s → Calls fs (.fresh s nonFatal) earlier c →
        Settled fs request (.fresh s nonFatal) a → Settled fs request c a := by
  intro h
  obtain ⟨a, c, hcall⟩ := exists_call_missing (.fresh () [])
  obtain ⟨⟨c', hanswer⟩, -⟩ := h Unit bare _ () [] [missing] c increment _ steady_bare trivial
    (Calls.none.next hcall) (settled_increment (.fresh () []))
  have hreported : Report.listed (.empty []) = c.report.listed :=
    (Answer.finished.inj ((settled_increment c).2 _ _ hanswer)).2
  rw [call_missing hcall] at hreported
  have hfresh : Report.listed (.empty []) = [] := Report.listed_eq_nil_iff.mpr rfl
  have hnone := Report.listed_eq_nil_iff.mp (hreported.symm.trans hfresh)
  simp [Report.add] at hnone

end Compilation

end Bracket
