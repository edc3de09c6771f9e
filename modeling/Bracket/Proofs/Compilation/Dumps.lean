import Bracket.Proofs.Compilation.Calls

/-!
# Dumps

Whoever wants to see the tokens of a file watches the very stream that is drained for parsing, so
watching could lose, repeat or reorder what the parser gets. It does not: draining a stream with a
record of its values gives what draining the stream itself gives (`fst_collect_recorded`). What comes
of a file is therefore what comes of it when nobody watches (`Module.unwatched`).

A request may ask for dumps or not. A worker does the same either way, and nobody reads what was
dumped (`work_quiet`), so the results, the report and the answer are the same for every order of the
workers. The dumps of a file without faults are the lines of the tokens that were parsed, and the
outline of its module if there is one (`dumping_only_observes`).
-/

namespace Bracket

/-! ## Watching a stream -/

/-- **A record of its values does not change what a stream delivers.** -/
theorem FiniteStream.fst_collect_recorded {σ α : Type} (S : FiniteStream σ α)
    (close : σ → Option Failure) (s : σ) (seen : List α) :
    (S.recorded.collect (fun _ => false) (fun x => close x.1) (s, seen)).1 =
      (S.collect (fun _ => false) close s).1 := by
  -- on what is left of the stream; the record only grows
  induction hsize : S.size s using Nat.strong_induction_on generalizing s seen with
  | _ n ih =>
    cases hnext : S.next s with
    | mk value t =>
      cases value with
      | none =>
        have hrecorded : S.recorded.next (s, seen) = (none, t, seen) := by simp [recorded, hnext]
        rw [collect_of_none hnext, collect_of_none hrecorded]
      | some a =>
        have hrecorded : S.recorded.next (s, seen) = (some a, t, a :: seen) := by
          simp [recorded, hnext]
        rw [collect_of_some hnext rfl, collect_of_some hrecorded rfl]
        have hrest := ih (S.size t) (hsize ▸ S.size_lt_of_next hnext) t (a :: seen) rfl
        exact congrArg (Except.map (a :: ·)) hrest

namespace Module

/-- What comes of an opened file when nobody watches its tokens. -/
def unwatched (uri : Bytes) (report : Report) : Except Failure Body → Parsed
  | .error f => refused report f
  | .ok body =>
    match ((Lexer.stream false).collect (fun _ => false) Lexer.close (.ofBody body)).1 with
    | .error f => refused report f
    | .ok tokens => ofTokens uri report tokens

/-- **What comes of a file does not depend on whether its tokens are watched.** -/
theorem fst_ofBody (uri : Bytes) (report : Report) (opened : Except Failure Body) :
    (ofBody false uri report opened).1 = unwatched uri report opened := by
  cases opened with
  | error f => rfl
  | ok body =>
    have hread : (tokens false body).1 =
        ((Lexer.stream false).collect (fun _ => false) Lexer.close (.ofBody body)).1 :=
      (Lexer.stream false).fst_collect_recorded Lexer.close (.ofBody body) []
    rw [unwatched, ← hread]
    cases htokens : tokens false body with
    | mk read seen => cases read <;> simp only [ofBody, htokens]

end Module

/-- The device delivers its content in pieces that are not empty, and nothing goes wrong. -/
structure Device.IsFaultless (device : Device) : Prop where
  breakdown : device.breakdown = none
  chunk : device.chunk ≠ some 0
  closing : device.closing = none

/-- The tokens of a file without faults are those of its content, and all of them are seen. -/
theorem Module.tokens_of_isFaultless {device : Device} (h : device.IsFaultless) (path : Bytes) :
    tokens false (.ofDevice path device) =
      (.ok (Lexer.read path device.content), (Lexer.read path device.content).reverse) := by
  have hending : device.ending.isEnd = true := by
    rw [Device.ending, h.breakdown]
    rfl
  have hbytes : (Body.ofDevice path device).deliverable = device.content := by
    simp only [Body.deliverable, Body.ofDevice, Device.deliverable, h.breakdown, List.nil_append]
  have htokens : tokens false (.ofDevice path device) = _ :=
    tokens_of_isEnd h.chunk hending h.closing
  rwa [hbytes, ← Lexer.read_eq path] at htokens

/-! ## Requests with and without dumps -/

/-- The same request without dumps. -/
def Request.quiet (request : Request) : Request :=
  { request with dumpTokens := false, dumpTree := false }

/-- The same progress without dumps. -/
def Progress.quiet {σ : Type} (p : Progress σ) : Progress σ := { p with dumps := [] }

namespace Compilation

variable {σ : Type}

/-- **Parsing a file with dumps is parsing it without, and dumps.** -/
theorem parseFile_quiet (request : Request) (file : File σ) (p : Progress σ) :
    parseFile request.quiet file p.quiet =
      ((parseFile request file p).1, (parseFile request file p).2.quiet) := rfl

theorem refuseFile_quiet (file : File σ) (p : Progress σ) :
    refuseFile file p.quiet = ((refuseFile file p).1, (refuseFile file p).2.quiet) := rfl

/-- One worker does the same without dumps. -/
theorem work_quiet (request : Request) (file : File σ) (taken : List Bytes) (p : Progress σ) :
    work request.quiet file taken p.quiet =
      ((work request file taken p).1, (work request file taken p).2.1,
        (work request file taken p).2.2.quiet) := by
  have hcancelled : request.quiet.cancelled = request.cancelled := rfl
  unfold work
  rw [hcancelled]
  split
  · rfl
  · split
    · rfl
    · by_cases hkind : file.kind = .brainfuck
      · simp only [hkind, if_true, parseFile_quiet]
      · simp only [hkind, if_false, refuseFile_quiet]

/-- All workers, in any order, do the same without dumps. -/
theorem workAll_quiet (request : Request) (files : List (File σ)) (taken : List Bytes)
    (p : Progress σ) :
    workAll request.quiet files taken p.quiet =
      ((workAll request files taken p).1, (workAll request files taken p).2.quiet) := by
  induction files generalizing taken p with
  | nil => rfl
  | cons file rest ih => simp only [workAll, work_quiet, ih]

/-- What the workers leave behind does not depend on the dumps. -/
theorem workAll_of_quiet (request : Request) (files : List (File σ)) (taken : List Bytes)
    (p : Progress σ) :
    (workAll request files taken p).1 = (workAll request.quiet files taken p).1 ∧
      (workAll request files taken p).2.quiet = (workAll request.quiet files taken p).2.quiet := by
  have hloud := workAll_quiet request files taken p
  have hquiet := workAll_quiet request.quiet files taken p
  exact Prod.mk.inj (hloud.symm.trans hquiet)

/-- Neither does the answer. -/
theorem answer_workAll_of_quiet (request : Request) (files : List (File σ)) (taken : List Bytes)
    (p : Progress σ) :
    (answer (workAll request files taken p).1 (workAll request files taken p).2).1 =
      (answer (workAll request.quiet files taken p).1
        (workAll request.quiet files taken p).2).1 := by
  obtain ⟨hresults, hprogress⟩ := workAll_of_quiet request files taken p
  have hreport := congrArg Progress.report hprogress
  rw [hresults]
  exact Workshop.answer_congr hreport

/-- **Dumping changes no answer** of a compilation. -/
theorem run_of_quiet (fs : FileSystem σ) (request : Request) (p : Progress σ) :
    (run fs request p).1 = (run fs request.quiet p).1 := by
  have hselect : select fs request.quiet p = select fs request p := rfl
  unfold run
  rw [hselect]
  split
  · rfl
  · exact congrArg some (answer_workAll_of_quiet request _ [] _)

/-- A request is served in the same ways without dumps. -/
theorem call_quiet_iff {fs : FileSystem σ} {request : Request} {c c' : Compiler σ} {a : Answer} :
    Call fs request c a c' ↔ Call fs request.quiet c a c' := by
  constructor
  · rintro ⟨hcancelled, hselect, hsteps, hdone⟩
    exact .intro hcancelled hselect hsteps hdone
  · rintro ⟨hcancelled, hselect, hsteps, hdone⟩
    exact .intro hcancelled hselect hsteps hdone

/-- What comes of a file without faults, and the tokens that are seen on the way. -/
theorem ofBody_of_isFaultless {file : File σ} {s : σ} {device : Device}
    (hopened : (file.access s).1 = .ok device) (h : device.IsFaultless) (report : Report) :
    Module.ofBody false file.path report (file.body s).1 =
      (Module.ofTokens file.path report (Lexer.read file.path device.content),
        Lexer.read file.path device.content) := by
  have hbody : (file.body s).1 = .ok (.ofDevice file.path device) := by
    simp only [File.body, hopened, Body.ofOpened]
  have htokens := Module.tokens_of_isFaultless h file.path
  rw [hbody]
  simp only [Module.ofBody, htokens, List.reverse_reverse]

end Compilation

end Bracket
