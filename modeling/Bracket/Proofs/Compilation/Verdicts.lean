import Bracket.Compilation
import Bracket.Proofs.Lexing
import Bracket.Proofs.Report

/-!
# What comes of a file

Three things can come of a file that is worked on (`Verdict`): it is parsed to a module; it is
diagnosed, because it cannot be parsed or is of no known kind; or its bytes cannot be read. Only a
diagnosis is reported. A failure of reading is left to whoever asked for the file.

`examine` gives the verdict on a file, and everything else that a worker leaves behind follows from
it (`work_of_free`): the result is a function of the verdict, and so is what is reported. Nothing
below this module looks into the stages of a worker again.
-/

namespace Bracket

/-- The report with more diagnoses. -/
def Report.addAll (report : Report) (ds : List Diagnosis) : Report :=
  { report with arrived := report.arrived ++ ds }

@[simp] theorem Report.addAll_nil (report : Report) : report.addAll [] = report := by
  simp [addAll]

@[simp] theorem Report.arrived_addAll (report : Report) (ds : List Diagnosis) :
    (report.addAll ds).arrived = report.arrived ++ ds := rfl

namespace Compilation

variable {σ : Type}

/-- What comes of a file. -/
inductive Verdict where
  /-- It is parsed. -/
  | parsed (m : Module)
  /-- There is a diagnosis to report. -/
  | diagnosed (d : Diagnosis)
  /-- It cannot be read, which is not reported. -/
  | unread (f : Failure)

namespace Verdict

/-- What the worker leaves behind, given the codes that are not fatal. -/
def result (nonFatal : List Code) : Verdict → Result
  | parsed m => ⟨some m, none⟩
  | diagnosed d => ⟨none, if nonFatal.contains d.code then none else some d.toFailure⟩
  | unread f => ⟨none, some f⟩

def told : Verdict → List Diagnosis
  | diagnosed d => [d]
  | _ => []

def modules : Verdict → List Module
  | parsed m => [m]
  | _ => []

@[simp] theorem mem_told {v : Verdict} {d : Diagnosis} : d ∈ v.told ↔ v = diagnosed d := by
  cases v <;> simp [told, eq_comm]

@[simp] theorem mem_modules {v : Verdict} {m : Module} : m ∈ v.modules ↔ v = parsed m := by
  cases v <;> simp [modules, eq_comm]

end Verdict

/-! ## Examining a file -/

/-- The tokens of a file, or the failure to open, read or close it. -/
def readFile (file : File σ) (s : σ) : Except Failure (List Token) :=
  match (file.body s).1 with
  | .error f => .error f
  | .ok body => (Module.tokens false body).1

/-- A file that holds bytes can always be read. -/
theorem readFile_ofContent (path : Bytes) (kind : FileKind) (content : Bytes) (s : σ) :
    readFile (.ofContent path kind content) s =
      .ok (Token.scan .start (Utf8.decodeAll content)) := by
  simp [readFile, File.body, File.ofContent, Body.ofOpened, Module.tokens_ofContent]

/-- The verdict on the tokens of a file. -/
def judge (path : Bytes) (tokens : List Token) : Verdict :=
  match Grammar.parse (tokens.map (·.symbol)) with
  | .ok program => .parsed ⟨path, program⟩
  | .error d => .diagnosed (Module.relocate path tokens d)

/-- The verdict on a file, and the state of the file system after it. Only sources are opened. -/
def examine (file : File σ) (s : σ) : Verdict × σ :=
  if file.kind = .brainfuck then
    (match readFile file s with
      | .error f => .unread f
      | .ok tokens => judge file.path tokens, (file.body s).2)
  else (.diagnosed (unsupported file.path), s)

/-- What comes of tokens has the name of their file. -/
theorem judge_uri (path : Bytes) (tokens : List Token) :
    (∀ m ∈ (judge path tokens).modules, m.uri = path) ∧
      ∀ d ∈ (judge path tokens).told, d.location.uri = path := by
  unfold judge
  split
  · simp [eq_comm]
  · simp [Module.relocate, Diagnosis.relocate, eq_comm]

/-- What comes of a file has its name. -/
theorem examine_uri (file : File σ) (s : σ) :
    (∀ m ∈ (examine file s).1.modules, m.uri = file.path) ∧
      ∀ d ∈ (examine file s).1.told, d.location.uri = file.path := by
  unfold examine
  split
  · dsimp only
    split
    · simp
    · exact judge_uri file.path _
  · simp [unsupported, Diagnosis.new, Location.ofUri, eq_comm]

/-- A file is parsed if it is a source whose tokens can be read and parsed. -/
theorem examine_eq_parsed_iff {file : File σ} {s : σ} {m : Module} :
    (examine file s).1 = .parsed m ↔
      file.kind = .brainfuck ∧ m.uri = file.path ∧ ∃ tokens, readFile file s = .ok tokens ∧
        Grammar.parse (tokens.map (·.symbol)) = .ok m.program := by
  unfold examine
  by_cases hkind : file.kind = .brainfuck
  · cases hread : readFile file s with
    | error f => simp [hkind]
    | ok tokens =>
      simp only [hkind, if_true, judge]
      cases hparse : Grammar.parse (tokens.map (·.symbol)) with
      | error d => simp [hparse]
      | ok program =>
        obtain ⟨uri, program'⟩ := m
        simp [hparse, eq_comm]
  · simp [hkind]

/-- A file stays unread if it is a source that cannot be read. -/
theorem examine_eq_unread_iff {file : File σ} {s : σ} {f : Failure} :
    (examine file s).1 = .unread f ↔ file.kind = .brainfuck ∧ readFile file s = .error f := by
  unfold examine
  by_cases hkind : file.kind = .brainfuck
  · cases hread : readFile file s with
    | error f' => simp [hkind]
    | ok tokens =>
      simp only [hkind, if_true, judge]
      cases Grammar.parse (tokens.map (·.symbol)) <;> simp
  · simp [hkind]

/-! ## Workers -/

/-- A worker that finds the path of its file taken has nothing to do. -/
def Result.idle : Result := ⟨none, none⟩

/-- A diagnosis that is handed in comes back as the failure of its verdict. -/
theorem failure_submit (report : Report) (d : Diagnosis) :
    (report.submit d).1.map (·.toFailure) =
      ((Verdict.diagnosed d).result report.nonFatal).failure? := by
  by_cases h : d.code ∈ report.nonFatal <;>
    simp [Report.submit, Report.isFatal, Verdict.result, h]

/-- Parsing an opened source gives its verdict. -/
theorem ofBody_eq (file : File σ) (s : σ) (hkind : file.kind = .brainfuck) (report : Report) :
    (Module.ofBody false file.path report (file.body s).1).1 =
      ⟨((examine file s).1.result report.nonFatal).module?,
        ((examine file s).1.result report.nonFatal).failure?,
        report.addAll (examine file s).1.told⟩ := by
  rw [examine, if_pos hkind]
  unfold readFile
  cases hbody : (file.body s).1 with
  | error f => simp [Module.ofBody, Module.refused, Verdict.result, Verdict.told]
  | ok body =>
    cases htokens : Module.tokens false body with
    | mk read seen =>
      cases read with
      | error f => simp [Module.ofBody, htokens, Module.refused, Verdict.result, Verdict.told]
      | ok tokens =>
        simp only [Module.ofBody, htokens, Module.ofTokens, judge]
        cases Grammar.parse (tokens.map (·.symbol)) with
        | ok program => simp [Verdict.result, Verdict.told]
        | error d =>
          simp only [failure_submit]
          rfl

/-- A path that is already taken is left alone. -/
theorem work_of_taken {request : Request} (hcancelled : request.cancelled = false) {file : File σ}
    {taken : List Bytes} (htaken : file.path ∈ taken) (p : Progress σ) :
    work request file taken p = (.idle, taken, p) := by
  simp [work, hcancelled, htaken, Result.idle]

/-- **A worker leaves behind what follows from the verdict on its file.** -/
theorem work_of_free {request : Request} (hcancelled : request.cancelled = false) {file : File σ}
    {taken : List Bytes} (hfree : file.path ∉ taken) (p : Progress σ) :
    ∃ p', work request file taken p =
        ((examine file p.storage).1.result p.report.nonFatal, file.path :: taken, p') ∧
      p'.storage = (examine file p.storage).2 ∧
      p'.report = p.report.addAll (examine file p.storage).1.told := by
  -- what is left of the work is to parse the file or to refuse it
  have hwork : work request file taken p =
      ((if file.kind = .brainfuck then parseFile request file p else refuseFile file p).1,
        file.path :: taken,
        (if file.kind = .brainfuck then parseFile request file p else refuseFile file p).2) := by
    simp [work, hcancelled, hfree]
  rw [hwork]
  by_cases hkind : file.kind = .brainfuck
  · have hparsed := ofBody_eq file p.storage hkind p.report
    simp only [hkind, if_true, parseFile, hcancelled, hparsed]
    refine ⟨_, rfl, ?_, rfl⟩
    rw [examine, if_pos hkind]
  · simp only [hkind, if_false, refuseFile, failure_submit]
    rw [examine, if_neg hkind]
    exact ⟨_, rfl, rfl, rfl⟩

end Compilation

end Bracket
