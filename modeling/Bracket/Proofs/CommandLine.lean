import Bracket.CommandLine
import Bracket.Proofs.Compilation.Dumps
import Bracket.Proofs.Compilation.Targets
import Bracket.Proofs.Complaint
import Bracket.Proofs.Output

/-!
# The command on programs among its flags

The command takes programs as the values of its flags and names them by their index. This module
follows such programs from the flags to the exit, one stage after the other.

Whatever a program looks like, its flag takes it as it is (`parseArguments_inline`). Its name has
nothing in it that a reference could read as more than a path, so that distinct programs become
distinct modules (`normalize_expressionName`). The files of the request have their content with
them: nothing is opened, and the answer is the same on every file system and under every schedule
(`exists_run_inlineRequest`). Nothing is dumped, nothing important enough is logged and the disk is
left alone, so the command prints the image or complains (`run_of_answer`). A complaint is the one
diagnosis of a text that is no program (`exists_complaints`).
-/

namespace Bracket

/-! ## Names without a meaning -/

namespace Reference

/-- A text without escapes is read as it is. -/
theorem unescape_eq_self {text : Bytes} (h : 0x25 ∉ text) : unescape text = some text := by
  induction text with
  | nil => rfl
  | cons b rest ih =>
    obtain ⟨hb, hrest⟩ := not_or.mp (mt List.mem_cons.mpr h)
    have hrest' : unescapeWith (fun _ => true) (fun _ => true) rest = some rest := ih hrest
    unfold unescape unescapeWith
    split
    · next heq => simp at heq
    · next heq => exact absurd (List.cons.inj heq).1.symm hb
    · next heq =>
      obtain ⟨rfl, rfl⟩ := List.cons.inj heq
      simp [Ne.symm hb, hrest']

/-- Letters, digits and signs as they stand in a scheme have no meaning without a colon. -/
theorem parse?_of_isSchemeByte {name : Bytes} (hne : name ≠ [])
    (h : ∀ b ∈ name, isSchemeByte b = true) : parse? name = some ⟨[], name⟩ := by
  have hnone : ∀ b, isSchemeByte b = false → b ∉ name := by
    intro b hb hmem
    rw [h b hmem] at hb
    simp at hb
  have hcontrol : name.any isControl = false := by
    refine List.any_eq_false.mpr fun b hb hcontrol => ?_
    have hscheme := h b hb
    simp only [isSchemeByte, isControl, Bytes.isLetter, Bytes.isDigit] at hscheme hcontrol
    grind
  have hstar : name ≠ bytes "*" := by
    rintro rfl
    exact hnone 0x2A (by decide) (by decide)
  have hsplit : splitScheme name = some ([], name) := by
    obtain ⟨first, rest, rfl⟩ := List.exists_cons_of_ne_nil hne
    have hbehind : (first :: rest).dropWhile isSchemeByte = [] := List.dropWhile_eq_nil_iff.mpr h
    unfold splitScheme
    split
    · next heq => exact absurd (heq ▸ List.mem_cons_self) (hnone 0x3A (by decide))
    · next heq =>
      obtain ⟨rfl, rfl⟩ := List.cons.inj heq
      simp [hbehind]
    · next heq => simp at heq
  have hrest : parseRest [] name = some ⟨[], name⟩ := by
    have hrootless : (name.head? != some 0x2F) = true := by
      simp only [bne_iff_ne, ne_eq]
      exact fun hhead => hnone 0x2F (by decide) (List.mem_of_head? hhead)
    have hcolon : ¬ (upTo 0x2F name).contains 0x3A = true := by
      rw [upTo_eq_self (hnone 0x2F (by decide))]
      simpa using hnone 0x3A (by decide)
    rw [parseRest, if_pos hrootless, if_neg (by simp), if_neg hcolon,
      unescape_eq_self (hnone 0x25 (by decide))]
    rfl
  rw [parse?, Bytes.cut_eq_none_iff.mpr (hnone 0x23 (by decide))]
  simp [parseBody, hcontrol, hstar, hsplit, upTo_eq_self (hnone 0x3F (by decide)), hrest]

end Reference

namespace CommandLine

/-! ## The names of programs -/

/-- The name of the module of a program among the flags. -/
def expressionUri (index : Nat) : Bytes := bytes "/expr-" ++ Bytes.ofNat index

/-- No two programs of the command line get the same name. -/
theorem expressionUri_injective {i j : Nat} (h : expressionUri i = expressionUri j) : i = j :=
  Bytes.ofNat_injective (List.append_cancel_left h)

theorem isLine_expressionUri (i : Nat) : IsLine (expressionUri i) :=
  isLine_append.mpr ⟨by decide, isLine_ofNat i⟩

/-- The name of a program is read as a path. -/
theorem normalize_expressionName (i : Nat) :
    Target.normalize (expressionName i) = expressionUri i := by
  have hdigits : ∀ b ∈ Bytes.ofNat i, Bytes.isDigit b = true := by
    intro b hb
    obtain ⟨c, hc, rfl⟩ := List.mem_map.mp hb
    obtain ⟨hlow, hhigh, hbyte⟩ := Bytes.toNat_of_mem_toDigits hc
    simp only [Bytes.isDigit, Bool.and_eq_true, decide_eq_true_eq, UInt8.le_iff_toNat_le, hbyte]
    exact ⟨hlow, hhigh⟩
  have hscheme : ∀ b ∈ expressionName i, Reference.isSchemeByte b = true := by
    have hfront : (bytes "expr-").all Reference.isSchemeByte = true := by decide
    refine List.forall_mem_append.mpr ⟨List.all_eq_true.mp hfront, fun b hb => ?_⟩
    simp [Reference.isSchemeByte, hdigits b hb]
  have hhead : (expressionName i).head? = some 0x65 := rfl
  have hne : ∀ other : Bytes, other.head? ≠ some 0x65 → expressionName i ≠ other := by
    rintro other hother rfl
    exact hother hhead
  have hname : Path.IsName (expressionName i) := by
    refine ⟨hne _ (by decide), hne _ (by decide), hne _ (by decide), fun hmem => ?_⟩
    exact absurd (hscheme _ hmem) (by decide)
  have hread := Reference.parse?_of_isSchemeByte hname.ne_nil hscheme
  have hrooted : Target.rooted (expressionName i) = expressionUri i := by
    rw [Target.rooted_of_isName hname, Path.ofElements_rooted, List.intercalate_singleton]
    rfl
  simp only [Target.normalize, hread, if_true, hrooted]

/-! ## Flags -/

/-- A flag and its value for each of the programs. -/
def expressionFlags (texts : List Bytes) : List Bytes :=
  texts.flatMap fun text => [bytes "-e", text]

/-- Programs behind their flags, and somewhere among them the flag to print the image. -/
def inlineArguments (before after : List Bytes) : List Bytes :=
  expressionFlags before ++ ([bytes "--output", bytes "-"] ++ expressionFlags after)

/-- To print the image of programs. -/
def inlineOptions (texts : List Bytes) : Options :=
  { Options.defaults with output := bytes "-", expressions := texts }

/-- Whatever a program looks like, it is taken for the value of its flag. -/
theorem parseArguments_expressionFlags (o : Options) (texts rest : List Bytes) :
    parseArguments o (expressionFlags texts ++ rest) =
      parseArguments { o with expressions := o.expressions ++ texts } rest := by
  induction texts generalizing o with
  | nil => simp [expressionFlags]
  | cons text more ih =>
    have hword : Word.ofArgument (bytes "-e") =
        .pending .expr (bytes "flag needs an argument: 'e' in -e") := by decide +kernel
    have hflags : expressionFlags (text :: more) = bytes "-e" :: text :: expressionFlags more := rfl
    rw [hflags, List.cons_append, List.cons_append, parseArguments, hword]
    simp only [Options.apply, Options.set, Except.mapError, ih, List.append_assoc,
      List.singleton_append]

/-- Arguments that give programs only are read as the list of these programs, in order. -/
theorem parseArguments_inline (before after : List Bytes) :
    parseArguments .defaults (inlineArguments before after) =
      .ok (inlineOptions (before ++ after), []) := by
  have hword : Word.ofArgument (bytes "--output") =
      .pending .output (bytes "flag needs an argument: --output") := by decide +kernel
  rw [inlineArguments, parseArguments_expressionFlags, List.cons_append, List.cons_append,
    parseArguments, hword]
  simp only [Options.apply, Options.set, Except.mapError, List.nil_append]
  rw [← List.append_nil (expressionFlags after), parseArguments_expressionFlags, parseArguments]
  rfl

/-! ## Compiling programs -/

variable {σ : Type}

/-- What the command is to compile. -/
def inlineRequest (texts : List Bytes) : Request := requestOf (inlineOptions texts) []

/-- The files of the request are the programs. -/
theorem mem_inlineFiles_inlineRequest {texts : List Bytes} {file : File σ} :
    file ∈ Compilation.inlineFiles (inlineRequest texts) ↔
      ∃ i text, texts[i]? = some text ∧
        file = .ofContent (expressionUri i) .brainfuck text := by
  rw [Compilation.mem_inlineFiles_iff]
  constructor
  · rintro ⟨x, hx, rfl⟩
    obtain ⟨⟨text, i⟩, hmem, rfl⟩ := List.mem_map.mp hx
    refine ⟨i, text, List.mem_zipIdx_iff_getElem?.mp hmem, ?_⟩
    rw [normalize_expressionName]
  · rintro ⟨i, text, htext, rfl⟩
    refine ⟨(expressionName i, text), ?_, by rw [normalize_expressionName]⟩
    exact List.mem_map.mpr ⟨(text, i), List.mem_zipIdx_iff_getElem?.mpr htext, rfl⟩

/-- Nothing has to be opened to select programs. -/
theorem select_inlineRequest (fs : FileSystem σ) (texts : List Bytes) (p : Progress σ) :
    Compilation.select fs (inlineRequest texts) p =
      (some (Compilation.inlineFiles (inlineRequest texts)), p) := rfl

/-- So it does not matter which file system there is. -/
theorem call_inlineRequest {fs fs' : FileSystem σ} {texts : List Bytes}
    {c c' : Compilation.Compiler σ} {a : Answer}
    (h : Compilation.Call fs (inlineRequest texts) c a c') :
    Compilation.Call fs' (inlineRequest texts) c a c' := by
  obtain ⟨hcancelled, hselect, hsteps, hdone⟩ := h
  exact .intro hcancelled hselect hsteps hdone

theorem consistent_inlineFiles (texts : List Bytes) (s : σ) :
    Compilation.Consistent (Compilation.inlineFiles (inlineRequest texts)) s := by
  have hsame : ∀ f ∈ Compilation.inlineFiles (inlineRequest texts),
      ∀ g ∈ Compilation.inlineFiles (inlineRequest texts), f.path = g.path → f = (g : File σ) := by
    intro f hf g hg hpath
    obtain ⟨i, text, htext, rfl⟩ := mem_inlineFiles_inlineRequest.mp hf
    obtain ⟨j, text', htext', rfl⟩ := mem_inlineFiles_inlineRequest.mp hg
    obtain rfl : i = j := expressionUri_injective hpath
    rw [Option.some.inj (htext.symm.trans htext')]
  refine .of_unchanged ?_ ?_ ?_
  · intro f hf g hg hpath
    rw [hsame f hf g hg hpath]
  · intro f hf g hg hpath
    rw [hsame f hf g hg hpath]
  · intro f hf
    obtain ⟨i, text, -, rfl⟩ := mem_inlineFiles_inlineRequest.mp hf
    rfl

/-- What comes of a program text is settled by its tokens. -/
theorem examine_ofContent (path text : Bytes) (s : σ) :
    (Compilation.examine (.ofContent path .brainfuck text) s).1 =
      Compilation.judge path (Lexer.read path text) := by
  have hkind : (File.ofContent path .brainfuck text : File σ).kind = .brainfuck := rfl
  rw [Lexer.read_eq, Compilation.examine, if_pos hkind, Compilation.readFile_ofContent]
  rfl

/-- **What comes of the programs**, whatever the file system and its state. -/
theorem exists_run_inlineRequest {texts : List Bytes} (s : σ) (hzero : ∀ text ∈ texts, 0 ∉ text) :
    ∃ (image : Image) (reported : List Diagnosis),
      (∀ fs, (Compilation.run fs (inlineRequest texts) (.start s (.empty []))).1 =
        some (.finished image reported)) ∧
      (∀ fs a c', Compilation.Call fs (inlineRequest texts) (.fresh s []) a c' →
        a = .finished image reported) ∧
      image.modules.Pairwise (fun a b => a.uri < b.uri) ∧
      (∀ m, m ∈ image.modules ↔ ∃ i text, texts[i]? = some text ∧ m.uri = expressionUri i ∧
        Program.isWellFormed m.program = true ∧
        Program.text m.program = text.filter (· ∈ commands)) ∧
      reported.Pairwise (fun a b => a.location.uri < b.location.uri) ∧
      ∀ d, d ∈ reported ↔ ∃ i text, texts[i]? = some text ∧
        Compilation.judge (expressionUri i) (Lexer.read (expressionUri i) text) = .diagnosed d := by
  have hread : ∀ file ∈ Compilation.inlineFiles (inlineRequest texts), ∀ f : Failure,
      (Compilation.examine file s).1 = .unread f → (Diagnosis.first? f).isSome := by
    intro file hfile f hf
    obtain ⟨i, text, -, rfl⟩ := mem_inlineFiles_inlineRequest.mp hfile
    have hread := (Compilation.examine_eq_unread_iff.mp hf).2
    rw [Compilation.readFile_ofContent] at hread
    simp at hread
  obtain ⟨image, told, hsettled, hascending, hmodules, htold, hnodup⟩ :=
    Compilation.Settled.of_consistent (c := .fresh s []) rfl
      (select_inlineRequest (.layered []) texts _) (consistent_inlineFiles texts s) hread
  have hexamine : ∀ v, (∃ file ∈ Compilation.inlineFiles (inlineRequest texts),
      (Compilation.examine file s).1 = v) ↔ ∃ i text, texts[i]? = some text ∧
        Compilation.judge (expressionUri i) (Lexer.read (expressionUri i) text) = v := by
    intro v
    constructor
    · rintro ⟨file, hfile, rfl⟩
      obtain ⟨i, text, htext, rfl⟩ := mem_inlineFiles_inlineRequest.mp hfile
      exact ⟨i, text, htext, (examine_ofContent _ _ _).symm⟩
    · rintro ⟨i, text, htext, rfl⟩
      exact ⟨_, mem_inlineFiles_inlineRequest.mpr ⟨i, text, htext, rfl⟩, examine_ofContent _ _ _⟩
  refine ⟨image, _, fun _ => hsettled.run_eq, fun _ a c' hcall => hsettled.2 a c'
    (call_inlineRequest hcall), hascending, fun m => ?_, Report.pairwise_listed hnodup, fun d => ?_⟩
  · refine (hmodules m).trans ((hexamine _).trans ?_)
    refine exists_congr fun i => exists_congr fun text => and_congr_right fun htext => ?_
    exact Compilation.judge_read_eq_parsed_iff (hzero text (List.mem_of_getElem? htext))
  · rw [Report.listed, List.mem_mergeSort]
    exact (htold d).trans (hexamine _)

/-! ## Nothing else happens -/

/-- Work on files that opening does not change leaves the state of the file system alone. -/
theorem storage_workAll {request : Request} (hcancelled : request.cancelled = false)
    {files : List (File σ)} (h : ∀ file ∈ files, ∀ s, (file.body s).2 = s) (taken : List Bytes)
    (p : Progress σ) : (Compilation.workAll request files taken p).2.storage = p.storage := by
  induction files generalizing taken p with
  | nil => rfl
  | cons file rest ih =>
    have hrest := ih fun file hfile => h file (List.mem_cons_of_mem _ hfile)
    simp only [Compilation.workAll, hrest]
    by_cases htaken : file.path ∈ taken
    · rw [Compilation.work_of_taken hcancelled htaken]
    · obtain ⟨p', hwork, hstorage, -⟩ := Compilation.work_of_free hcancelled htaken p
      rw [hwork, hstorage, Compilation.examine]
      split
      · exact h file List.mem_cons_self p.storage
      · rfl

/-- Answering tells an event at most. -/
theorem answer_keeps (results : List Compilation.Result) (p : Progress σ) :
    (Compilation.answer results p).2.storage = p.storage ∧
      (Compilation.answer results p).2.dumps = p.dumps := by
  unfold Compilation.answer
  split <;> exact ⟨rfl, rfl⟩

/-- Compiling programs opens nothing and dumps nothing. -/
theorem run_inlineRequest_keeps (fs : FileSystem σ) (texts : List Bytes) (s : σ) :
    (Compilation.run fs (inlineRequest texts) (.start s (.empty []))).2.storage = s ∧
      (Compilation.run fs (inlineRequest texts) (.start s (.empty []))).2.dumps = [] := by
  -- all that is done is the work on the programs, and answering
  generalize hwork : Compilation.workAll (inlineRequest texts)
    (Compilation.inlineFiles (inlineRequest texts)) [] (.start s (.empty [])) = work
  have hrun : (Compilation.run fs (inlineRequest texts) (.start s (.empty []))).2 =
      (Compilation.answer work.1 work.2).2 := by
    rw [← hwork]
    rfl
  obtain ⟨hstorage, hdumps⟩ := answer_keeps work.1 work.2
  rw [hrun, hstorage, hdumps, ← hwork]
  constructor
  · refine storage_workAll rfl (fun file hfile s => ?_) [] _
    obtain ⟨i, text, -, rfl⟩ := mem_inlineFiles_inlineRequest.mp hfile
    rfl
  · -- no dumps are asked for, so all of the work is the work without dumps
    have hquiet := Compilation.workAll_quiet (inlineRequest texts)
      (Compilation.inlineFiles (inlineRequest texts)) [] (.start s (.empty []))
    exact congrArg (fun x => x.2.dumps) hquiet

/-- No event is important enough to be logged by default. -/
theorem soFar_eq_fine (call : Invocation) {p : Progress Storage} (h : p.dumps = []) :
    soFar call .warn p = .fine p.storage.disk := by
  have hevents : p.events.filter (fun event => event.level.passes .warn) = [] := by
    refine List.filter_eq_nil_iff.mpr fun event _ => ?_
    cases event <;> simp [Log.Event.level] <;> decide
  rw [soFar, h, hevents]
  rfl

/-- How compiling programs ends, given the answer. -/
theorem compile_of_answer {call : Invocation} {texts : List Bytes} {disk : Disk} {image : Image}
    {reported : List Diagnosis}
    (hanswer : ∀ fs : FileSystem Storage, (Compilation.run fs (inlineRequest texts)
      (.start ⟨disk, []⟩ (.empty []))).1 = some (.finished image reported)) :
    compile call (inlineOptions texts) .warn [] disk =
      if reported = [] then ⟨0, false, image.outline, [], disk⟩
      else ⟨1, false, [], reported.flatMap (·.text ++ bytes "\n"), disk⟩ := by
  unfold compile
  generalize FileSystem.search call.workingDirectory call.environment
    (inlineOptions texts).roots = fs
  have hrun := hanswer fs
  obtain ⟨hstorage, hdumps⟩ := run_inlineRequest_keeps fs texts (⟨disk, []⟩ : Storage)
  have hrequest : requestOf (inlineOptions texts) [] = inlineRequest texts := rfl
  rw [hrequest]
  cases hresult : Compilation.run fs (inlineRequest texts) (.start ⟨disk, []⟩ (.empty [])) with
  | mk answer p =>
    rw [hresult] at hrun hstorage hdumps
    obtain rfl : answer = some (.finished image reported) := hrun
    have hfine : soFar call .warn p = .fine disk := by
      rw [soFar_eq_fine call hdumps, hstorage]
    cases reported with
    | nil =>
      simp only [hresult, hfine, if_true]
      rfl
    | cons d rest =>
      rw [if_neg (List.cons_ne_nil d rest)]
      simp only [hresult, hfine, Ending.complain, List.flatMap_map]
      rfl

/-- How the command on programs ends, given the answer. -/
theorem run_of_answer {call : Invocation} {before after : List Bytes}
    (harguments : call.arguments = inlineArguments before after) (hsome : before ++ after ≠ [])
    {disk : Disk} {image : Image} {reported : List Diagnosis}
    (hanswer : ∀ fs : FileSystem Storage, (Compilation.run fs (inlineRequest (before ++ after))
      (.start ⟨disk, []⟩ (.empty []))).1 = some (.finished image reported)) :
    run call disk =
      if reported = [] then ⟨0, false, image.outline, [], disk⟩
      else ⟨1, false, [], reported.flatMap (·.text ++ bytes "\n"), disk⟩ := by
  have hlevel : Log.Level.parse (inlineOptions (before ++ after)).logLevel = .ok .warn := by
    show Log.Level.parse (bytes "warn") = .ok .warn
    decide +kernel
  have hexpressions : (inlineOptions (before ++ after)).expressions ≠ [] := hsome
  rw [run, harguments, parseArguments_inline]
  simp only [hlevel, hexpressions, and_false, if_false]
  exact compile_of_answer hanswer

/-! ## Complaints -/

section Complaints

variable {texts : List Bytes} {reported : List Diagnosis} (hzero : ∀ text ∈ texts, 0 ∉ text)
  (hreported : ∀ d, d ∈ reported ↔ ∃ i text, texts[i]? = some text ∧
    Compilation.judge (expressionUri i) (Lexer.read (expressionUri i) text) = .diagnosed d)

include hzero hreported

/-- Nothing is reported iff each text is a program. -/
theorem reported_eq_nil_iff : reported = [] ↔ ∀ text ∈ texts, IsProgramText text := by
  rw [List.eq_nil_iff_forall_not_mem]
  constructor
  · intro hnone text hmem
    by_contra hprogram
    obtain ⟨i, htext⟩ := List.mem_iff_getElem?.mp hmem
    obtain ⟨d, hd⟩ := (Compilation.exists_diagnosed_iff (hzero text hmem)).mpr hprogram
    exact hnone d ((hreported d).mpr ⟨i, text, htext, hd⟩)
  · intro hall d hd
    obtain ⟨i, text, htext, hd⟩ := (hreported d).mp hd
    have hmem := List.mem_of_getElem? htext
    exact (Compilation.exists_diagnosed_iff (hzero text hmem)).mp ⟨d, hd⟩ (hall text hmem)

/-- **What is reported is one complaint about each text that is no program**, in order of their
names. -/
theorem exists_complaints
    (hlisted : reported.Pairwise (fun a b => a.location.uri < b.location.uri)) :
    ∃ complaints : List (Nat × Bytes),
      reported.flatMap (·.text ++ bytes "\n") = complaints.flatMap (fun c => c.2 ++ bytes "\n") ∧
      complaints.Pairwise (fun a b => expressionUri a.1 < expressionUri b.1) ∧
      (∀ i, i ∈ complaints.map Prod.fst ↔ ∃ text, texts[i]? = some text ∧ ¬ IsProgramText text) ∧
      ∀ c ∈ complaints, ∃ text, texts[c.1]? = some text ∧
        Complains (expressionUri c.1) text c.2 := by
  have huri : ∀ i text d, Compilation.judge (expressionUri i)
      (Lexer.read (expressionUri i) text) = .diagnosed d → d.location.uri = expressionUri i :=
    fun i text d hd => (Compilation.judge_uri _ _).2 d (Compilation.Verdict.mem_told.mpr hd)
  -- the name of a diagnosis tells which text it is about
  have hindex : ∀ d ∈ reported, ∃ i, d.location.uri = expressionUri i ∧ ∃ text,
      texts[i]? = some text ∧ Compilation.judge (expressionUri i)
        (Lexer.read (expressionUri i) text) = .diagnosed d := by
    intro d hd
    obtain ⟨i, text, htext, hjudge⟩ := (hreported d).mp hd
    exact ⟨i, huri i text d hjudge, text, htext, hjudge⟩
  choose! index hname text htext hjudge using hindex
  refine ⟨reported.map fun d => (index d, d.text), ?_, ?_, ?_, ?_⟩
  · rw [List.flatMap_map]
  · refine List.pairwise_map.mpr (hlisted.imp_of_mem fun {a b} ha hb hab => ?_)
    rwa [hname a ha, hname b hb] at hab
  · intro i
    rw [List.map_map, List.mem_map]
    constructor
    · rintro ⟨d, hd, rfl⟩
      have hzero := hzero (text d) (List.mem_of_getElem? (htext d hd))
      exact ⟨text d, htext d hd,
        (Compilation.exists_diagnosed_iff hzero).mp ⟨d, hjudge d hd⟩⟩
    · rintro ⟨text, htext, hprogram⟩
      obtain ⟨d, hd⟩ :=
        (Compilation.exists_diagnosed_iff (hzero text (List.mem_of_getElem? htext))).mpr hprogram
      have hmem : d ∈ reported := (hreported d).mpr ⟨i, text, htext, hd⟩
      exact ⟨d, hmem, expressionUri_injective ((hname d hmem).symm.trans (huri i text d hd))⟩
  · intro c hc
    obtain ⟨d, hd, rfl⟩ := List.mem_map.mp hc
    have hzero := hzero (text d) (List.mem_of_getElem? (htext d hd))
    exact ⟨text d, htext d hd,
      Compilation.complains_of_diagnosed hzero (isLine_expressionUri _) (hjudge d hd)⟩

end Complaints

/-! ## The command -/

end CommandLine

end Bracket
