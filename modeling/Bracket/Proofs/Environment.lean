import Mathlib.Data.List.Forall2
import Bracket.Environment
import Bracket.Proofs.Path.Parts

/-!
# The shape of the default roots

The name of the program is joined to a data directory before variables are expanded. What stands
behind a dollar sign ends before the next slash, unless it is in braces, and braces that are not
closed are dropped without what they hold (`variableAt_append`). So expansion never reads past the
slash in front of the name (`expand_append`), and every root ends in it (`defaultRoots_shape`).
-/

namespace Bracket

namespace Environment

open Bracket.Path

/-! ## Variables in front of a slash -/

/-- How many bytes behind the dollar sign belong to the variable. -/
def Variable.width : Variable → Nat
  | .named _ width => width
  | .none => 0
  | .malformed width => width

/-- A variable is no longer than what stands behind its dollar sign. -/
theorem width_variableAt_le (text : Bytes) : (variableAt text).width ≤ text.length := by
  unfold variableAt
  split
  · simp [Variable.width]
  · next inside =>
    cases inside with
    | nil => simp [Variable.width]
    | cons c rest =>
      dsimp only
      split
      · next hspecial =>
        cases rest with
        | nil => simp at hspecial
        | cons d rest => simp [Variable.width]
      · split
        · simp [Variable.width]
        · next name _ hcut =>
          obtain ⟨-, hinside⟩ := Bytes.cut_eq_some_iff.mp hcut
          have hlength := congrArg List.length hinside
          simp only [List.length_cons, List.length_append] at hlength
          simp only [Variable.width, List.length_cons]
          omega
        · simp [Variable.width]
  · next c rest _ =>
    split
    · simp [Variable.width]
    · split
      · simp [Variable.width]
      · exact (List.takeWhile_sublist _).length_le

/-- The variable in braces, given what stands before and behind the first closing one. -/
def Variable.braced : Option (Bytes × Bytes) → Variable
  | some ([], _) => .malformed 2
  | some (name, _) => .named name (name.length + 2)
  | Option.none => .malformed 1

/-- A special character is closed at once, and otherwise all up to the closing brace is the name. -/
theorem variableAt_brace (inside : Bytes) :
    variableAt (0x7B :: inside) =
      if inside.head?.any isSpecialName && inside.tail.head? == some 0x7D then
        .named (inside.take 1) 3
      else .braced (Bytes.cut 0x7D inside) := by
  cases inside with
  | nil => rfl
  | cons c rest =>
    simp only [variableAt, Variable.braced, List.head?_cons, Option.any_some, List.tail_cons]
    rfl

/-- Without a brace the name is one special character, or as many bytes of names as there are. -/
theorem variableAt_cons {c : UInt8} (hc : c ≠ 0x7B) (tail : Bytes) :
    variableAt (c :: tail) =
      if isSpecialName c then .named [c] 1
      else
        match (c :: tail).takeWhile isNameByte with
        | [] => .none
        | name => .named name name.length := by
  unfold variableAt
  split
  · next heq => simp at heq
  · next heq => exact absurd (List.cons.inj heq).1 hc
  · next heq =>
    obtain ⟨rfl, rfl⟩ := List.cons.inj heq
    rfl

/-- **A variable ends before a slash** that follows the text, if no brace is open there or none is
closed behind it. -/
theorem variableAt_append {text rest : Bytes} (hne : text ≠ [])
    (h : 0x7D ∉ rest ∨ ∀ inside, text = 0x7B :: inside → 0x7D ∈ inside) :
    variableAt (text ++ separator :: rest) = variableAt text := by
  obtain ⟨c, tail, rfl⟩ := List.exists_cons_of_ne_nil hne
  rw [List.cons_append]
  by_cases hc : c = 0x7B
  · subst hc
    have hcut : Variable.braced (Bytes.cut 0x7D (tail ++ separator :: rest)) =
        .braced (Bytes.cut 0x7D tail) := by
      cases hcut : Bytes.cut 0x7D tail with
      | some found =>
        obtain ⟨before, behind⟩ := found
        obtain ⟨hbefore, rfl⟩ := Bytes.cut_eq_some_iff.mp hcut
        have hlonger : Bytes.cut 0x7D (before ++ 0x7D :: behind ++ separator :: rest) =
            some (before, behind ++ separator :: rest) :=
          Bytes.cut_eq_some_iff.mpr ⟨hbefore, by simp⟩
        rw [hlonger]
        cases before <;> rfl
      | none =>
        have htail := Bytes.cut_eq_none_iff.mp hcut
        have hrest : 0x7D ∉ rest := h.resolve_right fun hclosed => htail (hclosed tail rfl)
        have hnone : 0x7D ∉ tail ++ separator :: rest := by
          simp [htail, hrest]
          decide
        rw [Bytes.cut_eq_none_iff.mpr hnone]
    rw [variableAt_brace, variableAt_brace, hcut]
    -- only the first two bytes count for a special character, and a slash does not close it
    match tail with
    | [] => rfl
    | [c] =>
      have hslash : (separator == 0x7D) = false := by decide
      simp [hslash]
    | c :: d :: more => rfl
  · have htake : (c :: (tail ++ separator :: rest)).takeWhile isNameByte =
        (c :: tail).takeWhile isNameByte := by
      have hend : (separator :: rest).takeWhile isNameByte = [] := rfl
      rw [← List.cons_append, List.takeWhile_append, hend, List.append_nil]
      split
      · next hall => exact ((List.takeWhile_prefix _).eq_of_length hall).symm
      · rfl
    rw [variableAt_cons hc, variableAt_cons hc, htake]

/-! ## Expansion in front of a slash -/

/-- Every brace behind a dollar sign is closed. -/
def BracesClose (text : Bytes) : Prop :=
  ∀ inside, 0x24 :: 0x7B :: inside <:+ text → 0x7D ∈ inside

/-- What stands at the end of a text closes its braces if the text does. -/
theorem BracesClose.of_suffix {text back : Bytes} (h : BracesClose text) (hback : back <:+ text) :
    BracesClose back :=
  fun inside hinside => h inside (hinside.trans hback)

variable (env : Environment)

theorem expand_nil : env.expand [] = [] := by rw [expand]

theorem expand_cons {b : UInt8} (hb : b ≠ 0x24) (rest : Bytes) :
    env.expand (b :: rest) = b :: env.expand rest := by
  rw [expand, if_neg (fun h => hb h.1)]

/-- What stands in the place of a variable. -/
def Variable.text (env : Environment) : Variable → Bytes
  | .named name _ => env.value name
  | .none => [0x24]
  | .malformed _ => []

/-- A dollar sign takes the variable behind it, and expansion goes on behind that. -/
theorem expand_dollar {rest : Bytes} (h : rest ≠ []) :
    env.expand (0x24 :: rest) =
      (variableAt rest).text env ++ env.expand (rest.drop (variableAt rest).width) := by
  rw [expand, if_pos ⟨rfl, h⟩]
  cases variableAt rest <;> rfl

/-- A text without a dollar sign is left as it is. -/
theorem expand_of_notMem {text : Bytes} (h : 0x24 ∉ text) : env.expand text = text := by
  induction text with
  | nil => exact expand_nil env
  | cons b rest ih =>
    obtain ⟨hb, hrest⟩ := not_or.mp (mt List.mem_cons.mpr h)
    rw [expand_cons env (Ne.symm hb), ih hrest]

theorem expand_separator (rest : Bytes) :
    env.expand (separator :: rest) = separator :: env.expand rest :=
  expand_cons env (by decide) rest

/-- **Expansion never reads past a slash**, unless a brace is open in front of it and closed
behind. -/
theorem expand_append {text rest : Bytes} (h : 0x7D ∉ rest ∨ BracesClose text) :
    env.expand (text ++ separator :: rest) = env.expand text ++ separator :: env.expand rest := by
  induction hlength : text.length using Nat.strong_induction_on generalizing text with
  | _ n ih =>
    match text with
    | [] => rw [List.nil_append, expand_separator, expand_nil, List.nil_append]
    | b :: tail =>
      have hstep : ∀ k, env.expand (tail.drop k ++ separator :: rest) =
          env.expand (tail.drop k) ++ separator :: env.expand rest := by
        intro k
        have hback : tail.drop k <:+ b :: tail :=
          (List.drop_suffix k tail).trans (List.suffix_cons b tail)
        refine ih (tail.drop k).length ?_ (h.imp_right fun hclose => hclose.of_suffix hback) rfl
        rw [← hlength, List.length_drop, List.length_cons]
        omega
      rw [List.cons_append]
      by_cases hb : b = 0x24
      · subst hb
        by_cases htail : tail = []
        · -- a dollar sign in front of the slash names nothing
          have hnothing : variableAt (separator :: rest) = .none := rfl
          have hlone : env.expand [0x24] = [0x24] := by simp [expand]
          rw [htail, List.nil_append, expand_dollar env (by simp), hnothing, hlone]
          exact congrArg _ (expand_separator env rest)
        · have hsame : variableAt (tail ++ separator :: rest) = variableAt tail := by
            refine variableAt_append htail (h.imp_right fun hclose inside hinside => ?_)
            exact hclose inside (hinside ▸ List.suffix_rfl)
          rw [expand_dollar env (by simp), expand_dollar env htail, hsame,
            List.drop_append_of_le_length (width_variableAt_le tail), hstep, List.append_assoc]
      · rw [expand_cons env hb, expand_cons env hb]
        simpa using hstep 0

/-! ## Roots -/

/-- What lists the data directories: the variable, or the default if it is not set or empty. -/
def listed (env : Environment) : Bytes :=
  match env.lookup? dataDirectories with
  | none => defaultDataDirectories
  | some [] => defaultDataDirectories
  | some directories => directories

/-- The data directories: all between colons that is not empty. -/
def directories (env : Environment) : List Bytes :=
  (List.splitOn 0x3A env.listed).filter (· ≠ [])

theorem ne_nil_of_mem_directories {directory : Bytes} (h : directory ∈ env.directories) :
    directory ≠ [] := by
  simpa using (List.mem_filter.mp h).2

/-- There is one root in every directory, in order. -/
theorem defaultRoots_eq : env.defaultRoots = env.directories.map env.rootIn := by
  have hempty : (fun directory : Bytes => !directory.isEmpty) =
      fun directory => decide (directory ≠ []) := by
    funext directory
    cases directory <;> rfl
  unfold defaultRoots directories listed value
  dsimp only
  rw [hempty, Bytes.splitOn_eq]
  rcases env.lookup? dataDirectories with _ | _ | ⟨b, rest⟩ <;> rfl

theorem isName_programDirectory : IsName programDirectory :=
  ⟨by decide, by decide, by decide, by decide⟩

/-- The name of the program stays behind a slash when what stands in front is expanded. -/
theorem expand_append_programDirectory (text : Bytes) :
    env.expand (text ++ separator :: programDirectory) =
      env.expand text ++ separator :: programDirectory := by
  rw [expand_append env (.inl (by decide)), expand_of_notMem env (by decide : 0x24 ∉ programDirectory)]

/-- **The root in a data directory** is the expanded clean directory with the program's name behind
it, or the name alone in the working directory or in the root. -/
theorem rootIn_eq {directory : Bytes} (h : directory ≠ []) :
    env.rootIn directory =
      if clean directory = here then programDirectory
      else if clean directory = [separator] then separator :: programDirectory
      else env.expand (clean directory) ++ separator :: programDirectory := by
  have hname : env.expand programDirectory = programDirectory := expand_of_notMem env (by decide)
  rw [rootIn, join_name_eq h isName_programDirectory]
  split
  · exact hname
  · split
    · rw [expand_separator, hname]
    · exact expand_append_programDirectory env _

/-- Every root ends in the name of the program. -/
theorem base_rootIn {directory : Bytes} (h : directory ≠ []) :
    base (env.rootIn directory) = programDirectory := by
  rw [rootIn_eq env h]
  split
  · decide
  · split
    · decide
    · exact base_append isName_programDirectory _

/-- **No value can change the shape of the default roots.** There is one root for each data directory
that is listed, in order. It is the clean directory with its variables expanded and the program's
name behind it, or only the name if the directory is the working directory or the root; so its last
element is the program's name, whatever the variables hold. -/
theorem defaultRoots_shape :
    List.Forall₂ (fun directory root =>
      root =
        (if clean directory = here then programDirectory
        else if clean directory = [separator] then separator :: programDirectory
        else env.expand (clean directory) ++ separator :: programDirectory) ∧
      base root = programDirectory) env.directories env.defaultRoots := by
  rw [defaultRoots_eq, List.forall₂_map_right_iff, List.forall₂_same]
  intro directory hdirectory
  have hne := ne_nil_of_mem_directories env hdirectory
  exact ⟨rootIn_eq env hne, base_rootIn env hne⟩

end Environment

end Bracket
