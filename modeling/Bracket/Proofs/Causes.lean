import Mathlib.Logic.Relation
import Bracket.Diagnosis

/-!
# Codes and causes

A failure shows its causes (`Failure.causes`), and from one cause to the next all failures in a tree
can be reached (`Failure.Reaches`), except those in a bundle, which shows nothing. The searches for a
code and for a class of plain failures look at a failure and go on to its causes. Such a search
finds something exactly if it can be reached (`search_iff`), whatever it looks for.

Diagnoses are made around other failures. What is found in one is found in its causes, or is its own
code, so none of the ways to make a diagnosis hides a code or the end of input
(`Diagnosis.wrapping_hides_no_code`).
-/

namespace Bracket

namespace Failure

/-! ## Trees of causes -/

/-- The causes that a failure shows. A bundle shows none of its members. -/
def causes : Failure → List Failure
  | .plain _ _ | .bundle _ => []
  | .labelled _ cause => [cause]
  | .atPath _ _ reason => [reason]
  | .joined causes | .diagnosis _ _ _ causes => causes

/-- `g` is `f` or a cause of it at some depth. -/
def Reaches (f g : Failure) : Prop := Relation.ReflTransGen (fun f g => g ∈ f.causes) f g

/-- A cause is a smaller tree, so a search through the causes ends. -/
theorem sizeOf_lt_of_mem_causes {f g : Failure} (h : g ∈ f.causes) : sizeOf g < sizeOf f := by
  cases f with
  | plain kind text => simp [causes] at h
  | bundle members => simp [causes] at h
  | labelled label cause =>
    obtain rfl : g = cause := by simpa [causes] using h
    rw [labelled.sizeOf_spec]
    omega
  | atPath operation path reason =>
    obtain rfl : g = reason := by simpa [causes] using h
    rw [atPath.sizeOf_spec]
    omega
  | joined causes' =>
    have hlt : sizeOf g < sizeOf causes' := List.sizeOf_lt_of_mem h
    rw [joined.sizeOf_spec]
    omega
  | diagnosis code message location causes' =>
    have hlt : sizeOf g < sizeOf causes' := List.sizeOf_lt_of_mem h
    rw [diagnosis.sizeOf_spec]
    omega

section Search

variable {search test : Failure → Prop}

/-- What a search finds can be reached. -/
theorem exists_reaches_of_search (hstep : ∀ f, search f ↔ test f ∨ ∃ g ∈ f.causes, search g)
    (f : Failure) (h : search f) : ∃ g, f.Reaches g ∧ test g := by
  rcases (hstep f).mp h with htest | ⟨g, hg, hsearch⟩
  · exact ⟨f, .refl, htest⟩
  · obtain ⟨g', hreaches, htest⟩ := exists_reaches_of_search hstep g hsearch
    exact ⟨g', .head hg hreaches, htest⟩
termination_by sizeOf f
decreasing_by exact sizeOf_lt_of_mem_causes hg

/-- **A search that goes on to the causes finds what can be reached**, and nothing else. -/
theorem search_iff (hstep : ∀ f, search f ↔ test f ∨ ∃ g ∈ f.causes, search g) (f : Failure) :
    search f ↔ ∃ g, f.Reaches g ∧ test g := by
  refine ⟨exists_reaches_of_search hstep f, ?_⟩
  rintro ⟨g, hreaches, htest⟩
  induction hreaches using Relation.ReflTransGen.head_induction_on with
  | refl => exact (hstep g).mpr (.inl htest)
  | head hcause _ ih => exact (hstep _).mpr (.inr ⟨_, hcause, ih⟩)

end Search

/-! ## Searches -/

/-- Searching several failures is searching each of them. -/
theorem anyHasCode_iff {code : Code} {fs : List Failure} :
    anyHasCode code fs = true ↔ ∃ f ∈ fs, f.hasCode code = true := by
  induction fs with
  | nil => simp [anyHasCode]
  | cons f fs ih => simp [anyHasCode, ih]

theorem anyHasClass_iff {kind : FailureClass} {fs : List Failure} :
    anyHasClass kind fs = true ↔ ∃ f ∈ fs, f.hasClass kind = true := by
  induction fs with
  | nil => simp [anyHasClass]
  | cons f fs ih => simp [anyHasClass, ih]

/-- A code is looked for in the failure itself and then in its causes. -/
theorem hasCode_iff_causes (code : Code) (f : Failure) :
    f.hasCode code = true ↔
      (∃ d : Diagnosis, f = d.toFailure ∧ d.code = code) ∨
        ∃ g ∈ f.causes, g.hasCode code = true := by
  cases f with
  | diagnosis code' message location causes' =>
    -- only a diagnosis has a code of its own
    have hself : (∃ d : Diagnosis, diagnosis code' message location causes' = d.toFailure ∧
        d.code = code) ↔ code' = code := by
      constructor
      · rintro ⟨d, hd, hcode⟩
        simp only [Diagnosis.toFailure, diagnosis.injEq] at hd
        exact hd.1.trans hcode
      · intro hcode
        exact ⟨⟨code', message, location, causes'⟩, rfl, hcode⟩
    simp [hasCode, causes, anyHasCode_iff, hself]
  | joined causes' => simp [hasCode, causes, anyHasCode_iff, Diagnosis.toFailure]
  | plain kind text => simp [hasCode, causes, Diagnosis.toFailure]
  | bundle members => simp [hasCode, causes, Diagnosis.toFailure]
  | labelled label cause => simp [hasCode, causes, Diagnosis.toFailure]
  | atPath operation path reason => simp [hasCode, causes, Diagnosis.toFailure]

/-- A class is looked for in the failure itself and then in its causes. -/
theorem hasClass_iff_causes (kind : FailureClass) (f : Failure) :
    f.hasClass kind = true ↔
      (∃ text, f = .plain kind text) ∨ ∃ g ∈ f.causes, g.hasClass kind = true := by
  cases f <;> simp [hasClass, causes, anyHasClass_iff]

/-- **A code is found exactly if a diagnosis with that code can be reached.** -/
theorem hasCode_iff_reaches {code : Code} {f : Failure} :
    f.hasCode code = true ↔ ∃ d : Diagnosis, f.Reaches d.toFailure ∧ d.code = code := by
  rw [search_iff (hasCode_iff_causes code) f]
  constructor
  · rintro ⟨_, hreaches, d, rfl, hcode⟩
    exact ⟨d, hreaches, hcode⟩
  · rintro ⟨d, hreaches, hcode⟩
    exact ⟨_, hreaches, d, rfl, hcode⟩

/-- **The end of input is found exactly if it can be reached.** -/
theorem isEndOfInput_iff_reaches {f : Failure} :
    f.isEndOfInput = true ↔ ∃ text, f.Reaches (.plain .endOfInput text) := by
  rw [isEndOfInput, search_iff (hasClass_iff_causes .endOfInput) f]
  constructor
  · rintro ⟨_, hreaches, text, rfl⟩
    exact ⟨text, hreaches⟩
  · rintro ⟨text, hreaches⟩
    exact ⟨_, hreaches, text, rfl⟩

end Failure

namespace Diagnosis

/-! ## Ways to make a diagnosis -/

/-- A diagnosis has its own code and those of its causes. -/
theorem hasCode_toFailure (d : Diagnosis) (code : Code) :
    d.toFailure.hasCode code = true ↔ code = d.code ∨ ∃ f ∈ d.causes, f.hasCode code = true := by
  rw [toFailure, Failure.hasCode, Bool.or_eq_true, beq_iff_eq, Failure.anyHasCode_iff]
  exact or_congr_left eq_comm

/-- A diagnosis is caused by the end of input iff one of its causes is. -/
theorem isEndOfInput_toFailure (d : Diagnosis) :
    d.toFailure.isEndOfInput = true ↔ ∃ f ∈ d.causes, f.isEndOfInput = true := by
  simp [toFailure, Failure.isEndOfInput, Failure.hasClass, Failure.anyHasClass_iff]

/-- What is made from one failure is due to the end of input iff that failure is. -/
theorem isEndOfInput_wrap (location : Location) (code : Code) (f : Failure) :
    (wrap location code f).toFailure.isEndOfInput = f.isEndOfInput := by
  rw [Bool.eq_iff_iff, isEndOfInput_toFailure]
  simp [wrap]

/-- The causes of a joined diagnosis are the failures that are there; absent ones are dropped. -/
theorem mem_causes_join {location : Location} {code : Code} {message : Bytes}
    {causes : List (Option Failure)} {f : Failure} :
    f ∈ (join location code message causes).causes ↔ some f ∈ causes := by
  simp [join]

/-- **No way to make a diagnosis hides a code.** A code is found in a failure exactly if a diagnosis
with that code can be reached from it, and the end of input if it can be reached. So what is made from
a failure, or from all failures that are present in a list, has its own code and theirs and is due to
the end of input if they are; and moving a diagnosis changes neither. -/
theorem wrapping_hides_no_code (code own : Code) (location : Location) (message : Bytes)
    (f : Failure) (causes : List (Option Failure)) (d : Diagnosis) :
    (f.hasCode code = true ↔ ∃ d : Diagnosis, f.Reaches d.toFailure ∧ d.code = code) ∧
    ((wrap location own f).toFailure.hasCode code = true ↔
      code = own ∨ f.hasCode code = true) ∧
    ((join location own message causes).toFailure.hasCode code = true ↔
      code = own ∨ ∃ g, some g ∈ causes ∧ g.hasCode code = true) ∧
    (d.relocate location).toFailure.hasCode code = d.toFailure.hasCode code ∧
    (f.isEndOfInput = true ↔ ∃ text, f.Reaches (.plain .endOfInput text)) ∧
    (wrap location own f).toFailure.isEndOfInput = f.isEndOfInput ∧
    ((join location own message causes).toFailure.isEndOfInput = true ↔
      ∃ g, some g ∈ causes ∧ g.isEndOfInput = true) ∧
    (d.relocate location).toFailure.isEndOfInput = d.toFailure.isEndOfInput := by
  -- a diagnosis has its own code and those of its causes, and the rest is which causes it has
  refine ⟨Failure.hasCode_iff_reaches, ?_, ?_, ?_, Failure.isEndOfInput_iff_reaches, ?_, ?_, ?_⟩
  · simp [hasCode_toFailure, wrap]
  · simp only [hasCode_toFailure, mem_causes_join]
    rfl
  · rw [Bool.eq_iff_iff, hasCode_toFailure, hasCode_toFailure]
    rfl
  · exact isEndOfInput_wrap location own f
  · simp only [isEndOfInput_toFailure, mem_causes_join]
  · rw [Bool.eq_iff_iff, isEndOfInput_toFailure, isEndOfInput_toFailure]
    rfl

end Diagnosis

end Bracket
