import Bracket.Proofs.Compilation.Verdicts

/-!
# Gathering results

Gathering goes through the results in the order in which they arrive. It is stopped by a failure
that holds no diagnosis, and otherwise it takes the modules of the results that did not fail
(`gather_eq_ok_iff`).

The modules of an image have different names in ascending order, whatever was gathered
(`pairwise_imageOf`). If the names were different before, the image holds all the modules and does
not depend on their order (`imageOf_perm`).
-/

namespace Bracket

/-- A diagnosis is the first one in its own failure. -/
@[simp] theorem Diagnosis.first?_toFailure (d : Diagnosis) : first? d.toFailure = some d := by
  simp [first?, toFailure, Failure.find?, ofFailure?]

namespace Compilation

/-! ## Results -/

namespace Result

/-- The modules that are taken from a result. -/
def modules (r : Result) : List Module :=
  match r.failure? with
  | none => r.module?.toList
  | some _ => []

/-- The result does not stop the compilation: a failure, if there is one, holds a diagnosis. -/
def Passes (r : Result) : Prop := ∀ f, r.failure? = some f → (Diagnosis.first? f).isSome

@[simp] theorem modules_idle : idle.modules = [] := rfl

theorem passes_idle : idle.Passes := by simp [Passes, idle]

end Result

/-- **Gathering succeeds if every result passes**, and then takes the modules in order. -/
theorem gather_eq_ok_iff {results : List Result} {modules : List Module} :
    gather results = .ok modules ↔
      (∀ r ∈ results, r.Passes) ∧ modules = results.flatMap Result.modules := by
  induction results generalizing modules with
  | nil => simp [gather, eq_comm]
  | cons r rest ih =>
    unfold gather
    cases hf : r.failure? with
    | none =>
      have hpass : r.Passes := by simp [Result.Passes, hf]
      have hmodules : r.modules = r.module?.toList := by simp [Result.modules, hf]
      cases hrest : gather rest with
      | error f =>
        -- some later result does not pass, and stops the whole
        have hnot : ¬ ∀ r ∈ rest, r.Passes := by
          intro h
          have hok := ih.mpr ⟨h, rfl⟩
          simp [hrest] at hok
        simp [Except.map, hpass, hnot]
      | ok more =>
        obtain ⟨hall, rfl⟩ := ih.mp hrest
        simp only [Except.map, Except.ok.injEq, List.forall_mem_cons, List.flatMap_cons, hmodules]
        exact ⟨fun h => ⟨⟨hpass, hall⟩, h.symm⟩, fun h => h.2.symm⟩
    | some f =>
      have hmodules : r.modules = [] := by simp [Result.modules, hf]
      cases hd : Diagnosis.first? f with
      | none =>
        have hnot : ¬ r.Passes := by simp [Result.Passes, hf, hd]
        simp [hd, hnot]
      | some d =>
        have hpass : r.Passes := by simp [Result.Passes, hf, hd]
        simp [hd, ih, hpass, hmodules]

namespace Verdict

@[simp] theorem modules_result (nonFatal : List Code) (v : Verdict) :
    (v.result nonFatal).modules = v.modules := by
  cases v with
  | parsed m => rfl
  | unread f => rfl
  | diagnosed d => by_cases h : d.code ∈ nonFatal <;> simp [result, Result.modules, modules, h]

/-- Only a failure of reading can stop a compilation. -/
theorem passes_result {nonFatal : List Code} {v : Verdict} :
    (v.result nonFatal).Passes ↔ ∀ f, v = unread f → (Diagnosis.first? f).isSome := by
  cases v with
  | parsed m => simp [result, Result.Passes]
  | unread f => simp [result, Result.Passes]
  | diagnosed d => by_cases h : d.code ∈ nonFatal <;> simp [result, Result.Passes, h]

end Verdict

/-! ## Images -/

/-- Of the modules with one name only the first is kept, and none with a name that is already taken.
-/
theorem nodup_distinct (included : List Bytes) (ms : List Module) :
    ((distinct included ms).map (·.uri)).Nodup ∧
      ∀ m ∈ distinct included ms, m.uri ∉ included := by
  induction ms generalizing included with
  | nil => simp [distinct]
  | cons m rest ih =>
    unfold distinct
    split
    · exact ih included
    · next hm =>
      obtain ⟨hnodup, hnew⟩ := ih (m.uri :: included)
      refine ⟨?_, ?_⟩
      · rw [List.map_cons, List.nodup_cons, List.mem_map]
        refine ⟨?_, hnodup⟩
        rintro ⟨m', hm', huri⟩
        exact hnew m' hm' (huri ▸ List.mem_cons_self)
      · rintro m' hm'
        rcases List.mem_cons.mp hm' with rfl | hm'
        · simpa using hm
        · exact fun h => hnew m' hm' (List.mem_cons_of_mem _ h)

/-- Modules with different names are all kept. -/
theorem distinct_eq_self {included : List Bytes} {ms : List Module}
    (hnodup : (ms.map (·.uri)).Nodup) (hnew : ∀ m ∈ ms, m.uri ∉ included) :
    distinct included ms = ms := by
  induction ms generalizing included with
  | nil => rfl
  | cons m rest ih =>
    rw [List.map_cons, List.nodup_cons] at hnodup
    have hm : m.uri ∉ included := hnew m List.mem_cons_self
    -- the name of the first module is new to the rest as well
    have hrest : distinct (m.uri :: included) rest = rest := by
      refine ih hnodup.2 fun m' hm' h => ?_
      rcases List.mem_cons.mp h with huri | h
      · exact hnodup.1 (huri ▸ List.mem_map_of_mem hm')
      · exact hnew m' (List.mem_cons_of_mem _ hm') h
    simp [distinct, hm, hrest]

/-- **The names of an image are strictly ascending.** -/
theorem pairwise_imageOf (ms : List Module) :
    (imageOf ms).modules.Pairwise (fun a b => a.uri < b.uri) := by
  have hle := Bytes.pairwise_mergeSort Module.uri (distinct [] ms)
  have hne : (imageOf ms).modules.Pairwise (fun a b => a.uri ≠ b.uri) := by
    have hperm : (imageOf ms).modules.Perm (distinct [] ms) := List.mergeSort_perm _ _
    exact List.pairwise_map.mp ((hperm.map _).nodup_iff.mpr (nodup_distinct [] ms).1)
  refine (hle.and hne).imp fun {a b} h => ?_
  exact (List.le_iff_lt_or_eq.mp h.1).resolve_right h.2

/-- The image holds every module, if no two have the same name. -/
theorem mem_imageOf {ms : List Module} (h : (ms.map (·.uri)).Nodup) {m : Module} :
    m ∈ (imageOf ms).modules ↔ m ∈ ms := by
  simp [imageOf, distinct_eq_self h]

/-- **The image of modules with different names does not depend on their order.** -/
theorem imageOf_perm {ms ms' : List Module} (hperm : ms.Perm ms')
    (h : (ms.map (·.uri)).Nodup) : imageOf ms = imageOf ms' := by
  have h' : (ms'.map (·.uri)).Nodup := (hperm.map _).nodup_iff.mp h
  have hmodules : (imageOf ms).modules.Perm (imageOf ms').modules := by
    simp only [imageOf, distinct_eq_self h, distinct_eq_self h', List.not_mem_nil,
      not_false_eq_true, implies_true]
    exact (List.mergeSort_perm ms _).trans (hperm.trans (List.mergeSort_perm ms' _).symm)
  -- strictly ascending lists with the same members are the same
  have heq : (imageOf ms).modules = (imageOf ms').modules :=
    List.Perm.eq_of_pairwise (fun a b _ _ hab hba => absurd hba (List.lt_asymm hab))
      (pairwise_imageOf ms) (pairwise_imageOf ms') hmodules
  exact congrArg Image.mk heq

end Compilation

end Bracket
