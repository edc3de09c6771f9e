import Mathlib.Data.List.FinRange
import Bracket.Proofs.Report

/-!
# Using a report

A report is used by submitting diagnoses and by listing what has arrived, in any order and any
number of times. A submission appends its diagnosis and tells whether it is fatal, and a listing
changes nothing, so the report that calls leave behind is what they submitted, in order (`after_eq`).
Hence every reply depends on the submissions before it only (`getElem?_replies`).

What is listed is determined by the arrivals at each place. Another order of arrival that keeps the
order of diagnoses of the same place (`Rearranges`) has the same arrivals at each place
(`Rearranges.atPlace_eq`): the indices of these arrivals ascend in either order, and an ascending
list is known by its members.
-/

namespace Bracket.Report

/-! ## Calls -/

/-- A call to a report. -/
inductive Use where
  | submit (d : Diagnosis)
  | list

/-- What a call gives back: the diagnosis if it is fatal, or all diagnoses in listing order. -/
inductive Reply where
  | verdict (fatal : Option Diagnosis)
  | listing (ds : List Diagnosis)

def use (report : Report) : Use → Reply × Report
  | .submit d => (.verdict (report.submit d).1, (report.submit d).2)
  | .list => (.listing report.listed, report)

/-- The replies to a sequence of calls, one for each. -/
def replies : Report → List Use → List Reply
  | _, [] => []
  | report, u :: uses => (report.use u).1 :: (report.use u).2.replies uses

/-- The report after a sequence of calls. -/
def after : Report → List Use → Report
  | report, [] => report
  | report, u :: uses => (report.use u).2.after uses

/-- The diagnoses that a sequence of calls submits, in order. -/
def submitted : List Use → List Diagnosis
  | [] => []
  | .submit d :: uses => d :: submitted uses
  | .list :: uses => submitted uses

/-- **Calls leave behind what they submitted**, and never change which codes are fatal. -/
theorem after_eq (report : Report) (uses : List Use) :
    report.after uses = ⟨report.nonFatal, report.arrived ++ submitted uses⟩ := by
  induction uses generalizing report with
  | nil => rw [after, submitted, List.append_nil]
  | cons u uses ih =>
    rw [after, ih]
    cases u with
    | submit d => simp [use, submit, add, submitted]
    | list => rfl

/-- The replies to a second series of uses are those of the report that the first one left. -/
theorem replies_append (report : Report) (front back : List Use) :
    report.replies (front ++ back) = report.replies front ++ (report.after front).replies back := by
  induction front generalizing report with
  | nil => rfl
  | cons u front ih => rw [List.cons_append, replies, replies, after, ih, List.cons_append]

theorem length_replies (report : Report) (uses : List Use) :
    (report.replies uses).length = uses.length := by
  induction uses generalizing report with
  | nil => rfl
  | cons u uses ih => rw [replies, List.length_cons, List.length_cons, ih]

/-- Each reply is that of the report which the calls before have left. -/
theorem getElem?_replies (report : Report) (uses : List Use) (i : Nat) :
    (report.replies uses)[i]? = uses[i]?.map fun u => ((report.after (uses.take i)).use u).1 := by
  induction uses generalizing report i with
  | nil => rfl
  | cons u uses ih =>
    cases i with
    | zero => rfl
    | succ i => exact ih _ i

/-- A submitted diagnosis comes back unless its code is one of those that are not fatal. -/
theorem fst_submit (report : Report) (d : Diagnosis) :
    (report.submit d).1 = if d.code ∈ report.nonFatal then none else some d := by
  by_cases h : d.code ∈ report.nonFatal <;> simp [submit, isFatal, h]

/-! ## Listings -/

/-- `ds` lists what has arrived: nothing is missing or made up, names ascend bytewise and offsets
ascend within a name, and diagnoses of the same place are in order of arrival. -/
structure Lists (arrived ds : List Diagnosis) : Prop where
  perm : ds.Perm arrived
  ascending : ds.Pairwise fun a b =>
    a.location.uri < b.location.uri ∨
      (a.location.uri = b.location.uri ∧
        a.location.position.offset.toInt ≤ b.location.position.offset.toInt)
  stable : ∀ place, atPlace place ds = atPlace place arrived

/-- **A listing is the report in order**, and keeps the order of arrival at every place. -/
theorem lists_listed (report : Report) : Lists report.arrived report.listed where
  perm := List.mergeSort_perm _ _
  ascending := by
    have hbefore : report.listed.Pairwise (fun a b => before a b = true) :=
      List.pairwise_mergeSort before_trans before_total _
    refine hbefore.imp fun {a b} hab => ?_
    rcases before_iff.mp hab with hsame | ⟨hne, hle⟩
    · exact .inr hsame
    · exact .inl ((List.le_iff_lt_or_eq.mp hle).resolve_right hne)
  stable place := atPlace_mergeSort place report.arrived

/-! ## Orders of arrival -/

/-- `es` are the diagnoses `ds` in another order of arrival, in which those of the same place come
in the same order: `σ` tells when each of them arrives. -/
def Rearranges (ds es : List Diagnosis) : Prop :=
  ∃ σ : Fin ds.length ≃ Fin es.length, (∀ i, es[σ i] = ds[i]) ∧
    ∀ i j, i < j → ds[i].place = ds[j].place → σ i < σ j

/-- The indices of the diagnoses of one place. -/
def indicesAt (place : Bytes × Int) (ds : List Diagnosis) : List (Fin ds.length) :=
  (List.finRange ds.length).filter fun i => ds[i].place = place

theorem pairwise_indicesAt (place : Bytes × Int) (ds : List Diagnosis) :
    (indicesAt place ds).Pairwise (· < ·) :=
  (List.pairwise_lt_finRange _).filter _

/-- The indices at a place are those of the diagnoses about it. -/
theorem mem_indicesAt {place : Bytes × Int} {ds : List Diagnosis} {i : Fin ds.length} :
    i ∈ indicesAt place ds ↔ ds[i].place = place := by
  simp [indicesAt]

/-- The diagnoses at a place are found at its indices, in their order. -/
theorem atPlace_eq_map (place : Bytes × Int) (ds : List Diagnosis) :
    atPlace place ds = (indicesAt place ds).map fun i => ds[i] := by
  have hall : (List.finRange ds.length).map (fun i => ds[i]) = ds := List.map_get_finRange ds
  conv_lhs => rw [← hall]
  rw [atPlace, List.filter_map]
  rfl

/-- **Orders of arrival that differ only between places** have the same arrivals at each place. -/
theorem Rearranges.atPlace_eq {ds es : List Diagnosis} (h : Rearranges ds es)
    (place : Bytes × Int) : atPlace place ds = atPlace place es := by
  obtain ⟨σ, hsame, hkept⟩ := h
  -- the indices of one place, in the order of the first list, ascend in the second
  have hascends : ((indicesAt place ds).map σ).Pairwise (· < ·) := by
    rw [List.pairwise_map]
    refine (pairwise_indicesAt place ds).imp_of_mem fun {i j} hi hj hlt => hkept i j hlt ?_
    exact (mem_indicesAt.mp hi).trans (mem_indicesAt.mp hj).symm
  have hmem : ∀ j, j ∈ (indicesAt place ds).map σ ↔ j ∈ indicesAt place es := by
    intro j
    obtain ⟨i, rfl⟩ := σ.surjective j
    rw [List.mem_map_of_injective σ.injective, mem_indicesAt, mem_indicesAt, hsame]
  have hindices : (indicesAt place ds).map σ = indicesAt place es := by
    have hperm := (List.perm_ext_iff_of_nodup (hascends.imp Fin.ne_of_lt)
      ((pairwise_indicesAt place es).imp Fin.ne_of_lt)).mpr hmem
    exact hperm.eq_of_pairwise (fun _ _ _ _ hlt hgt => absurd hgt hlt.asymm) hascends
      (pairwise_indicesAt place es)
  rw [atPlace_eq_map, atPlace_eq_map, ← hindices, List.map_map]
  exact List.map_congr_left fun i _ => (hsame i).symm

/-- **A report keeps everything in a canonical order.** Among any calls to a fresh report, a
submission gives its diagnosis back exactly if the code is not one of those that are not fatal, and
a listing shows what was submitted before it. Without any one of its listings the other replies are
the same. Calls that submit the same diagnoses in another order, which keeps the order of those of
the same place, end in the same listing. -/
theorem replies_canonical (nonFatal : List Code) (uses : List Use) :
    (∀ (i : Nat) (d : Diagnosis), uses[i]? = some (.submit d) →
      ((empty nonFatal).replies uses)[i]? =
        some (.verdict (if d.code ∈ nonFatal then none else some d))) ∧
    (∀ i : Nat, uses[i]? = some .list →
      ∃ ds, ((empty nonFatal).replies uses)[i]? = some (.listing ds) ∧
        Lists (submitted (uses.take i)) ds) ∧
    (∀ front back, uses = front ++ .list :: back →
      ((empty nonFatal).replies uses).eraseIdx front.length =
        (empty nonFatal).replies (front ++ back)) ∧
    ∀ others, Rearranges (submitted uses) (submitted others) →
      ((empty nonFatal).after others).listed = ((empty nonFatal).after uses).listed := by
  refine ⟨fun i d hcall => ?_, fun i hcall => ?_, ?_, fun others hrearranges => ?_⟩
  · rw [getElem?_replies, hcall, after_eq, Option.map_some, use, fst_submit]
    rfl
  · rw [getElem?_replies, hcall, after_eq]
    exact ⟨_, rfl, lists_listed ⟨nonFatal, _⟩⟩
  · rintro front back rfl
    have hlength := length_replies (empty nonFatal) front
    rw [replies_append, replies_append, replies, use, ← hlength, List.eraseIdx_append_of_length_le
      (Nat.le_refl _), Nat.sub_self, List.eraseIdx_cons_zero]
  · refine listed_congr fun place => ?_
    rw [after_eq, after_eq]
    exact (hrearranges.atPlace_eq place).symm

/-- A diagnosis of a whole file. -/
def remark (uri code message : String) : Diagnosis :=
  .new (.ofUri (bytes uri)) (bytes code) (bytes message)

/-- Two remarks on one file and one on another, which may come first or between them. -/
theorem replies_canonical_swapped :
    let a := remark "/a.bf" "M0105" "first"
    let a' := remark "/a.bf" "M0005" "second"
    let b := remark "/b.bf" "M0105" "only"
    ((empty [bytes "M0005"]).replies [.submit b, .list, .submit a, .submit a'])[2]? =
        some (.verdict (some a)) ∧
      ((empty [bytes "M0005"]).replies [.submit b, .list, .submit a, .submit a'])[3]? =
        some (.verdict none) ∧
      ((empty [bytes "M0005"]).after [.submit a, .submit b, .submit a']).listed =
        ((empty [bytes "M0005"]).after [.submit b, .list, .submit a, .submit a']).listed := by
  intro a a' b
  have hrearranges : Rearranges [b, a, a'] [a, b, a'] := by
    refine ⟨Equiv.swap (0 : Fin 3) 1, fun (i : Fin 3) => ?_, show ∀ i j : Fin 3, _ by decide⟩
    match i with
    | 0 => rfl
    | 1 => rfl
    | 2 => rfl
  obtain ⟨hverdicts, -, -, horder⟩ :=
    replies_canonical [bytes "M0005"] [.submit b, .list, .submit a, .submit a']
  refine ⟨(hverdicts 2 a rfl).trans ?_, (hverdicts 3 a' rfl).trans ?_, ?_⟩
  · rw [if_neg (by decide)]
  · rw [if_pos (by decide)]
  · exact horder [.submit a, .submit b, .submit a'] hrearranges

end Bracket.Report
