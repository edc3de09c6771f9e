import Bracket.Report

/-!
# The order of a report

Diagnoses are listed by place: the name of the file and the offset in it. The listing order is total
and transitive, and two diagnoses are listed before each other exactly if they are of the same place
(`Report.before_antisymm_iff`).

Listing is stable, so a list is determined by what arrived at each place, in order
(`Report.listed_congr`). How arrivals of different places are interleaved does not matter, which is
all that is needed for reports that several workers write to.
-/

namespace Bracket

/-- The place of a diagnosis: the name of the file and the offset in it. -/
def Diagnosis.place (d : Diagnosis) : Bytes × Int :=
  (d.location.uri, d.location.position.offset.toInt)

namespace Bytes

theorem le_iff {a b : Bytes} : le a b = true ↔ a ≤ b := by simp [le]

/-- What is sorted by its names is in ascending order of the names. -/
theorem pairwise_mergeSort {α : Type} (name : α → Bytes) (xs : List α) :
    (xs.mergeSort fun a b => le (name a) (name b)).Pairwise fun a b => name a ≤ name b := by
  refine (List.pairwise_mergeSort ?_ ?_ xs).imp le_iff.mp
  · intro a b c hab hbc
    exact le_iff.mpr (List.le_trans (le_iff.mp hab) (le_iff.mp hbc))
  · intro a b
    rw [Bool.or_eq_true, le_iff, le_iff]
    exact List.le_total (name a) (name b)

end Bytes

namespace Report

/-! ## The listing order -/

/-- The listing order compares places. -/
theorem before_iff {a b : Diagnosis} :
    before a b = true ↔
      (a.place.1 = b.place.1 ∧ a.place.2 ≤ b.place.2) ∨
        (a.place.1 ≠ b.place.1 ∧ a.place.1 ≤ b.place.1) := by
  unfold before Diagnosis.place
  split
  · next h => simp [h]
  · next h => simp [h, Bytes.le_iff]

theorem before_trans (a b c : Diagnosis) (hab : before a b = true) (hbc : before b c = true) :
    before a c = true := by
  rw [before_iff] at *
  rcases hab with ⟨huri, hoffset⟩ | ⟨hne, hle⟩ <;> rcases hbc with ⟨huri', hoffset'⟩ | ⟨hne', hle'⟩
  · exact .inl ⟨huri.trans huri', Int.le_trans hoffset hoffset'⟩
  · exact .inr ⟨huri ▸ hne', huri ▸ hle'⟩
  · exact .inr ⟨huri' ▸ hne, huri' ▸ hle⟩
  · refine .inr ⟨fun h => hne ?_, List.le_trans hle hle'⟩
    exact List.le_antisymm hle (h ▸ hle')

theorem before_total (a b : Diagnosis) : (before a b || before b a) = true := by
  rw [Bool.or_eq_true, before_iff, before_iff]
  by_cases h : a.place.1 = b.place.1
  · rcases Int.le_total a.place.2 b.place.2 with hle | hle
    · exact .inl (.inl ⟨h, hle⟩)
    · exact .inr (.inl ⟨h.symm, hle⟩)
  · rcases List.le_total a.place.1 b.place.1 with hle | hle
    · exact .inl (.inr ⟨h, hle⟩)
    · exact .inr (.inr ⟨fun h' => h h'.symm, hle⟩)

/-- Only diagnoses of the same place are listed before each other. -/
theorem before_antisymm_iff {a b : Diagnosis} :
    (before a b = true ∧ before b a = true) ↔ a.place = b.place := by
  rw [before_iff, before_iff, Prod.ext_iff]
  constructor
  · rintro ⟨⟨huri, hle⟩ | ⟨hne, hle⟩, ⟨huri', hle'⟩ | ⟨hne', hle'⟩⟩
    · exact ⟨huri, Int.le_antisymm hle hle'⟩
    · exact absurd huri.symm hne'
    · exact absurd huri'.symm hne
    · exact absurd (List.le_antisymm hle hle') hne
  · rintro ⟨huri, hoffset⟩
    exact ⟨.inl ⟨huri, Int.le_of_eq hoffset⟩, .inl ⟨huri.symm, Int.le_of_eq hoffset.symm⟩⟩

/-! ## Places -/

/-- The diagnoses of one place, in order. -/
def atPlace (place : Bytes × Int) (ds : List Diagnosis) : List Diagnosis :=
  ds.filter fun d => d.place = place

theorem atPlace_append (place : Bytes × Int) (ds es : List Diagnosis) :
    atPlace place (ds ++ es) = atPlace place ds ++ atPlace place es := List.filter_append ..

/-- The diagnoses at a place are those of the report which are about it. -/
theorem mem_atPlace {place : Bytes × Int} {ds : List Diagnosis} {d : Diagnosis} :
    d ∈ atPlace place ds ↔ d ∈ ds ∧ d.place = place := by
  simp [atPlace]

/-- Listing leaves the diagnoses of one place in order. -/
theorem atPlace_mergeSort (place : Bytes × Int) (ds : List Diagnosis) :
    atPlace place (ds.mergeSort before) = atPlace place ds := by
  -- the diagnoses of one place are sorted as they are, so sorting keeps them as a sublist
  have hsorted : (atPlace place ds).Pairwise (fun a b => before a b = true) := by
    refine List.Pairwise.imp_of_mem ?_ (List.pairwise_of_forall (R := fun _ _ => True) (by simp))
    intro a b ha hb _
    exact (before_antisymm_iff.mpr ((mem_atPlace.mp ha).2.trans (mem_atPlace.mp hb).2.symm)).1
  have hsub : (atPlace place ds).Sublist (ds.mergeSort before) :=
    List.sublist_mergeSort before_trans before_total hsorted List.filter_sublist
  have hfiltered : (atPlace place (atPlace place ds)).Sublist (atPlace place (ds.mergeSort before)) :=
    hsub.filter _
  have hself : atPlace place (atPlace place ds) = atPlace place ds := by simp [atPlace]
  rw [hself] at hfiltered
  refine (hfiltered.eq_of_length ?_).symm
  exact ((List.mergeSort_perm ds before).filter _).length_eq.symm

/-- Sorted lists with the same diagnoses at every place, in order, are equal. -/
theorem eq_of_atPlace_eq {ds es : List Diagnosis}
    (hds : ds.Pairwise (fun a b => before a b = true))
    (hes : es.Pairwise (fun a b => before a b = true))
    (h : ∀ place, atPlace place ds = atPlace place es) : ds = es := by
  induction ds generalizing es with
  | nil =>
    cases es with
    | nil => rfl
    | cons e es => simpa [atPlace] using h e.place
  | cons d ds ih =>
    cases es with
    | nil => simpa [atPlace] using h d.place
    | cons e es =>
      -- the first diagnosis of either list is in the other, so neither is listed later
      have hd : d ∈ e :: es := by
        have hmem : d ∈ atPlace d.place (d :: ds) := mem_atPlace.mpr ⟨List.mem_cons_self, rfl⟩
        rw [h] at hmem
        exact (mem_atPlace.mp hmem).1
      have he : e ∈ d :: ds := by
        have hmem : e ∈ atPlace e.place (e :: es) := mem_atPlace.mpr ⟨List.mem_cons_self, rfl⟩
        rw [← h] at hmem
        exact (mem_atPlace.mp hmem).1
      have hplace : d.place = e.place := by
        rcases List.mem_cons.mp hd with rfl | hd
        · rfl
        rcases List.mem_cons.mp he with rfl | he
        · rfl
        exact before_antisymm_iff.mp ⟨List.rel_of_pairwise_cons hds he,
          List.rel_of_pairwise_cons hes hd⟩
      obtain rfl : d = e := by
        have hhead := h d.place
        simp only [atPlace, List.filter_cons, decide_true, if_true, hplace] at hhead
        exact (List.cons.inj hhead).1
      -- without its first diagnosis, either list has the same diagnoses at every place
      congr 1
      refine ih (List.Pairwise.of_cons hds) (List.Pairwise.of_cons hes) fun place => ?_
      have htail := h place
      simp only [atPlace, List.filter_cons] at htail ⊢
      split at htail
      · exact (List.cons.inj htail).2
      · exact htail

/-- **A listing is determined by what arrived at each place.** -/
theorem listed_congr {r r' : Report}
    (h : ∀ place, atPlace place r.arrived = atPlace place r'.arrived) : r.listed = r'.listed := by
  refine eq_of_atPlace_eq (List.pairwise_mergeSort before_trans before_total _)
    (List.pairwise_mergeSort before_trans before_total _) fun place => ?_
  unfold listed
  rw [atPlace_mergeSort, atPlace_mergeSort, h]

/-- What is listed behind other diagnoses may have been listed before. -/
theorem mergeSort_append_mergeSort (earlier ds : List Diagnosis) :
    (earlier ++ ds.mergeSort before).mergeSort before = (earlier ++ ds).mergeSort before := by
  refine @listed_congr ⟨[], _⟩ ⟨[], _⟩ fun place => ?_
  rw [atPlace_append, atPlace_append, atPlace_mergeSort]

/-- No two diagnoses of one place are among diagnoses of different files. -/
theorem pairwise_atPlace {ds : List Diagnosis} (h : (ds.map (·.location.uri)).Nodup)
    (place : Bytes × Int) : (atPlace place ds).Pairwise (fun _ _ => False) := by
  have hne : ds.Pairwise (fun a b => a.location.uri ≠ b.location.uri) := List.pairwise_map.mp h
  refine (hne.filter _).imp_of_mem fun {a b} ha hb hab => hab ?_
  have hplace : a.place = b.place := (mem_atPlace.mp ha).2.trans (mem_atPlace.mp hb).2.symm
  exact congrArg Prod.fst hplace

/-- **Diagnoses of different files may arrive in any order**, behind what arrived before. -/
theorem listed_perm {r r' : Report} {earlier ds es : List Diagnosis}
    (hr : r.arrived = earlier ++ ds) (hr' : r'.arrived = earlier ++ es) (hperm : ds.Perm es)
    (h : (ds.map (·.location.uri)).Nodup) : r.listed = r'.listed := by
  refine listed_congr fun place => ?_
  have hes : (es.map (·.location.uri)).Nodup := (hperm.map _).nodup_iff.mp h
  have heq : atPlace place ds = atPlace place es :=
    List.Perm.eq_of_pairwise (fun _ _ _ _ h _ => h.elim) (pairwise_atPlace h place)
      (pairwise_atPlace hes place) (hperm.filter _)
  rw [hr, hr', atPlace_append, atPlace_append, heq]

/-- Diagnoses of different files are listed in ascending order of their names. -/
theorem pairwise_listed {report : Report} (h : (report.arrived.map (·.location.uri)).Nodup) :
    report.listed.Pairwise (fun a b => a.location.uri < b.location.uri) := by
  have hne : report.listed.Pairwise (fun a b => a.location.uri ≠ b.location.uri) := by
    have hperm : report.listed.Perm report.arrived := List.mergeSort_perm _ _
    exact List.pairwise_map.mp ((hperm.map _).nodup_iff.mpr h)
  have hbefore : report.listed.Pairwise (fun a b => before a b = true) :=
    List.pairwise_mergeSort before_trans before_total _
  refine (hbefore.and hne).imp fun {a b} hab => ?_
  rcases before_iff.mp hab.1 with ⟨huri, -⟩ | ⟨-, hle⟩
  · exact absurd huri hab.2
  · exact (List.le_iff_lt_or_eq.mp hle).resolve_right hab.2

theorem listed_eq_nil_iff {report : Report} : report.listed = [] ↔ report.arrived = [] := by
  rw [← List.length_eq_zero_iff, ← List.length_eq_zero_iff, listed, List.length_mergeSort]

end Report

end Bracket
