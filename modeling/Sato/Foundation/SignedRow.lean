import Mathlib.Data.List.Sections
import Mathlib.Data.Set.Finite.Basic
import Sato.Foundation.Cnf

/-! # Assignments as rows of signed numbers

A total assignment of the variables `1, .., n` lists each number with its sign.
It satisfies a clause of signed numbers when the two share one. The opposite of
a total assignment is a clause that this assignment alone falsifies.
-/

namespace Foundation

/-- The numbers `1, .., n` in order, each with a sign. -/
def IsTotal (n : ℕ) (row : List ℤ) : Prop := row.map Int.natAbs = List.range' 1 n

instance (n : ℕ) (row : List ℤ) : Decidable (IsTotal n row) :=
  inferInstanceAs (Decidable (_ = _))

/-- A total assignment that satisfies all clauses. -/
structure Models (n : ℕ) (clauses : List (List ℤ)) (row : List ℤ) : Prop where
  total : IsTotal n row
  satisfies : CnfTrue (· ∈ row) clauses

instance (n : ℕ) (clauses : List (List ℤ)) (row : List ℤ) : Decidable (Models n clauses row) :=
  decidable_of_iff (IsTotal n row ∧ CnfTrue (· ∈ row) clauses)
    ⟨fun h => ⟨h.1, h.2⟩, fun h => ⟨h.total, h.satisfies⟩⟩

namespace IsTotal

variable {n : ℕ} {row other : List ℤ}

theorem length_eq (h : IsTotal n row) : row.length = n := by
  simpa using congrArg List.length h

theorem natAbs_mem (h : IsTotal n row) {k : ℤ} (hk : k ∈ row) :
    1 ≤ k.natAbs ∧ k.natAbs ≤ n := by
  have hmem : k.natAbs ∈ List.range' 1 n := h ▸ List.mem_map_of_mem hk
  simp only [List.mem_range'_1] at hmem
  omega

theorem natAbs_getElem (h : IsTotal n row) {i : ℕ} (hi : i < row.length) :
    row[i].natAbs = i + 1 := by
  have hget := congrArg (fun l => l[i]?) h
  simp only [List.getElem?_map, List.getElem?_eq_getElem hi, Option.map_some] at hget
  rw [List.getElem?_range' (by rw [← h.length_eq]; exact hi)] at hget
  have := Option.some.inj hget
  omega

/-- A total assignment has each number with one sign. -/
theorem getElem_eq_of_mem (h : IsTotal n row) {k : ℤ} (hk : k ∈ row) :
    row[k.natAbs - 1]? = some k := by
  obtain ⟨i, hi, rfl⟩ := List.mem_iff_getElem.mp hk
  rw [h.natAbs_getElem hi, Nat.add_sub_cancel, List.getElem?_eq_getElem hi]

theorem neg_mem_iff (h : IsTotal n row) {k : ℤ} (hpos : 1 ≤ k.natAbs) (hle : k.natAbs ≤ n) :
    -k ∈ row ↔ k ∉ row := by
  constructor
  · intro hneg hmem
    have hget := h.getElem_eq_of_mem hneg
    rw [Int.natAbs_neg, h.getElem_eq_of_mem hmem] at hget
    have := Option.some.inj hget
    omega
  · intro hnot
    have hlt : k.natAbs - 1 < row.length := by rw [h.length_eq]; omega
    have habs := h.natAbs_getElem hlt
    have hmem : row[k.natAbs - 1] ∈ row := List.getElem_mem hlt
    rw [Nat.sub_add_cancel hpos] at habs
    rcases Int.natAbs_eq_natAbs_iff.mp habs with heq | heq
    · exact absurd (heq ▸ hmem) hnot
    · exact heq ▸ hmem

/-- The opposite of an assignment blocks this assignment and no other. -/
theorem satisfies_opposite (h : IsTotal n row) (hother : IsTotal n other) :
    (∃ k ∈ row.map Neg.neg, k ∈ other) ↔ other ≠ row := by
  constructor
  · rintro ⟨k, hk, hmem⟩ rfl
    obtain ⟨m, hm, rfl⟩ := List.mem_map.mp hk
    obtain ⟨hpos, hle⟩ := h.natAbs_mem hm
    exact (h.neg_mem_iff hpos hle).mp hmem hm
  · intro hne
    by_contra hnone
    refine hne (List.ext_getElem (by rw [h.length_eq, hother.length_eq]) fun i hi hi' => ?_)
    by_contra hdiff
    refine hnone ⟨other[i], List.mem_map.mpr ⟨row[i], List.getElem_mem hi', ?_⟩,
      List.getElem_mem hi⟩
    have habs := h.natAbs_getElem hi'
    have habs' := hother.natAbs_getElem hi
    omega

end IsTotal

/-- All total assignments. -/
def totals (n : ℕ) : List (List ℤ) :=
  ((List.range' 1 n).map fun k : ℕ => [(k : ℤ), -k]).sections

theorem mem_totals {n : ℕ} {row : List ℤ} : row ∈ totals n ↔ IsTotal n row := by
  rw [totals, List.mem_sections, List.forall₂_map_right_iff, IsTotal]
  have hsign : ∀ (k : ℤ) (m : ℕ), k ∈ [(m : ℤ), -m] ↔ k.natAbs = m := by
    intro k m
    rw [List.mem_pair]
    omega
  simp only [hsign]
  exact List.forall₂_eq_eq_eq ▸ List.forall₂_map_left_iff.symm

theorem finite_isTotal (n : ℕ) : {row | IsTotal n row}.Finite :=
  (List.finite_toSet (totals n)).subset fun _ hrow => mem_totals.mpr hrow

/-- The opposites of some assignments block these and no others. -/
theorem models_append_opposites {n : ℕ} {clauses : List (List ℤ)} {seen : List (List ℤ)}
    (hseen : ∀ row ∈ seen, IsTotal n row) {row : List ℤ} :
    Models n (clauses ++ seen.map (List.map Neg.neg)) row ↔ Models n clauses row ∧ row ∉ seen := by
  have hblocked : IsTotal n row →
      (CnfTrue (· ∈ row) (seen.map (List.map Neg.neg)) ↔ row ∉ seen) := by
    intro htotal
    rw [CnfTrue, List.forall_mem_map]
    constructor
    · exact fun hall hmem =>
        ((hseen row hmem).satisfies_opposite htotal).mp (hall row hmem) rfl
    · exact fun hnot other hother =>
        ((hseen other hother).satisfies_opposite htotal).mpr fun heq => hnot (heq ▸ hother)
  constructor
  · rintro ⟨htotal, hsat⟩
    rw [cnfTrue_append] at hsat
    exact ⟨⟨htotal, hsat.1⟩, (hblocked htotal).mp hsat.2⟩
  · rintro ⟨⟨htotal, hsat⟩, hnot⟩
    exact ⟨htotal, (cnfTrue_append ..).mpr ⟨hsat, (hblocked htotal).mpr hnot⟩⟩

end Foundation
