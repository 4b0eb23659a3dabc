import Mathlib.Data.Multiset.Bind
import Mathlib.Data.List.Sections
import Sato.Foundation.Choice
import Sato.Source.ComparisonBase

/-! # Combinations

The accumulator of `computeCombinaisons` is extended at its end, one list of the
data at a time. Up to order the result is the product of the lists.
-/

namespace Sato.ComparisonBase

open Foundation

variable {α : Type*}

/-- The product with a started accumulator: every entry is continued by every
choice from the remaining data. -/
theorem computeCombinaisons_perm {data : List (List α)} (hdata : ∀ values ∈ data, values ≠ [])
    {acc : List (List α)} (hacc : acc ≠ []) :
    (computeCombinaisons data acc).Perm
      (acc.flatMap fun combi => data.sections.map (combi ++ ·)) := by
  induction data generalizing acc with
  | nil => simp [computeCombinaisons]
  | cons values data ih =>
      obtain ⟨combi, combis, rfl⟩ := List.exists_cons_of_ne_nil hacc
      have hvalues := hdata values List.mem_cons_self
      -- an empty list of values would make the accumulator look as if not started
      have hnext : (values.flatMap fun value => (combi :: combis).map (· ++ [value])) ≠ [] := by
        obtain ⟨value, rest, rfl⟩ := List.exists_cons_of_ne_nil hvalues
        simp
      refine (ih (fun l hl => hdata l (List.mem_cons_of_mem _ hl)) hnext).trans ?_
      rw [← Multiset.coe_eq_coe]
      generalize combi :: combis = acc
      -- both sides run over the same three lists, in another order
      simp only [List.sections, List.flatMap_assoc, List.flatMap_map, List.map_flatMap,
        List.map_map, ← Multiset.coe_bind, ← Multiset.map_coe]
      rw [Multiset.bind_bind]
      refine Multiset.bind_congr fun combi _ => ?_
      have hswap := Multiset.bind_bind (values : Multiset α) (data.sections : Multiset (List α))
        (f := fun value rest => {combi ++ value :: rest})
      simpa [Multiset.bind_singleton, Function.comp_def] using hswap

theorem computeCombinaisons_nil_perm {data : List (List α)} (hne : data ≠ [])
    (hdata : ∀ values ∈ data, values ≠ []) :
    (computeCombinaisons data []).Perm data.sections := by
  obtain ⟨values, data, rfl⟩ := List.exists_cons_of_ne_nil hne
  have hvalues := hdata values List.mem_cons_self
  refine (computeCombinaisons_perm (fun l hl => hdata l (List.mem_cons_of_mem _ hl))
    (by simpa using hvalues)).trans ?_
  rw [← Multiset.coe_eq_coe]
  simp only [List.sections, List.flatMap_map, ← Multiset.coe_bind, ← Multiset.map_coe,
    List.singleton_append]
  have hswap := Multiset.bind_bind (values : Multiset α) (data.sections : Multiset (List α))
    (f := fun value rest => {value :: rest})
  simpa [Multiset.bind_singleton] using hswap

/-- The combinations of nonempty lists are the tuples of the choices of one
position in each, one for each choice. -/
theorem computeCombinaisons_choices {data : List (List α)} (hne : data ≠ [])
    (hdata : ∀ values ∈ data, values ≠ []) :
    (computeCombinaisons data [] : Multiset (List α)) =
        (Finset.univ : Finset (Choice data)).val.map (fun choice => choice.tuple) ∧
      ∀ combi ∈ computeCombinaisons data [], combi.length = data.length := by
  have hchoices : (computeCombinaisons data [] : Multiset (List α)) =
      (Finset.univ : Finset (Choice data)).val.map fun choice => choice.tuple := by
    rw [← sections_eq_choices, Multiset.coe_eq_coe]
    exact computeCombinaisons_nil_perm hne hdata
  refine ⟨hchoices, fun combi hcombi => ?_⟩
  rw [← Multiset.mem_coe, hchoices, Multiset.mem_map] at hcombi
  obtain ⟨choice, -, rfl⟩ := hcombi
  exact choice.length_tuple

/-- The equal tuples of two choices are both listed. -/
theorem computeCombinaisons_choices_repeated :
    (computeCombinaisons [[1, 1], [2, 3]] [] : Multiset (List ℕ)) =
        (Finset.univ : Finset (Choice [[1, 1], [2, 3]])).val.map (fun choice => choice.tuple) ∧
      ∀ combi ∈ computeCombinaisons [[1, 1], [2, 3]] [], combi.length = 2 :=
  computeCombinaisons_choices (by decide) (by decide)

/-- The members are the lists of one element of each. -/
theorem mem_computeCombinaisons {data : List (List α)} (hne : data ≠ [])
    (hdata : ∀ values ∈ data, values ≠ []) {combi : List α} :
    combi ∈ computeCombinaisons data [] ↔ List.Forall₂ (· ∈ ·) combi data := by
  rw [(computeCombinaisons_nil_perm hne hdata).mem_iff, List.mem_sections]

end Sato.ComparisonBase
