import Mathlib.Data.Fintype.BigOperators
import Mathlib.Data.Fintype.Pi
import Mathlib.Data.List.Sections
import Mathlib.Logic.Equiv.Fin.Basic

/-! # Choices from a list of lists

A choice takes one position in each list. The product of the lists holds the
tuple of every choice, once for each choice.
-/

namespace Foundation

variable {α : Type*}

/-- One position in each list. -/
abbrev Choice (data : List (List α)) := (i : Fin data.length) → Fin (data.get i).length

namespace Choice

/-- The elements at the chosen positions, in the order of the lists. -/
def tuple {data : List (List α)} (choice : Choice data) : List α :=
  List.ofFn fun i => (data.get i).get (choice i)

theorem length_tuple {data : List (List α)} (choice : Choice data) :
    choice.tuple.length = data.length :=
  List.length_ofFn

variable {values : List α} {data : List (List α)}

/-- A choice from one more list. -/
def cons : Fin values.length × Choice data ≃ Choice (values :: data) :=
  Fin.consEquiv fun i : Fin (data.length + 1) => Fin ((values :: data).get i).length

theorem tuple_cons (i : Fin values.length) (choice : Choice data) :
    (cons (i, choice)).tuple = values.get i :: choice.tuple := by
  rw [tuple, List.ofFn_succ]
  rfl

end Choice

/-- The product of the lists has one tuple for each choice. -/
theorem sections_eq_choices (data : List (List α)) :
    (data.sections : Multiset (List α)) =
      (Finset.univ : Finset (Choice data)).val.map Choice.tuple := by
  induction data with
  | nil => rfl
  | cons values data ih =>
      have hvalues : (Finset.univ : Finset (Fin values.length)).val.map values.get = values := by
        rw [Fin.univ_val_map, List.ofFn_get]
      calc ((values :: data).sections : Multiset (List α))
          = (values : Multiset α).bind fun value =>
              (data.sections : Multiset (List α)).map (value :: ·) := by
            rw [Multiset.bind_map_comm]
            simp [List.sections, ← Multiset.coe_bind, ← Multiset.map_coe]
        _ = (Finset.univ : Finset (Fin values.length)).val.bind fun i =>
              (Finset.univ : Finset (Choice data)).val.map fun choice =>
                (Choice.cons (i, choice)).tuple := by
            rw [ih, ← hvalues, Multiset.bind_map]
            simp only [Multiset.map_map, Function.comp_apply, Choice.tuple_cons]
        _ = (Finset.univ : Finset (Fin values.length × Choice data)).val.map fun choice =>
              (Choice.cons choice).tuple := by
            rw [← Finset.univ_product_univ, Finset.product_val]
            simp [SProd.sprod, Multiset.product, Multiset.map_bind]
        _ = (Finset.univ : Finset (Choice (values :: data))).val.map Choice.tuple := by
            rw [← Finset.map_univ_equiv (@Choice.cons _ values data),
              Finset.map_val, Multiset.map_map]
            rfl

end Foundation
