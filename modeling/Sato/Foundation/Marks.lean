import Mathlib.Data.List.Nodup
import Mathlib.Logic.Function.Basic

/-! # Marks on the elements of a list

Each element has a key, and marks are set on keys. Where the keys are distinct, a new
mark is one more marked element. -/

namespace Foundation

variable {α κ : Type*} [DecidableEq κ] {key : α → κ} {marks : κ → Bool} {l : List α}

/-- A mark on a key that no element has changes no count. -/
theorem countP_update_of_not_mem {k : κ} (hk : k ∉ l.map key) (b : Bool) :
    (l.countP fun a => Function.update marks k b (key a)) = l.countP fun a => marks (key a) := by
  apply List.countP_congr
  intro a ha
  rw [Function.update_of_ne]
  exact fun heq => hk (heq ▸ List.mem_map_of_mem ha)

/-- Marking an element that was not marked counts one more. -/
theorem countP_mark {a : α} (hnodup : (l.map key).Nodup) (ha : a ∈ l)
    (hmark : marks (key a) = false) :
    (l.countP fun b => Function.update marks (key a) true (key b)) =
      (l.countP fun b => marks (key b)) + 1 := by
  induction l with
  | nil => exact absurd ha List.not_mem_nil
  | cons b l ih =>
      rw [List.map_cons, List.nodup_cons] at hnodup
      rcases List.mem_cons.mp ha with rfl | ha
      · rw [List.countP_cons_of_pos (by simp), List.countP_cons_of_neg (by simp [hmark]),
          countP_update_of_not_mem hnodup.1]
      · have hne : key b ≠ key a := fun heq => hnodup.1 (heq ▸ List.mem_map_of_mem ha)
        rw [List.countP_cons, List.countP_cons, ih hnodup.2 ha, Function.update_of_ne hne]
        omega

/-- Taking a mark back counts one less. -/
theorem countP_unmark {a : α} (hnodup : (l.map key).Nodup) (ha : a ∈ l)
    (hmark : marks (key a) = true) :
    (l.countP fun b => Function.update marks (key a) false (key b)) + 1 =
      l.countP fun b => marks (key b) := by
  have hself : Function.update marks (key a) false (key a) = false := Function.update_self ..
  have hcount := countP_mark hnodup ha hself
  rw [Function.update_idem, ← hmark, Function.update_eq_self] at hcount
  exact hcount.symm

end Foundation
