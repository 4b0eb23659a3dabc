import Mathlib.Data.List.Induction

/-! # Grouping by key

An ordered map from keys to lists of values, filled one entry at a time.
-/

namespace Foundation

variable {κ ν : Type*} [DecidableEq κ]

abbrev Groups (κ ν : Type*) := List (κ × List ν)

namespace Groups

/-- Append a value to the group of a key, which is new where the key is. -/
def push : Groups κ ν → κ → ν → Groups κ ν
  | [], key, value => [(key, [value])]
  | (other, values) :: groups, key, value =>
      if other = key then (other, values ++ [value]) :: groups
      else (other, values) :: push groups key value

theorem mem_keys_push {groups : Groups κ ν} {key : κ} {value : ν} {k : κ} :
    k ∈ (groups.push key value).map Prod.fst ↔ k ∈ groups.map Prod.fst ∨ k = key := by
  induction groups with
  | nil => simp [push]
  | cons group groups ih =>
      rw [push]
      split
      next heq => simp [heq]; tauto
      next => simp only [List.map_cons, List.mem_cons, ih, or_assoc]

theorem push_of_notMem {groups : Groups κ ν} {key : κ} (hkey : key ∉ groups.map Prod.fst)
    (values : List ν) (value : ν) :
    push (groups ++ [(key, values)]) key value = groups ++ [(key, values ++ [value])] := by
  induction groups with
  | nil => simp [push]
  | cons group groups ih =>
      simp only [List.map_cons, List.mem_cons, not_or] at hkey
      rw [List.cons_append, push, if_neg (Ne.symm hkey.1), ih hkey.2, List.cons_append]

theorem push_new {groups : Groups κ ν} {key : κ} (hkey : key ∉ groups.map Prod.fst)
    (value : ν) : groups.push key value = groups ++ [(key, [value])] := by
  induction groups with
  | nil => rfl
  | cons group groups ih =>
      simp only [List.map_cons, List.mem_cons, not_or] at hkey
      rw [push, if_neg (Ne.symm hkey.1), ih hkey.2, List.cons_append]

/-- A row of entries of one new key makes one group of its values. -/
theorem foldl_push_block {groups : Groups κ ν} {key : κ} (hkey : key ∉ groups.map Prod.fst)
    {values : List ν} (hne : values ≠ []) :
    values.foldl (fun groups value => groups.push key value) groups =
      groups ++ [(key, values)] := by
  induction values using List.reverseRecOn with
  | nil => exact absurd rfl hne
  | append_singleton values value ih =>
      rw [List.foldl_append, List.foldl_cons, List.foldl_nil]
      by_cases hnil : values = []
      · rw [hnil]
        exact push_new hkey value
      · rw [ih hnil, push_of_notMem hkey]

/-- Rows of entries of distinct keys make the groups in the order of the rows. -/
theorem foldl_push_blocks {ι : Type*} (key : ι → κ) (values : ι → List ν) {is : List ι}
    (hnodup : (is.map key).Nodup) (hne : ∀ i ∈ is, values i ≠ []) {groups : Groups κ ν}
    (hnew : ∀ i ∈ is, key i ∉ groups.map Prod.fst) :
    is.foldl (fun groups i => (values i).foldl (fun groups value => groups.push (key i) value)
        groups) groups =
      groups ++ is.map fun i => (key i, values i) := by
  induction is generalizing groups with
  | nil => simp
  | cons i is ih =>
      rw [List.map_cons, List.nodup_cons] at hnodup
      rw [List.forall_mem_cons] at hne hnew
      rw [List.foldl_cons, foldl_push_block hnew.1 hne.1, ih hnodup.2 hne.2]
      · simp
      · intro j hj
        have hkey : key j ≠ key i := fun heq => hnodup.1 (heq ▸ List.mem_map_of_mem hj)
        simp [hkey, hnew.2 j hj]

end Groups

end Foundation
