import Mathlib.Algebra.GroupWithZero.Nat
import Mathlib.Data.List.Basic
import Mathlib.Order.Basic
import Mathlib.Tactic.Common

/-! # Lists in levels

The elements of a list have levels, and those of the higher levels come first. The
elements up to a level are then the last ones.
-/

namespace Foundation

variable {α : Type*} (level : α → ℕ)

/-- The levels do not grow along the list. -/
def Descending (l : List α) : Prop := l.Pairwise fun a b => level b ≤ level a

variable {level} {l : List α}

theorem Descending.filter_le (h : Descending level l) (n : ℕ) :
    l.filter (fun a => level a ≤ n) = l.drop (l.length - l.countP fun a => level a ≤ n) := by
  induction l with
  | nil => rfl
  | cons a l ih =>
      obtain ⟨ha, hl⟩ := List.pairwise_cons.mp h
      by_cases hn : level a ≤ n
      · have hall : ∀ b ∈ a :: l, decide (level b ≤ n) = true := by
          rw [List.forall_mem_cons]
          exact ⟨decide_eq_true hn, fun b hb => decide_eq_true (Nat.le_trans (ha b hb) hn)⟩
        rw [List.filter_eq_self.mpr hall, List.countP_eq_length.mpr hall, Nat.sub_self,
          List.drop_zero]
      · have hle := List.countP_le_length (p := fun a => decide (level a ≤ n)) (l := l)
        rw [List.filter_cons, if_neg (by simpa using hn),
          List.countP_cons_of_neg (by simpa using hn),
          ih hl, List.length_cons, Nat.succ_sub hle, List.drop_succ_cons]

/-- The elements before those up to a level are the ones above it. -/
theorem Descending.filter_gt (h : Descending level l) (n : ℕ) :
    l.filter (fun a => n < level a) = l.take (l.length - l.countP fun a => level a ≤ n) := by
  induction l with
  | nil => rfl
  | cons a l ih =>
      obtain ⟨ha, hl⟩ := List.pairwise_cons.mp h
      by_cases hn : level a ≤ n
      · have hall : ∀ b ∈ a :: l, level b ≤ n := by
          rw [List.forall_mem_cons]
          exact ⟨hn, fun b hb => Nat.le_trans (ha b hb) hn⟩
        have hnone : (a :: l).filter (fun a => n < level a) = [] := by
          rw [List.filter_eq_nil_iff]
          intro b hb
          have := hall b hb
          rw [decide_eq_true_eq]
          omega
        rw [hnone, List.countP_eq_length.mpr fun b hb => decide_eq_true (hall b hb), Nat.sub_self,
          List.take_zero]
      · have hle := List.countP_le_length (p := fun a => decide (level a ≤ n)) (l := l)
        rw [List.filter_cons, if_pos (by simpa using hn),
          List.countP_cons_of_neg (by simpa using hn),
          ih hl, List.length_cons, Nat.succ_sub hle, List.take_succ_cons]

theorem Descending.suffix {m : List α} (h : Descending level l) (hm : m <:+ l) :
    Descending level m :=
  h.sublist hm.sublist

/-- What comes after an element is at its level or below. -/
theorem Descending.level_le_of_suffix {a : α} {rest : List α} (h : Descending level l)
    (hsuffix : a :: rest <:+ l) : ∀ b ∈ rest, level b ≤ level a :=
  (List.pairwise_cons.mp (h.suffix hsuffix)).1

/-! ## Weights

An element of a lower level weighs more than `n` elements of higher levels. -/

/-- The sum of the powers of `n + 1` that the levels below `n` stand for. -/
def levelWeight (level : α → ℕ) (n : ℕ) (l : List α) : ℕ :=
  (l.map fun a => (n + 1) ^ (n - level a)).sum

theorem levelWeight_cons (level : α → ℕ) (n : ℕ) (a : α) (l : List α) :
    levelWeight level n (a :: l) = (n + 1) ^ (n - level a) + levelWeight level n l := by
  simp [levelWeight]

theorem levelWeight_congr {level' : α → ℕ} (n : ℕ) (h : ∀ a ∈ l, level' a = level a) :
    levelWeight level' n l = levelWeight level n l := by
  unfold levelWeight
  rw [List.map_congr_left fun a ha => by rw [h a ha]]

theorem levelWeight_le_of_suffix {m : List α} (n : ℕ) (h : l <:+ m) :
    levelWeight level n l ≤ levelWeight level n m := by
  obtain ⟨before, rfl⟩ := h
  rw [levelWeight, levelWeight, List.map_append, List.sum_append]
  exact Nat.le_add_left _ _

/-- Elements of the levels after `k` weigh at most this. -/
theorem levelWeight_le {n k : ℕ} (h : ∀ a ∈ l, k ≤ level a) :
    levelWeight level n l ≤ l.length * (n + 1) ^ (n - k) := by
  induction l with
  | nil => exact Nat.zero_le _
  | cons a l ih =>
      obtain ⟨ha, hl⟩ := List.forall_mem_cons.mp h
      rw [levelWeight_cons, List.length_cons, Nat.succ_mul, Nat.add_comm]
      refine Nat.add_le_add (ih hl) (Nat.pow_le_pow_right (Nat.succ_pos n) ?_)
      exact Nat.sub_le_sub_left ha n

theorem levelWeight_le_of_length {n : ℕ} (h : l.length ≤ n) :
    levelWeight level n l ≤ n * (n + 1) ^ n :=
  Nat.le_trans (levelWeight_le fun a _ => Nat.zero_le (level a)) (Nat.mul_le_mul_right _ h)

theorem levelWeight_filter (level : α → ℕ) (n k : ℕ) (l : List α) :
    levelWeight level n l = levelWeight level n (l.filter fun a => level a ≤ k) +
      levelWeight level n (l.filter fun a => k < level a) := by
  induction l with
  | nil => rfl
  | cons a l ih =>
      by_cases ha : level a ≤ k
      · rw [List.filter_cons_of_pos (by simpa using ha),
          List.filter_cons_of_neg (by simpa using ha),
          levelWeight_cons, levelWeight_cons, ih, Nat.add_assoc]
      · rw [List.filter_cons_of_neg (by simpa using ha),
          List.filter_cons_of_pos (by simpa using ha),
          levelWeight_cons, levelWeight_cons, ih, Nat.add_left_comm]

/-- One more element at an earlier level makes up for those of the later levels. -/
theorem levelWeight_lt {n k : ℕ} (hlen : l.length ≤ n) (hk : k < n) :
    levelWeight level n l <
      (n + 1) ^ (n - k) + levelWeight level n (l.filter fun a => level a ≤ k) := by
  have hlater : levelWeight level n (l.filter fun a => k < level a) < (n + 1) ^ (n - k) := by
    have hle : levelWeight level n (l.filter fun a => k < level a) ≤
        n * (n + 1) ^ (n - (k + 1)) := by
      refine Nat.le_trans (levelWeight_le fun b hb => ?_) (Nat.mul_le_mul_right _ ?_)
      · exact of_decide_eq_true (List.mem_filter.mp hb).2
      · exact Nat.le_trans (List.length_filter_le _ _) hlen
    have hsucc : n - k = n - (k + 1) + 1 := by omega
    rw [hsucc, Nat.pow_succ, Nat.mul_comm]
    refine Nat.lt_of_le_of_lt hle ?_
    exact Nat.mul_lt_mul_of_pos_right (Nat.lt_succ_self n) (Nat.pow_pos (Nat.succ_pos n))
  rw [levelWeight_filter level n k l, Nat.add_comm]
  exact Nat.add_lt_add_right hlater _

/-! ## The greatest value -/

/-- The loop that keeps the place of the greatest value. -/
theorem foldl_greatest (value : ℕ → ℕ) (places : List ℕ) (first : ℕ) :
    let place := places.foldl (fun m i => if value m < value i then i else m) first
    (place = first ∨ place ∈ places) ∧ value first ≤ value place ∧
      ∀ i ∈ places, value i ≤ value place := by
  induction places generalizing first with
  | nil => exact ⟨Or.inl rfl, Nat.le_refl _, List.forall_mem_nil _⟩
  | cons i places ih =>
      obtain ⟨hmem, hfirst, hall⟩ := ih (if value first < value i then i else first)
      refine ⟨?_, ?_, List.forall_mem_cons.mpr ⟨?_, hall⟩⟩
      · rcases hmem with heq | hmem
        · by_cases hlt : value first < value i
          · rw [if_pos hlt] at heq
            exact Or.inr (List.mem_cons.mpr (Or.inl (by rw [List.foldl_cons, if_pos hlt, heq])))
          · rw [if_neg hlt] at heq
            exact Or.inl (by rw [List.foldl_cons, if_neg hlt, heq])
        · exact Or.inr (List.mem_cons_of_mem _ hmem)
      · refine Nat.le_trans ?_ hfirst
        split
        next hlt => exact Nat.le_of_lt hlt
        next => exact Nat.le_refl _
      · refine Nat.le_trans ?_ hfirst
        split
        next => exact Nat.le_refl _
        next hlt => exact Nat.le_of_not_lt hlt

end Foundation
