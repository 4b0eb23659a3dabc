import Mathlib.Algebra.BigOperators.Group.List.Basic
import Mathlib.Algebra.Order.Ring.Int
import Mathlib.Data.Int.Basic
import Sato.Foundation.Interval

/-! # Numbers of 64 bits

An integer of the scripting language has 64 bits. The cast of a numeral stops at
the least or the greatest of them. A sum or product that is none of them becomes a
float, and what is computed from a float is a float again; nothing else is kept of it.
-/

namespace Foundation

/-- `PHP_INT_MIN`. -/
def minInt : ℤ := -9223372036854775808

/-- `PHP_INT_MAX`. -/
def maxInt : ℤ := 9223372036854775807

/-- The integers of 64 bits. -/
def Fits (z : ℤ) : Prop := minInt ≤ z ∧ z ≤ maxInt

instance : DecidablePred Fits := fun z =>
  inferInstanceAs (Decidable (minInt ≤ z ∧ z ≤ maxInt))

/-- The integer that a numeral is cast to. -/
def saturate (z : ℤ) : ℤ := max minInt (min z maxInt)

theorem fits_saturate (z : ℤ) : Fits (saturate z) := by
  simp only [Fits, saturate, minInt, maxInt]
  omega

theorem saturate_eq_self_iff {z : ℤ} : saturate z = z ↔ Fits z := by
  simp only [Fits, saturate, minInt, maxInt]
  omega

theorem saturate_mono {z w : ℤ} (h : z ≤ w) : saturate z ≤ saturate w := by
  simp only [saturate, minInt, maxInt]
  omega

/-- An integer of 64 bits, or a float that an overflow left. -/
inductive Number where
  | int (z : ℤ)
  | float
  deriving DecidableEq

namespace Number

/-- The result of an operation whose exact value is an integer. -/
def ofInt (z : ℤ) : Number := if Fits z then int z else float

instance : Add Number where
  add
    | int a, int b => ofInt (a + b)
    | _, _ => float

theorem ofInt_eq_int_iff {z w : ℤ} : ofInt z = int w ↔ Fits z ∧ z = w := by
  rw [ofInt]
  split
  next h => simp [h]
  next h => simp [h]

@[simp] theorem float_add (n : Number) : float + n = float := rfl

theorem int_add_int (a b : ℤ) : int a + int b = ofInt (a + b) := rfl

/-! ## Sums -/

/-- Integers added to a number one after another. -/
def addAll (n : Number) (zs : List ℤ) : Number := zs.foldl (fun n z => n + int z) n

theorem addAll_append (n : Number) (zs : List ℤ) (z : ℤ) :
    addAll n (zs ++ [z]) = addAll n zs + int z := by
  simp [addAll]

theorem addAll_float (zs : List ℤ) : addAll float zs = float := by
  induction zs with
  | nil => rfl
  | cons z zs ih => rw [addAll, List.foldl_cons, float_add]; exact ih

/-- The sum is an integer when no sum on the way is too long. -/
theorem addAll_int_eq_int_iff {a z : ℤ} {zs : List ℤ} (ha : Fits a) :
    addAll (int a) zs = int z ↔
      (∀ front, front <+: zs → Fits (a + front.sum)) ∧ z = a + zs.sum := by
  induction zs generalizing a with
  | nil => simp [addAll, ha, eq_comm]
  | cons w zs ih =>
      have hfronts : (∀ front, front <+: w :: zs → Fits (a + front.sum)) ↔
          Fits (a + w) ∧ ∀ front, front <+: zs → Fits (a + w + front.sum) := by
        constructor
        · intro hall
          refine ⟨by simpa using hall [w] ⟨zs, rfl⟩, fun front hfront => ?_⟩
          have hcons := hall (w :: front) (List.cons_prefix_cons.mpr ⟨rfl, hfront⟩)
          rwa [List.sum_cons, ← add_assoc] at hcons
        · rintro ⟨-, hrest⟩ front hfront
          cases front with
          | nil => simpa using ha
          | cons v front =>
              obtain ⟨rfl, htail⟩ := List.cons_prefix_cons.mp hfront
              rw [List.sum_cons, ← add_assoc]
              exact hrest front htail
      rw [hfronts, addAll, List.foldl_cons, int_add_int, ofInt, List.sum_cons, ← add_assoc]
      by_cases hw : Fits (a + w)
      · rw [if_pos hw, and_iff_right hw]
        exact ih hw
      · rw [if_neg hw]
        refine iff_of_false ?_ fun h => hw h.1.1
        have hfloat : addAll float zs = float := addAll_float zs
        rw [addAll] at hfloat
        rw [hfloat]
        exact Number.noConfusion

/-! ## Loops -/

/-- The values of `$i` in `for ($i = $a; $i <= $b; $i++)`, unless the loop does not
end: the successor of `PHP_INT_MAX` is a float, and that of a float as large as an
overflow leaves it is the float itself. -/
def loop : Number → Number → Option (List ℤ)
  | int a, int b => if b < maxInt then some (loopRange a b) else none
  | _, _ => none

theorem isSome_loop_iff {m n : Number} :
    (loop m n).isSome = true ↔ (∃ a, m = int a) ∧ ∃ b, n = int b ∧ b < maxInt := by
  cases m <;> cases n <;> simp [loop]

theorem exists_pred_eq_int_iff {z : ℤ} :
    (∃ a, ofInt z + int (-1) = int a) ↔ minInt < z ∧ z ≤ maxInt := by
  rw [ofInt]
  split
  next hfits =>
    simp only [int_add_int, ofInt_eq_int_iff, exists_eq_right', Fits, minInt, maxInt] at *
    omega
  next hfits =>
    simp only [float_add, reduceCtorEq, exists_const, false_iff, Fits, minInt, maxInt] at *
    omega

theorem exists_ofInt_lt_iff {z : ℤ} :
    (∃ b, ofInt z = int b ∧ b < maxInt) ↔ minInt ≤ z ∧ z < maxInt := by
  rw [ofInt]
  split
  next hfits =>
    have hmin := hfits.1
    simp [hmin]
  next hfits =>
    refine iff_of_false (by simp) fun h => hfits ?_
    exact ⟨h.1, h.2.le⟩

/-- A loop from the number before one to another ends when these are no extreme ones. -/
theorem isSome_loop_pred_iff {low high : ℤ} (hle : low ≤ high) :
    (loop (ofInt low + int (-1)) (ofInt high)).isSome = true ↔ minInt < low ∧ high < maxInt := by
  rw [isSome_loop_iff, exists_pred_eq_int_iff, exists_ofInt_lt_iff]
  omega

end Number

end Foundation
