import Mathlib.Algebra.Order.Floor.Ring
import Mathlib.Algebra.Order.Field.Rat
import Mathlib.Data.Rat.Floor
import Mathlib.Tactic.Linarith
import Mathlib.Tactic.Positivity
import Mathlib.Tactic.Push
import Sato.Foundation.Result
import Sato.Semantics

/-! # Elimination of coefficients

A comparison `a.x <= b` becomes a comparison of `x` with a rounded quotient.
Everything about the quotient follows from the integers it is above: its truth,
and that it stays in the range of the variable's atoms.
-/

namespace Sato

open Foundation

theorem le_floor_div_iff {a b z : ℤ} (ha : 0 < a) : z ≤ ⌊(b : ℚ) / (a : ℚ)⌋ ↔ a * z ≤ b := by
  have hpos : (0 : ℚ) < a := by exact_mod_cast ha
  rw [Int.le_floor, le_div_iff₀ hpos, mul_comm a z]
  exact_mod_cast Iff.rfl

theorem le_ceil_div_sub_one_iff {a b z : ℤ} (ha : a < 0) :
    z ≤ ⌈(b : ℚ) / (a : ℚ)⌉ - 1 ↔ b < a * z := by
  have hneg : (a : ℚ) < 0 := by exact_mod_cast ha
  rw [Int.le_sub_one_iff, Int.lt_ceil, lt_div_iff_of_neg hneg, mul_comm a z]
  exact_mod_cast Iff.rfl

namespace PrimitiveComparison

/-- The translated comparison: its variable, its sign, and the integers that
are at most its constant. -/
theorem hashTranslation_eq_ok {p q : PrimitiveComparison} {coeff : ℤ}
    (h : p.hashTranslation coeff = .ok q) :
    coeff ≠ 0 ∧ q.variable = p.variable ∧
      ((0 < coeff ∧ q.sign = p.sign ∧ ∀ z, z ≤ q.const ↔ coeff * z ≤ p.const) ∨
        (coeff < 0 ∧ q.sign = false ∧ ∀ z, z ≤ q.const ↔ p.const < coeff * z)) := by
  unfold hashTranslation at h
  split at h
  next => contradiction
  next hne =>
    refine ⟨hne, ?_⟩
    simp only at h
    split at h
    next hpos =>
      obtain rfl := Except.ok.inj h
      exact ⟨rfl, Or.inl ⟨hpos, rfl, fun z => le_floor_div_iff hpos⟩⟩
    next hnot =>
      have hneg : coeff < 0 := by omega
      obtain rfl := Except.ok.inj h
      exact ⟨rfl, Or.inr ⟨hneg, rfl, fun z => le_ceil_div_sub_one_iff hneg⟩⟩

theorem exists_hashTranslation (p : PrimitiveComparison) {coeff : ℤ} (hne : coeff ≠ 0) :
    ∃ q, p.hashTranslation coeff = .ok q := by
  unfold hashTranslation
  rw [if_neg hne]
  by_cases hpos : 0 < coeff
  · exact ⟨_, if_pos hpos⟩
  · exact ⟨_, if_neg hpos⟩

end PrimitiveComparison

namespace LinearTerm

/-- In the domain of its variable a term stays between its bounds. -/
theorem value_mem_bounds {σ : Assignment} {t : LinearTerm}
    (hlow : t.var.domain.l ≤ σ t.var.name) (hhigh : σ t.var.name ≤ t.var.domain.u) :
    t.getLowerBound ≤ t.value σ ∧ t.value σ ≤ t.getUpperBound := by
  unfold getLowerBound getUpperBound value IntegerVariable.getLowerBound
    IntegerVariable.getUpperBound
  split
  next hpos => exact ⟨by gcongr, by gcongr⟩
  next hnot =>
    have hnonpos : t.coeff ≤ 0 := by omega
    exact ⟨mul_le_mul_of_nonpos_left hhigh hnonpos, mul_le_mul_of_nonpos_left hlow hnonpos⟩

theorem getLowerBound_le_getUpperBound (t : LinearTerm) : t.getLowerBound ≤ t.getUpperBound := by
  have hbounds := value_mem_bounds (σ := fun _ => t.var.domain.l) (t := t) le_rfl
    t.var.domain.l_le_u
  exact hbounds.1.trans hbounds.2

end LinearTerm

namespace Inequation

section PrimComp

variable {t : LinearTerm} {b : ℤ} {q : PrimitiveComparison}
  (h : (t.var.compare b true).hashTranslation t.coeff = .ok q)
include h

theorem holds_translated (σ : Assignment) : q.Holds σ ↔ t.value σ ≤ b := by
  obtain ⟨-, hvar, hcases⟩ := PrimitiveComparison.hashTranslation_eq_ok h
  unfold PrimitiveComparison.Holds LinearTerm.value
  rcases hcases with ⟨_, hqsign, hconst⟩ | ⟨_, hqsign, hconst⟩
  · have hpositive : q.sign = true := hqsign
    rw [if_pos hpositive, hconst, hvar]
    rfl
  · rw [hqsign, if_neg (by simp), ← not_le, hconst, hvar, not_lt]
    rfl

/-- The constant stays in the range of the atoms. At the two ends of the range
the comparison says whether the term can be below its share. -/
theorem const_translated_mem (hlow : t.getLowerBound - 1 ≤ b) (hhigh : b ≤ t.getUpperBound) :
    t.var.domain.l - 1 ≤ q.const ∧ q.const ≤ t.var.domain.u := by
  obtain ⟨-, -, hcases⟩ := PrimitiveComparison.hashTranslation_eq_ok h
  unfold LinearTerm.getLowerBound IntegerVariable.getLowerBound IntegerVariable.getUpperBound
    at hlow
  unfold LinearTerm.getUpperBound IntegerVariable.getLowerBound IntegerVariable.getUpperBound
    at hhigh
  rw [← Int.lt_add_one_iff (b := t.var.domain.u), ← not_le]
  -- a negative coefficient turns the two ends of the range around
  rcases hcases with ⟨hpos, _, hconst⟩ | ⟨hneg, _, hconst⟩
  · rw [hconst, hconst]
    rw [if_pos hpos] at hlow hhigh
    change t.coeff * _ ≤ b ∧ ¬ t.coeff * _ ≤ b
    constructor <;> linarith
  · rw [hconst, hconst]
    rw [if_neg (by omega)] at hlow hhigh
    change b < t.coeff * _ ∧ ¬ b < t.coeff * _
    constructor <;> linarith

end PrimComp

/-- A share of a term is translated exactly: the comparison says that the term is
at most the share, its opposite that it is above, and its constant is one of an
atom of the variable. -/
theorem hashTranslation_exact (t : LinearTerm) (hcoeff : t.coeff ≠ 0) {b : ℤ}
    (hlow : t.getLowerBound - 1 ≤ b) (hhigh : b ≤ t.getUpperBound) :
    ∃ q, (t.var.compare b true).hashTranslation t.coeff = .ok q ∧
      (∀ σ : Assignment, q.Holds σ ↔ t.coeff * σ t.var.name ≤ b) ∧
      (∀ σ : Assignment, q.inverseSign.Holds σ ↔ b < t.coeff * σ t.var.name) ∧
      q.variable = t.var ∧ t.var.domain.l - 1 ≤ q.const ∧ q.const ≤ t.var.domain.u := by
  obtain ⟨q, hq⟩ := (t.var.compare b true).exists_hashTranslation hcoeff
  have hholds : ∀ σ : Assignment, q.Holds σ ↔ t.coeff * σ t.var.name ≤ b := holds_translated hq
  obtain ⟨-, hvar, -⟩ := PrimitiveComparison.hashTranslation_eq_ok hq
  refine ⟨q, hq, hholds, fun σ => ?_, hvar, const_translated_mem hq hlow hhigh⟩
  rw [PrimitiveComparison.holds_inverseSign, hholds, not_le]

/-- The least share of `-2x` below its bounds. -/
theorem hashTranslation_exact_negative :
    let t : LinearTerm := ⟨⟨['x'], ⟨-1, 3, by decide⟩⟩, -2⟩
    ∃ q, (t.var.compare (-7) true).hashTranslation t.coeff = .ok q ∧
      (∀ σ : Assignment, q.Holds σ ↔ t.coeff * σ t.var.name ≤ -7) ∧
      (∀ σ : Assignment, q.inverseSign.Holds σ ↔ -7 < t.coeff * σ t.var.name) ∧
      q.variable = t.var ∧ t.var.domain.l - 1 ≤ q.const ∧ q.const ≤ t.var.domain.u :=
  hashTranslation_exact ⟨⟨['x'], ⟨-1, 3, by decide⟩⟩, -2⟩ (by decide) (by decide) (by decide)

/-- The comparison a term and its share of the constant give rise to. -/
theorem primComp_eq_ok {sign : Bool} {t : LinearTerm} {b : ℤ} {p : PrimitiveComparison}
    (h : primComp sign t b = .ok p) :
    t.coeff ≠ 0 ∧ p.variable = t.var ∧
      (∀ σ, p.Holds σ ↔ if sign then t.value σ ≤ b else b < t.value σ) ∧
      (t.getLowerBound - 1 ≤ b → b ≤ t.getUpperBound →
        t.var.domain.l - 1 ≤ p.const ∧ p.const ≤ t.var.domain.u) := by
  obtain ⟨q, hq, hsign⟩ := bind_eq_ok.mp h
  rw [pure_eq_ok] at hsign
  obtain ⟨hne, hvar, -⟩ := PrimitiveComparison.hashTranslation_eq_ok hq
  cases sign with
  | true =>
      obtain rfl : q = p := by simpa using hsign
      exact ⟨hne, hvar, by simpa using holds_translated hq, const_translated_mem hq⟩
  | false =>
      obtain rfl : q.inverseSign = p := by simpa using hsign
      have hrange := fun hlow hhigh => const_translated_mem hq hlow hhigh
      refine ⟨hne, hvar, fun σ => ?_, hrange⟩
      rw [PrimitiveComparison.holds_inverseSign, holds_translated hq]
      simp

theorem exists_primComp (sign : Bool) {t : LinearTerm} (b : ℤ) (hne : t.coeff ≠ 0) :
    ∃ p, primComp sign t b = .ok p := by
  obtain ⟨q, hq⟩ := (t.var.compare b true).exists_hashTranslation hne
  exact ⟨_, bind_eq_ok.mpr ⟨q, hq, rfl⟩⟩

end Inequation

end Sato
