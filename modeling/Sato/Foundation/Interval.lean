import Mathlib.Algebra.BigOperators.Group.List.Basic
import Mathlib.Algebra.Order.BigOperators.Group.List
import Mathlib.Data.Int.LeastGreatest
import Mathlib.Data.Int.Basic
import Mathlib.Data.List.Forall2
import Mathlib.Order.Interval.Set.Defs
import Mathlib.Order.Bounds.Basic
import Mathlib.Tactic.Linarith
import Mathlib.Tactic.Push
import Mathlib.Tactic.Ring

/-! # Bounded integers

Two facts about integer intervals. A chain of implications along an interval,
false at one end and true at the other, is the threshold predicate of exactly
one value. And a sum of bounded terms stays below a constant exactly when every
split of that constant bounds one of the terms.
-/

namespace Foundation

/-- The values of `i` in the loop `for (i = lo; i <= hi; i++)`. -/
def loopRange (lo hi : ℤ) : List ℤ :=
  (List.range (hi + 1 - lo).toNat).map fun k : ℕ => lo + k

theorem mem_loopRange {lo hi i : ℤ} : i ∈ loopRange lo hi ↔ lo ≤ i ∧ i ≤ hi := by
  simp only [loopRange, List.mem_map, List.mem_range]
  constructor
  · rintro ⟨k, hk, rfl⟩
    omega
  · rintro ⟨hlow, hhigh⟩
    exact ⟨(i - lo).toNat, by omega, by omega⟩

/-! ## Threshold predicates -/

/-- The predicate `p` is false just below the interval, true at its upper end,
and never becomes false again along it. -/
structure Threshold (p : ℤ → Prop) (l u : ℤ) : Prop where
  lower : ¬ p (l - 1)
  upper : p u
  step : ∀ c, l ≤ c → c ≤ u → p (c - 1) → p c

/-- The predicate `p` says which constants of the interval bound `value`. -/
def Bounds (p : ℤ → Prop) (l u value : ℤ) : Prop :=
  l ≤ value ∧ value ≤ u ∧ ∀ c, l - 1 ≤ c → c ≤ u → (p c ↔ value ≤ c)

theorem Threshold.mono {p : ℤ → Prop} {l u : ℤ} (h : Threshold p l u) {c d : ℤ}
    (hlow : l - 1 ≤ c) (hcd : c ≤ d) (hhigh : d ≤ u) (hc : p c) : p d := by
  induction d, hcd using Int.leInduction with
  | base => exact hc
  | succ d hcd ih =>
      have hprev : p (d + 1 - 1) := by
        rw [add_sub_cancel_right]
        exact ih (by omega)
      exact h.step (d + 1) (by omega) hhigh hprev

theorem Bounds.threshold {p : ℤ → Prop} {l u value : ℤ} (h : Bounds p l u value) :
    Threshold p l u := by
  obtain ⟨hlow, hhigh, hiff⟩ := h
  refine ⟨?_, (hiff u (by omega) le_rfl).mpr hhigh, ?_⟩
  · rw [hiff (l - 1) le_rfl (by omega)]
    omega
  · intro c hl hu hprev
    rw [hiff (c - 1) (by omega) (by omega)] at hprev
    rw [hiff c (by omega) hu]
    omega

theorem Threshold.exists_bounds {p : ℤ → Prop} {l u : ℤ} (hlu : l ≤ u) (h : Threshold p l u) :
    ∃ value, Bounds p l u value := by
  obtain ⟨value, ⟨hlow, hhigh, hvalue⟩, hleast⟩ :=
    Int.exists_least_of_bdd (P := fun c => l - 1 ≤ c ∧ c ≤ u ∧ p c)
      ⟨l - 1, fun _ hc => hc.1⟩ ⟨u, by omega, le_rfl, h.upper⟩
  have hne : value ≠ l - 1 := fun heq => h.lower (heq ▸ hvalue)
  refine ⟨value, by omega, hhigh, fun c hl hu => ⟨fun hc => hleast c ⟨hl, hu, hc⟩, fun hle => ?_⟩⟩
  exact h.mono hlow hle hu hvalue

theorem Bounds.unique {p : ℤ → Prop} {l u first second : ℤ}
    (hfirst : Bounds p l u first) (hsecond : Bounds p l u second) : first = second := by
  obtain ⟨hl, hu, hiff⟩ := hfirst
  obtain ⟨hl', hu', hiff'⟩ := hsecond
  have hle : first ≤ second :=
    (hiff second (by omega) hu').mp ((hiff' second (by omega) hu').mpr le_rfl)
  have hge : second ≤ first :=
    (hiff' first (by omega) hu).mp ((hiff first (by omega) hu).mpr le_rfl)
  exact le_antisymm hle hge

/-- The value of a threshold predicate is the least constant it accepts. -/
theorem Bounds.isLeast {p : ℤ → Prop} {l u value : ℤ} (h : Bounds p l u value) :
    IsLeast {c | l - 1 ≤ c ∧ c ≤ u ∧ p c} value := by
  obtain ⟨hl, hu, hiff⟩ := h
  refine ⟨⟨by omega, hu, (hiff value (by omega) hu).mpr le_rfl⟩, ?_⟩
  rintro c ⟨hlow, hhigh, hc⟩
  exact (hiff c hlow hhigh).mp hc

/-! ## Sums of bounded terms -/

variable {ι : Type*}

/-- Between the sums of lower and of upper bounds every sum is reached. -/
theorem exists_sum_between (lo hi : ι → ℤ) (xs : List ι) (hle : ∀ x ∈ xs, lo x ≤ hi x)
    (s : ℤ) (hlow : (xs.map lo).sum ≤ s) (hhigh : s ≤ (xs.map hi).sum) :
    ∃ bs, List.Forall₂ (fun b x => lo x ≤ b ∧ b ≤ hi x) bs xs ∧ bs.sum = s := by
  induction xs generalizing s with
  | nil =>
      simp only [List.map_nil, List.sum_nil] at hlow hhigh
      exact ⟨[], List.Forall₂.nil, by simp; omega⟩
  | cons x xs ih =>
      simp only [List.map_cons, List.sum_cons] at hlow hhigh
      have hx := hle x List.mem_cons_self
      have hsum : (xs.map lo).sum ≤ (xs.map hi).sum :=
        List.sum_le_sum fun y hy => hle y (List.mem_cons_of_mem x hy)
      -- the head takes what the tail cannot, and no less than its own bound
      obtain ⟨b, hlo, hhi, hrest, hrest'⟩ : ∃ b, lo x ≤ b ∧ b ≤ hi x ∧
          (xs.map lo).sum ≤ s - b ∧ s - b ≤ (xs.map hi).sum := by
        refine ⟨max (lo x) (s - (xs.map hi).sum), ?_, ?_, ?_, ?_⟩ <;> omega
      obtain ⟨bs, hbs, hbssum⟩ := ih (fun y hy => hle y (List.mem_cons_of_mem x hy))
        (s - b) hrest hrest'
      exact ⟨b :: bs, List.Forall₂.cons ⟨hlo, hhi⟩ hbs, by simp [hbssum]⟩

theorem sum_between (lo hi : ι → ℤ) {xs : List ι} {bs : List ℤ}
    (hbs : List.Forall₂ (fun b x => lo x ≤ b ∧ b ≤ hi x) bs xs) :
    (xs.map lo).sum ≤ bs.sum ∧ bs.sum ≤ (xs.map hi).sum := by
  induction hbs with
  | nil => simp
  | cons hhead _ ih =>
      simp only [List.map_cons, List.sum_cons]
      omega

theorem sum_map_sub_one (f : ι → ℤ) (xs : List ι) :
    (xs.map fun x => f x - 1).sum = (xs.map f).sum - xs.length := by
  induction xs with
  | nil => simp
  | cons x xs ih =>
      simp only [List.map_cons, List.sum_cons, List.length_cons, ih, Nat.cast_add, Nat.cast_one]
      ring

theorem sum_lt_of_forall_lt (val : ι → ℤ) {xs : List ι} {bs : List ℤ}
    (hlt : List.Forall₂ (fun b x => b < val x) bs xs) :
    bs.sum + xs.length ≤ (xs.map val).sum := by
  induction hlt with
  | nil => simp
  | cons hhead _ ih =>
      simp only [List.sum_cons, List.length_cons, List.map_cons, Nat.cast_add, Nat.cast_one]
      omega

/-- A sum of bounded terms is at most `c` exactly when every split of
`c - n + 1` between the terms leaves one of them within its share. The splits
range over the terms' bounds, the lower ones diminished by one. -/
theorem sum_le_iff_forall_split (lo hi val : ι → ℤ) (xs : List ι) (c : ℤ)
    (hval : ∀ x ∈ xs, lo x ≤ val x ∧ val x ≤ hi x)
    (hreach : (xs.map lo).sum - xs.length ≤ c - xs.length + 1) :
    (xs.map val).sum ≤ c ↔
      ∀ bs, List.Forall₂ (fun b x => lo x - 1 ≤ b ∧ b ≤ hi x) bs xs →
        bs.sum = c - xs.length + 1 → ∃ p ∈ bs.zip xs, val p.2 ≤ p.1 := by
  constructor
  · intro hle bs hbs hsum
    by_contra hnone
    push Not at hnone
    have hlt : List.Forall₂ (fun b x => b < val x) bs xs :=
      List.forall₂_iff_zip.mpr ⟨hbs.length_eq, fun hmem => hnone _ hmem⟩
    have := sum_lt_of_forall_lt val hlt
    omega
  · intro hall
    by_contra hgt
    have hsums := sum_map_sub_one val xs
    have hlos := sum_map_sub_one lo xs
    obtain ⟨bs, hbs, hsum⟩ := exists_sum_between (fun x => lo x - 1) (fun x => val x - 1) xs
      (fun x hx => by have := hval x hx; omega) (c - xs.length + 1) (by omega) (by omega)
    have hbox : List.Forall₂ (fun b x => lo x - 1 ≤ b ∧ b ≤ hi x) bs xs := by
      obtain ⟨hlen, hzip⟩ := List.forall₂_iff_zip.mp hbs
      refine List.forall₂_iff_zip.mpr ⟨hlen, fun {b x} hmem => ?_⟩
      have hb := hzip hmem
      have hx := hval x (List.of_mem_zip hmem).2
      omega
    obtain ⟨p, hp, hle⟩ := hall bs hbox hsum
    have := (List.forall₂_iff_zip.mp hbs).2 hp
    omega

end Foundation
