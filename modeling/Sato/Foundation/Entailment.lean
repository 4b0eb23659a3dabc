import Mathlib.Algebra.Group.Basic
import Sato.Foundation.Cnf

/-! # Entailment of clauses

Literals have an opposite, and a valuation makes one of the two true. A clause is
entailed by clauses when every valuation of these satisfies it. Clauses entail what
resolution makes of them, along a trail of literals that each follow from earlier ones.
-/

namespace Foundation

variable {α : Type*} [InvolutiveNeg α]

/-- Exactly one of a literal and its opposite is true. -/
def IsValuation (v : α → Prop) : Prop := ∀ a, v (-a) ↔ ¬ v a

/-- Every valuation of the clauses satisfies the clause. -/
def Entails (F : List (List α)) (clause : List α) : Prop :=
  ∀ v, IsValuation v → CnfTrue v F → ∃ a ∈ clause, v a

/-- No valuation satisfies the clauses. -/
def Unsatisfiable (F : List (List α)) : Prop := ∀ v, IsValuation v → ¬ CnfTrue v F

namespace Entails

variable {F : List (List α)} {clause : List α}

theorem of_mem (hclause : clause ∈ F) : Entails F clause :=
  fun _ _ htrue => htrue clause hclause

theorem mono {other : List α} (h : Entails F clause) (hsubset : clause ⊆ other) :
    Entails F other := by
  intro v hv htrue
  obtain ⟨a, ha, hva⟩ := h v hv htrue
  exact ⟨a, hsubset ha, hva⟩

theorem weaken {G : List (List α)} (h : Entails F clause) (hsubset : F ⊆ G) :
    Entails G clause :=
  fun v hv htrue => h v hv fun c hc => htrue c (hsubset hc)

/-- Literals that are refuted may be left out of a clause. -/
theorem drop {other : List α} (h : Entails F clause)
    (hclause : ∀ q ∈ clause, q ∈ other ∨ Entails F [-q]) : Entails F other := by
  intro v hv htrue
  obtain ⟨a, ha, hva⟩ := h v hv htrue
  rcases hclause a ha with hmem | hrefuted
  · exact ⟨a, hmem, hva⟩
  · obtain ⟨b, hb, hvb⟩ := hrefuted v hv htrue
    rw [List.mem_singleton.mp hb] at hvb
    exact absurd hva ((hv a).mp hvb)

/-- A clause whose other literals are refuted entails the one left. -/
theorem unit {p : α} (h : Entails F clause) (hothers : ∀ q ∈ clause, q ≠ p → Entails F [-q]) :
    Entails F [p] := by
  refine h.drop fun q hq => ?_
  by_cases hqp : q = p
  · exact Or.inl (List.mem_singleton.mpr hqp)
  · exact Or.inr (hothers q hq hqp)

/-- A clause whose literals are all refuted. -/
theorem unsatisfiable (h : Entails F clause) (hall : ∀ q ∈ clause, Entails F [-q]) :
    Unsatisfiable F := by
  intro v hv htrue
  obtain ⟨a, ha, -⟩ := h.drop (fun q hq => Or.inr (hall q hq)) v hv htrue
  exact absurd ha List.not_mem_nil

theorem unsatisfiable_of_nil (h : Entails F []) : Unsatisfiable F :=
  unsatisfiable h (List.forall_mem_nil _)

theorem resolve {p : α} {other : List α} (h : Entails F (p :: clause))
    (hother : Entails F (-p :: other)) : Entails F (clause ++ other) := by
  intro v hv htrue
  obtain ⟨a, ha, hva⟩ := h v hv htrue
  obtain ⟨b, hb, hvb⟩ := hother v hv htrue
  rcases List.mem_cons.mp ha with rfl | ha
  · rcases List.mem_cons.mp hb with rfl | hb
    · exact absurd hva ((hv a).mp hvb)
    · exact ⟨b, List.mem_append_right _ hb, hvb⟩
  · exact ⟨a, List.mem_append_left _ ha, hva⟩

theorem singleton_iff {p : α} :
    Entails F [p] ↔ ∀ v, IsValuation v → CnfTrue v F → v p := by
  simp [Entails]

end Entails

theorem Unsatisfiable.weaken {F G : List (List α)} (h : Unsatisfiable F) (hsubset : F ⊆ G) :
    Unsatisfiable G :=
  fun v hv htrue => h v hv fun c hc => htrue c (hsubset hc)

/-- A valuation of the clauses that makes the kept literals of a trail true makes
every marked one true, if a marked literal that is not kept has a reason whose other
literals are refuted by marked literals before it. -/
theorem forall_marked_of_reasons {F : List (List α)} {trail : List α} {marked kept : α → Prop}
    (hreason : ∀ p rest, p :: rest <:+ trail → marked p → ¬ kept p →
      ∃ clause, Entails F clause ∧ ∀ q ∈ clause, q ≠ p →
        -q ∈ rest ∧ marked (-q) ∨ Entails F [-q])
    {v : α → Prop} (hv : IsValuation v) (htrue : CnfTrue v F)
    (hkept : ∀ p ∈ trail, kept p → v p) : ∀ p ∈ trail, marked p → v p := by
  induction trail with
  | nil => simp
  | cons p rest ih =>
      rw [List.forall_mem_cons] at hkept
      have hrest : ∀ q ∈ rest, marked q → v q := by
        refine ih (fun q later hsuffix => ?_) hkept.2
        exact hreason q later (hsuffix.trans (List.suffix_cons p rest))
      rw [List.forall_mem_cons]
      refine ⟨fun hmarked => ?_, hrest⟩
      by_cases hk : kept p
      · exact hkept.1 hk
      · obtain ⟨clause, hclause, hothers⟩ := hreason p rest (List.suffix_refl _) hmarked hk
        obtain ⟨a, ha, hva⟩ := hclause v hv htrue
        by_cases hap : a = p
        · exact hap ▸ hva
        · rcases hothers a ha hap with ⟨hmem, hmarked⟩ | hrefuted
          · exact absurd hva ((hv a).mp (hrest _ hmem hmarked))
          · exact absurd hva ((hv a).mp (Entails.singleton_iff.mp hrefuted v hv htrue))

end Foundation
