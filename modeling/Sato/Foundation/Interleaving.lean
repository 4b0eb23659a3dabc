import Mathlib.Tactic.Common

/-! # Interleavings

An interleaving of two lists keeps the order of each. Its entries say which list
they come from.
-/

namespace Foundation

variable {α β : Type*}

inductive Interleaving : List α → List β → List (α ⊕ β) → Prop
  | nil : Interleaving [] [] []
  | left (a : α) {first : List α} {second : List β} {merged : List (α ⊕ β)}
      (h : Interleaving first second merged) :
      Interleaving (a :: first) second (.inl a :: merged)
  | right (b : β) {first : List α} {second : List β} {merged : List (α ⊕ β)}
      (h : Interleaving first second merged) :
      Interleaving first (b :: second) (.inr b :: merged)

namespace Interleaving

variable {first : List α} {second : List β} {merged : List (α ⊕ β)}

/-- What a map makes of the entries of one side, the others left out. -/
theorem flatMap_left {γ : Type*} (h : Interleaving first second merged) (f : α → List γ) :
    merged.flatMap (Sum.elim f fun _ => []) = first.flatMap f := by
  induction h with
  | nil => rfl
  | left a _ ih => simp [ih]
  | right b _ ih => simp [ih]

theorem flatMap_right {γ : Type*} (h : Interleaving first second merged) (g : β → List γ) :
    merged.flatMap (Sum.elim (fun _ => []) g) = second.flatMap g := by
  induction h with
  | nil => rfl
  | left a _ ih => simp [ih]
  | right b _ ih => simp [ih]

end Interleaving

end Foundation
