import Mathlib.Data.List.Basic
import Mathlib.Data.Set.Card

/-! # Enumeration by blocking

A chooser gets the list of what it has chosen so far and returns something new,
or nothing when nothing new is left. Over finitely many candidates it lists each
of them once and then stops.
-/

namespace Foundation

variable {α : Type*}

/-- The chooser returns new candidates, and nothing only where none is left. -/
structure Chooses (candidate : α → Prop) (choose : List α → Option α) : Prop where
  new : ∀ seen a, (∀ b ∈ seen, candidate b) → choose seen = some a → candidate a ∧ a ∉ seen
  exhausted : ∀ seen, (∀ b ∈ seen, candidate b) → choose seen = none →
    ∀ a, candidate a → a ∈ seen

/-- What is left to choose after some choices. -/
theorem Chooses.exists_rest {candidate : α → Prop} {choose : List α → Option α}
    (hchoose : Chooses candidate choose) (hfin : {a | candidate a}.Finite) {seen : List α}
    (hseen : ∀ a ∈ seen, candidate a) (hnodup : seen.Nodup) :
    ∃ rest, (seen ++ rest).Nodup ∧ (∀ a, a ∈ seen ++ rest ↔ candidate a) ∧
      ∀ k ≤ rest.length, choose (seen ++ rest.take k) = rest[k]? := by
  -- the number of candidates not seen yet decreases with every choice
  induction hleft : {a | candidate a ∧ a ∉ seen}.ncard using Nat.strongRecOn generalizing seen with
  | ind n ih =>
      cases hnext : choose seen with
      | none =>
          refine ⟨[], by simpa using hnodup, fun a => ?_, by simpa using hnext⟩
          rw [List.append_nil]
          exact ⟨hseen a, hchoose.exhausted seen hseen hnext a⟩
      | some next =>
          obtain ⟨hcandidate, hnew⟩ := hchoose.new seen next hseen hnext
          have hseen' : ∀ a ∈ seen ++ [next], candidate a := by
            intro a ha
            rcases List.mem_append.mp ha with ha | ha
            · exact hseen a ha
            · rwa [List.mem_singleton.mp ha]
          have hnodup' : (seen ++ [next]).Nodup :=
            List.nodup_append'.mpr ⟨hnodup, List.nodup_singleton next,
              List.disjoint_singleton.mpr hnew⟩
          have hfewer : {a | candidate a ∧ a ∉ seen ++ [next]}.ncard < n := by
            rw [← hleft]
            refine Set.ncard_lt_ncard ⟨fun a ha => ⟨ha.1, fun hmem => ha.2 ?_⟩, fun hsub => ?_⟩
              (hfin.subset fun a ha => ha.1)
            · exact List.mem_append_left _ hmem
            · have hmem := (hsub (a := next) ⟨hcandidate, hnew⟩).2
              simp at hmem
          obtain ⟨rest, hall, hmem, hrun⟩ := ih _ hfewer hseen' hnodup' rfl
          rw [List.append_assoc, List.singleton_append] at hall
          simp only [List.append_assoc, List.singleton_append] at hmem hrun
          refine ⟨next :: rest, hall, hmem, fun k hk => ?_⟩
          cases k with
          | zero => simpa using hnext
          | succ k => exact hrun k (Nat.le_of_succ_le_succ hk)

/-- The choices made one after the other list the candidates, each once. -/
theorem Chooses.exists_list {candidate : α → Prop} {choose : List α → Option α}
    (hchoose : Chooses candidate choose) (hfin : {a | candidate a}.Finite) :
    ∃ all : List α, all.Nodup ∧ (∀ a, a ∈ all ↔ candidate a) ∧
      ∀ k ≤ all.length, choose (all.take k) = all[k]? := by
  have hnil : ∀ a ∈ ([] : List α), candidate a := by simp
  obtain ⟨rest, hnodup, hmem, hrun⟩ := hchoose.exists_rest hfin hnil List.nodup_nil
  exact ⟨rest, by simpa using hnodup, by simpa using hmem, by simpa using hrun⟩

end Foundation
