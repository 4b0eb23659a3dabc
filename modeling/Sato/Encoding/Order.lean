import Sato.Foundation.Interval
import Sato.Foundation.Result
import Sato.Semantics

/-! # Order axioms

The clauses of a variable make its atoms a threshold predicate over its domain.
The atoms they register are those of the constants from `l - 1` to `u`.
-/

namespace Sato

open Foundation

namespace IntegerVariable

/-- The clauses of `predicateBounds` and of `predicateOrderRelation`. -/
def orderAxioms (x : IntegerVariable) : List (List Str) :=
  [['-' :: x.atom (x.domain.l - 1)], [x.atom x.domain.u]] ++
    (loopRange x.domain.l x.domain.u).map fun i => ['-' :: x.atom (i - 1), x.atom i]

/-- The atoms the two functions register, in the order they do. -/
def registered (x : IntegerVariable) : List Str :=
  [x.atom (x.domain.l - 1), x.atom x.domain.u] ++
    (loopRange x.domain.l x.domain.u).flatMap fun i => [x.atom (i - 1), x.atom i]

theorem mem_registered {x : IntegerVariable} {a : Str} :
    a ∈ x.registered ↔ ∃ c, x.domain.l - 1 ≤ c ∧ c ≤ x.domain.u ∧ a = x.atom c := by
  have hlu := x.domain.l_le_u
  simp only [registered, List.mem_append, List.mem_cons, List.not_mem_nil, or_false,
    List.mem_flatMap, mem_loopRange]
  constructor
  · rintro ((rfl | rfl) | ⟨i, hi, rfl | rfl⟩)
    · exact ⟨_, le_rfl, by omega, rfl⟩
    · exact ⟨_, by omega, le_rfl, rfl⟩
    · exact ⟨_, by omega, by omega, rfl⟩
    · exact ⟨_, by omega, by omega, rfl⟩
  · rintro ⟨c, hlow, hhigh, rfl⟩
    by_cases hc : c = x.domain.l - 1
    · exact Or.inl (Or.inl (by rw [hc]))
    · exact Or.inr ⟨c, by omega, Or.inr rfl⟩

theorem literalTrue_atom (v : Valuation) (x : IntegerVariable) (c : ℤ) :
    LiteralTrue v (x.atom c) ↔ v (x.atom c) := Iff.rfl

theorem literalTrue_minus (v : Valuation) (a : Str) : LiteralTrue v ('-' :: a) ↔ ¬ v a := Iff.rfl

/-- The clauses of a variable say that its atoms are a threshold predicate. -/
theorem cnfTrue_orderAxioms (v : Valuation) (x : IntegerVariable) :
    CnfTrue (LiteralTrue v) x.orderAxioms ↔
      Threshold (fun c => v (x.atom c)) x.domain.l x.domain.u := by
  have hchain : CnfTrue (LiteralTrue v) ((loopRange x.domain.l x.domain.u).map
      fun i => ['-' :: x.atom (i - 1), x.atom i]) ↔
        ∀ c, x.domain.l ≤ c → c ≤ x.domain.u → v (x.atom (c - 1)) → v (x.atom c) := by
    simp only [CnfTrue, List.forall_mem_map, mem_loopRange, List.mem_cons, List.not_mem_nil,
      or_false, exists_eq_or_imp, exists_eq_left, literalTrue_atom, literalTrue_minus, and_imp]
    refine forall₃_congr fun c _ _ => ?_
    exact imp_iff_not_or.symm
  rw [orderAxioms, cnfTrue_append, hchain]
  simp only [cnfTrue_cons, cnfTrue_nil, and_true, List.mem_singleton, exists_eq_left,
    literalTrue_atom, literalTrue_minus]
  exact ⟨fun h => ⟨h.1.1, h.1.2, h.2⟩, fun h => ⟨⟨h.lower, h.upper⟩, h.step⟩⟩

theorem predicateBounds_eq (x : IntegerVariable) (boolVars : List Str) :
    x.predicateBounds boolVars =
      ([['-' :: x.atom (x.domain.l - 1)], [x.atom x.domain.u]],
        [x.atom (x.domain.l - 1), x.atom x.domain.u].foldl register boolVars) := rfl

theorem predicateOrderRelation_eq (x : IntegerVariable) (boolVars : List Str) :
    x.predicateOrderRelation boolVars =
      ((loopRange x.domain.l x.domain.u).map (fun i => ['-' :: x.atom (i - 1), x.atom i]),
        ((loopRange x.domain.l x.domain.u).flatMap
          fun i => [x.atom (i - 1), x.atom i]).foldl register boolVars) := by
  rw [predicateOrderRelation, foldl_collect x.orderStep
    (fun i => [['-' :: x.atom (i - 1), x.atom i]])
    (fun names i => [x.atom (i - 1), x.atom i].foldl register names) (fun _ _ => rfl),
    List.foldl_flatMap, ← List.map_eq_flatMap]
  rfl

/-- Registration appends the atoms that are new, each once. -/
theorem foldl_register (atoms boolVars : List Str) :
    atoms.foldl register boolVars =
      boolVars ++ (atoms.filter fun a => a ∉ boolVars).eraseDups := by
  induction atoms generalizing boolVars with
  | nil => simp
  | cons a atoms ih =>
      rw [List.foldl_cons, ih, register]
      split
      next hmem => rw [List.filter_cons_of_neg (by simpa using hmem)]
      next hnew =>
        have hfilter : (atoms.filter fun b => b ∉ boolVars ++ [a]) =
            (atoms.filter fun b => b ∉ boolVars).filter fun b => !b == a := by
          rw [List.filter_filter]
          refine List.filter_congr fun b _ => ?_
          rw [Bool.eq_iff_iff]
          simp [and_comm]
        rw [List.filter_cons_of_pos (by simpa using hnew), List.eraseDups_cons, hfilter]
        simp

/-- The constants of the atoms, each once, in the order they are registered. -/
def constants (x : IntegerVariable) : List ℤ :=
  ([x.domain.l - 1, x.domain.u] ++
    (loopRange x.domain.l x.domain.u).flatMap fun i => [i - 1, i]).eraseDups

theorem eraseDups_registered (x : IntegerVariable) :
    x.registered.eraseDups = x.constants.map x.atom := by
  have hinj : Function.Injective x.atom := fun c d heq => (atom_inj.mp heq).2
  rw [constants, ← eraseDups_map hinj, registered, List.map_append, List.map_flatMap]
  rfl

theorem mem_constants {x : IntegerVariable} {c : ℤ} :
    c ∈ x.constants ↔ x.domain.l - 1 ≤ c ∧ c ≤ x.domain.u := by
  have hmem : x.atom c ∈ x.registered.eraseDups ↔ c ∈ x.constants := by
    rw [eraseDups_registered, List.mem_map]
    constructor
    · rintro ⟨d, hd, heq⟩
      rwa [(atom_inj.mp heq).2] at hd
    · exact fun hc => ⟨c, hc, rfl⟩
  rw [← hmem, List.mem_eraseDups, mem_registered]
  constructor
  · rintro ⟨d, hlow, hhigh, heq⟩
    rw [(atom_inj.mp heq).2]
    exact ⟨hlow, hhigh⟩
  · exact fun hc => ⟨c, hc.1, hc.2, rfl⟩

/-- Variables with distinct names register their atoms one after the other. -/
theorem foldl_register_registered {vars : List IntegerVariable}
    (hnodup : (vars.map name).Nodup) {boolVars : List Str}
    (hnew : ∀ x ∈ vars, ∀ c, x.atom c ∉ boolVars) :
    (vars.flatMap registered).foldl register boolVars =
      boolVars ++ vars.flatMap fun x => x.constants.map x.atom := by
  induction vars generalizing boolVars with
  | nil => simp
  | cons x vars ih =>
      rw [List.map_cons, List.nodup_cons] at hnodup
      rw [List.forall_mem_cons] at hnew
      have hfilter : x.registered.filter (fun a => a ∉ boolVars) = x.registered := by
        refine List.filter_eq_self.mpr fun a ha => ?_
        obtain ⟨c, -, -, rfl⟩ := mem_registered.mp ha
        simpa using hnew.1 c
      rw [List.flatMap_cons, List.foldl_append, foldl_register x.registered, hfilter,
        eraseDups_registered, ih]
      · simp
      · exact hnodup.2
      · intro y hy c hmem
        rcases List.mem_append.mp hmem with hmem | hmem
        · exact hnew.2 y hy c hmem
        · obtain ⟨d, -, heq⟩ := List.mem_map.mp hmem
          exact hnodup.1 ((atom_inj.mp heq).1 ▸ List.mem_map_of_mem hy)

end IntegerVariable

namespace CSP

/-- The order axioms of all variables, and the atoms registered with them. -/
theorem predicateOrderRelations_eq (csp : CSP) (boolVars : List Str) :
    csp.predicateOrderRelations boolVars =
      (csp.variables.flatMap IntegerVariable.orderAxioms,
        (csp.variables.flatMap IntegerVariable.registered).foldl
          IntegerVariable.register boolVars) := by
  have hstep : ∀ (acc : List (List Str) × List Str) (x : IntegerVariable), relationStep acc x =
      (acc.1 ++ x.orderAxioms, x.registered.foldl IntegerVariable.register acc.2) := by
    intro acc x
    simp only [relationStep, IntegerVariable.predicateBounds_eq,
      IntegerVariable.predicateOrderRelation_eq, IntegerVariable.orderAxioms,
      IntegerVariable.registered, List.foldl_append, List.append_assoc]
  rw [predicateOrderRelations, foldl_collect relationStep _
    (fun names x => x.registered.foldl IntegerVariable.register names) hstep, List.foldl_flatMap,
    List.nil_append]

theorem cnfTrue_axioms (v : Valuation) (vars : List IntegerVariable) :
    CnfTrue (LiteralTrue v) (vars.flatMap IntegerVariable.orderAxioms) ↔
      ∀ x ∈ vars, Threshold (fun c => v (x.atom c)) x.domain.l x.domain.u := by
  simp only [← IntegerVariable.cnfTrue_orderAxioms]
  rw [List.flatMap, cnfTrue_flatten, List.forall_mem_map]

end CSP

end Sato
