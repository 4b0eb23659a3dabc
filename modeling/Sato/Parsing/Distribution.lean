import Sato.Foundation.Result
import Sato.Parsing.Relation

/-! # Distribution of a clause

The constraints of the literals of a clause are folded into one set of clauses.
The empty set, with which the fold begins, stands for no literal at all; every
later set is a disjunction of what the literals mean.
-/

namespace Sato

open Foundation

namespace CSP

/-! ## One step -/

/-- The distribution keeps all texts of both sides. -/
theorem mem_flatten_distribute {cnf1 cnf2 : List (List Str)} {text : Str} :
    text ∈ (distribute cnf1 cnf2).flatten ↔ text ∈ cnf1.flatten ∨ text ∈ cnf2.flatten := by
  unfold distribute
  split
  next hnil => simp [List.isEmpty_iff.mp hnil]
  next hne1 =>
    split
    next hnil => simp [List.isEmpty_iff.mp hnil]
    next hne2 =>
      rw [List.isEmpty_iff] at hne1 hne2
      obtain ⟨first, rest1, rfl⟩ := List.exists_cons_of_ne_nil hne1
      obtain ⟨second, rest2, rfl⟩ := List.exists_cons_of_ne_nil hne2
      simp only [List.mem_flatten, List.mem_flatMap, List.mem_map]
      constructor
      · rintro ⟨clause, ⟨clause1, h1, clause2, h2, rfl⟩, htext⟩
        rw [List.mem_eraseDups, List.mem_append] at htext
        exact htext.imp (fun h => ⟨clause1, h1, h⟩) fun h => ⟨clause2, h2, h⟩
      -- any clause of the other side will do, and there is one
      · rintro (⟨clause1, h1, htext⟩ | ⟨clause2, h2, htext⟩)
        · exact ⟨_, ⟨clause1, h1, second, List.mem_cons_self, rfl⟩,
            List.mem_eraseDups.mpr (List.mem_append_left _ htext)⟩
        · exact ⟨_, ⟨first, List.mem_cons_self, clause2, h2, rfl⟩,
            List.mem_eraseDups.mpr (List.mem_append_right _ htext)⟩

/-- There is a clause, and every clause has texts, each once. -/
def Disjunctive (cnf : List (List Str)) : Prop :=
  cnf ≠ [] ∧ ∀ clause ∈ cnf, clause ≠ [] ∧ clause.Nodup

theorem distribute_of_ne_nil {cnf1 cnf2 : List (List Str)} (h1 : cnf1 ≠ []) (h2 : cnf2 ≠ []) :
    distribute cnf1 cnf2 =
      (cnf1.flatMap fun clause1 => cnf2.map fun clause2 => clause1 ++ clause2).map
        List.eraseDups := by
  unfold distribute
  rw [if_neg (by simpa using h1), if_neg (by simpa using h2), List.map_flatMap]
  simp only [List.map_map]
  rfl

theorem Disjunctive.distribute {cnf1 cnf2 : List (List Str)} (h1 : Disjunctive cnf1)
    (h2 : Disjunctive cnf2) : Disjunctive (distribute cnf1 cnf2) := by
  rw [distribute_of_ne_nil h1.1 h2.1]
  obtain ⟨first, rest1, rfl⟩ := List.exists_cons_of_ne_nil h1.1
  obtain ⟨second, rest2, rfl⟩ := List.exists_cons_of_ne_nil h2.1
  refine ⟨by simp, fun clause hclause => ?_⟩
  obtain ⟨joined, hjoined, rfl⟩ := List.mem_map.mp hclause
  obtain ⟨clause1, hclause1, hjoined⟩ := List.mem_flatMap.mp hjoined
  obtain ⟨clause2, -, rfl⟩ := List.mem_map.mp hjoined
  have hne : clause1 ++ clause2 ≠ [] := by simp [(h1.2 clause1 hclause1).1]
  exact ⟨by simpa using hne, nodup_eraseDups _⟩

theorem cnfTrue_distribute (holds : Str → Prop) {cnf1 cnf2 : List (List Str)} (h1 : cnf1 ≠ [])
    (h2 : cnf2 ≠ []) :
    CnfTrue holds (distribute cnf1 cnf2) ↔ CnfTrue holds cnf1 ∨ CnfTrue holds cnf2 := by
  rw [distribute_of_ne_nil h1 h2, cnfTrue_map_eraseDups, cnfTrue_product]

/-- The two texts of `!=` end in different characters. -/
theorem disjunctive_constraints (op : Op) (exp : Str) : Disjunctive (op.constraints exp) := by
  have hends : exp ++ "<=-1".toList ≠ "-(".toList ++ exp ++ "<=0)".toList := by
    intro heq
    have hone : "<=-1".toList.getLast? = some '1' := by decide
    have hparen : "<=0)".toList.getLast? = some ')' := by decide
    have hlast := congrArg List.getLast? heq
    rw [List.getLast?_append, List.getLast?_append, hone, hparen] at hlast
    simp at hlast
  cases op with
  | ne => exact ⟨by simp [Op.constraints], by simpa [Op.constraints] using hends⟩
  | le | ge | eq | lt | gt => simp [Disjunctive, Op.constraints]

theorem disjunctive_normalizeExpression {literal : Str} {cnf : List (List Str)}
    (hok : normalizeExpression literal = .ok cnf) : Disjunctive cnf := by
  obtain ⟨left, op, right, -, rfl⟩ := normalizeExpression_eq_ok.mp hok
  exact disjunctive_constraints op _

/-! ## The fold -/

/-- The literals read so far: none, or a set that is their disjunction. -/
def DistributionOf (literals : List Str) (set : List (List Str)) : Prop :=
  literals = [] ∧ set = [] ∨
    Disjunctive set ∧ ∀ holds : Str → Prop, CnfTrue holds set ↔
      ∃ literal ∈ literals, ∃ cnf, normalizeExpression literal = .ok cnf ∧ CnfTrue holds cnf

theorem DistributionOf.distribute {literals : List Str} {set : List (List Str)}
    (h : DistributionOf literals set) {literal : Str} {cnf : List (List Str)}
    (hok : normalizeExpression literal = .ok cnf) :
    DistributionOf (literals ++ [literal]) (distribute set cnf) := by
  have hcnf := disjunctive_normalizeExpression hok
  have hlast : ∀ holds : Str → Prop,
      (∃ other, normalizeExpression literal = .ok other ∧ CnfTrue holds other) ↔
        CnfTrue holds cnf := by
    intro holds
    rw [hok]
    simp
  right
  rcases h with ⟨rfl, rfl⟩ | ⟨hset, hmeaning⟩
  -- the empty set is passed over, although as a formula it is true
  · refine ⟨hcnf, fun holds => ?_⟩
    have hempty : CSP.distribute [] cnf = cnf := rfl
    simp only [hempty, List.nil_append, List.mem_singleton, exists_eq_left, hlast]
  · refine ⟨hset.distribute hcnf, fun holds => ?_⟩
    rw [cnfTrue_distribute holds hset.1 hcnf.1, hmeaning, ← hlast]
    simp only [List.mem_append, List.mem_singleton, or_and_right, exists_or, exists_eq_left]

theorem distributionOf_distributeLiterals {literals : List Str} {set : List (List Str)}
    (hok : distributeLiterals literals = .ok set) : DistributionOf literals set := by
  refine foldlM_induction DistributionOf hok (Or.inl ⟨rfl, rfl⟩)
    fun before literal state next _ hbefore hnext => ?_
  obtain ⟨cnf, hcnf, hnext⟩ := bind_eq_ok.mp hnext
  rw [← pure_eq_ok.mp hnext]
  exact hbefore.distribute hcnf

theorem exists_distributeLiterals {literals : List Str}
    (haccepted : ∀ literal ∈ literals, ∃ cnf, normalizeExpression literal = .ok cnf) :
    ∃ set, distributeLiterals literals = .ok set := by
  refine (exists_foldlM_eq_ok (fun literal _ set => ?_) []).mpr haccepted
  simp only [bind_eq_ok, pure_eq_ok]
  constructor
  · rintro ⟨_, cnf, hcnf, -⟩
    exact ⟨cnf, hcnf⟩
  · rintro ⟨cnf, hcnf⟩
    exact ⟨_, cnf, hcnf, rfl⟩

/-- The set of a clause is the disjunction of its literals, in proper clauses. -/
theorem distributeLiterals_disjunction {literals : List Str} (hne : literals ≠ [])
    (haccepted : ∀ literal ∈ literals, ∃ cnf, normalizeExpression literal = .ok cnf) :
    ∃ set, distributeLiterals literals = .ok set ∧
      (∀ holds : Str → Prop, CnfTrue holds set ↔
        ∃ literal ∈ literals, ∃ cnf, normalizeExpression literal = .ok cnf ∧ CnfTrue holds cnf) ∧
      ∀ clause ∈ set, clause ≠ [] ∧ clause.Nodup := by
  obtain ⟨set, hset⟩ := exists_distributeLiterals haccepted
  rcases distributionOf_distributeLiterals hset with ⟨hnil, -⟩ | ⟨hproper, hmeaning⟩
  · exact absurd hnil hne
  · exact ⟨set, hset, hmeaning, hproper.2⟩

theorem distributeLiterals_disjunction_mixed :
    let literals : List Str := ["x=1".toList, "y!=2".toList, "x=1".toList, "x>y".toList]
    ∃ set, distributeLiterals literals = .ok set ∧
      (∀ holds : Str → Prop, CnfTrue holds set ↔
        ∃ literal ∈ literals, ∃ cnf, normalizeExpression literal = .ok cnf ∧ CnfTrue holds cnf) ∧
      ∀ clause ∈ set, clause ≠ [] ∧ clause.Nodup := by
  intro literals
  refine distributeLiterals_disjunction (by decide) fun literal hliteral => ?_
  have haccepted : ∀ literal ∈ literals, (normalizeExpression literal).toOption.isSome := by
    decide +kernel
  cases hrun : normalizeExpression literal with
  | ok cnf => exact ⟨cnf, rfl⟩
  | error message =>
      have hthrows := haccepted literal hliteral
      rw [hrun] at hthrows
      contradiction

end CSP

end Sato
