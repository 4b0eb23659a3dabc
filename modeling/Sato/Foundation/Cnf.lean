import Mathlib.Data.List.Forall2
import Mathlib.Data.List.Perm.Subperm
import Mathlib.Data.List.Sections
import Mathlib.Order.Basic
import Mathlib.Tactic.Common
import Mathlib.Tactic.Push

/-! # Truth of clause lists

A conjunctive normal form is a list of clauses over any type of literals; its
truth is relative to a predicate saying which literals hold. The last section
treats auxiliary atoms that only imply what they name.
-/

namespace Foundation

variable {α β ι : Type*}

/-- Every clause has a literal that holds. -/
def CnfTrue (holds : α → Prop) (cnf : List (List α)) : Prop :=
  ∀ clause ∈ cnf, ∃ l ∈ clause, holds l

instance (holds : α → Prop) [DecidablePred holds] (cnf : List (List α)) :
    Decidable (CnfTrue holds cnf) :=
  inferInstanceAs (Decidable (∀ clause ∈ cnf, ∃ l ∈ clause, holds l))

@[simp] theorem cnfTrue_nil (holds : α → Prop) : CnfTrue holds [] := by
  simp [CnfTrue]

@[simp] theorem cnfTrue_cons (holds : α → Prop) (clause : List α) (cnf : List (List α)) :
    CnfTrue holds (clause :: cnf) ↔ (∃ l ∈ clause, holds l) ∧ CnfTrue holds cnf := by
  simp [CnfTrue]

@[simp] theorem cnfTrue_append (holds : α → Prop) (first second : List (List α)) :
    CnfTrue holds (first ++ second) ↔ CnfTrue holds first ∧ CnfTrue holds second := by
  simp only [CnfTrue, List.mem_append, or_imp, forall_and]

@[simp] theorem cnfTrue_flatten (holds : α → Prop) (cnfs : List (List (List α))) :
    CnfTrue holds cnfs.flatten ↔ ∀ cnf ∈ cnfs, CnfTrue holds cnf := by
  induction cnfs with
  | nil => simp
  | cons cnf cnfs ih => simp [ih]

/-- A clause list with an empty clause is false. -/
theorem not_cnfTrue_of_nil_mem {holds : α → Prop} {cnf : List (List α)} (hmem : [] ∈ cnf) :
    ¬ CnfTrue holds cnf := by
  intro htrue
  obtain ⟨l, hl, -⟩ := htrue [] hmem
  simp at hl

theorem cnfTrue_map (holds : β → Prop) (f : α → β) (cnf : List (List α)) :
    CnfTrue holds (cnf.map (List.map f)) ↔ CnfTrue (holds ∘ f) cnf := by
  simp [CnfTrue]

theorem cnfTrue_congr {first second : α → Prop} {cnf : List (List α)}
    (hiff : ∀ clause ∈ cnf, ∀ l ∈ clause, (first l ↔ second l)) :
    CnfTrue first cnf ↔ CnfTrue second cnf := by
  refine forall₂_congr fun clause hclause => ?_
  exact exists_congr fun l => and_congr_right fun hl => hiff clause hclause l hl

theorem exists_mem_forall₂ {first : α → Prop} {second : β → Prop} {l : List α} {m : List β}
    (hiff : List.Forall₂ (fun a b => first a ↔ second b) l m) :
    (∃ a ∈ l, first a) ↔ ∃ b ∈ m, second b := by
  induction hiff with
  | nil => simp
  | cons hhead _ ih => simp only [List.exists_mem_cons_iff, hhead, ih]

/-- Clause lists of the same shape whose literals agree. -/
theorem cnfTrue_forall₂ {first : α → Prop} {second : β → Prop} {cnf : List (List α)}
    {other : List (List β)}
    (hiff : List.Forall₂ (List.Forall₂ fun a b => first a ↔ second b) cnf other) :
    CnfTrue first cnf ↔ CnfTrue second other := by
  induction hiff with
  | nil => simp
  | cons hhead _ ih => rw [cnfTrue_cons, cnfTrue_cons, exists_mem_forall₂ hhead, ih]

/-! ## Repetitions -/

theorem nodup_eraseDups [BEq α] [LawfulBEq α] (l : List α) : l.eraseDups.Nodup := by
  induction hlen : l.length using Nat.strongRecOn generalizing l with
  | ind n ih =>
      cases l with
      | nil => simp
      | cons a l =>
          rw [List.eraseDups_cons, List.nodup_cons, List.mem_eraseDups]
          refine ⟨by simp, ih _ ?_ _ rfl⟩
          have := List.length_filter_le (fun b => !b == a) l
          simp only [List.length_cons] at hlen
          omega

theorem length_eraseDups_le [BEq α] [LawfulBEq α] (l : List α) :
    l.eraseDups.length ≤ l.length :=
  (List.subperm_of_subset (nodup_eraseDups l) fun _ => List.mem_eraseDups.mp).length_le

@[simp] theorem eraseDups_eq_nil [BEq α] [LawfulBEq α] {l : List α} :
    l.eraseDups = [] ↔ l = [] := by
  simp [List.eq_nil_iff_forall_not_mem, List.mem_eraseDups]

theorem eraseDups_map [BEq α] [LawfulBEq α] [BEq β] [LawfulBEq β] {f : α → β}
    (hf : Function.Injective f) (l : List α) : (l.map f).eraseDups = l.eraseDups.map f := by
  induction hlen : l.length using Nat.strongRecOn generalizing l with
  | ind n ih =>
      cases l with
      | nil => rfl
      | cons a l =>
          have hfilter : (l.map f).filter (fun b => !b == f a) =
              (l.filter fun b => !b == a).map f := by
            rw [List.filter_map]
            congr 1
            refine List.filter_congr fun b _ => ?_
            rw [Bool.eq_iff_iff]
            simp [hf.eq_iff]
          have hshort : (l.filter fun b => !b == a).length < n := by
            have := List.length_filter_le (fun b => !b == a) l
            rw [List.length_cons] at hlen
            omega
          rw [List.map_cons, List.eraseDups_cons, List.eraseDups_cons, hfilter,
            ih _ hshort _ rfl, List.map_cons]

theorem cnfTrue_eraseDups [BEq α] [LawfulBEq α] (holds : α → Prop) (cnf : List (List α)) :
    CnfTrue holds cnf.eraseDups ↔ CnfTrue holds cnf := by
  simp [CnfTrue, List.mem_eraseDups]

theorem cnfTrue_map_eraseDups [BEq α] [LawfulBEq α] (holds : α → Prop) (cnf : List (List α)) :
    CnfTrue holds (cnf.map List.eraseDups) ↔ CnfTrue holds cnf := by
  simp [CnfTrue, List.mem_eraseDups]

/-! ## Distribution -/

/-- One clause list over the clauses of another is their disjunction: when both
have a false clause, so has the product. -/
theorem cnfTrue_product (holds : α → Prop) (first second : List (List α)) :
    CnfTrue holds (first.flatMap fun c => second.map fun d => c ++ d) ↔
      CnfTrue holds first ∨ CnfTrue holds second := by
  simp only [CnfTrue, List.mem_flatMap, List.mem_map]
  constructor
  · intro htrue
    by_contra hnot
    push Not at hnot
    obtain ⟨⟨c, hc, hcfalse⟩, d, hd, hdfalse⟩ := hnot
    obtain ⟨l, hl, hl'⟩ := htrue (c ++ d) ⟨c, hc, d, hd, rfl⟩
    rcases List.mem_append.mp hl with hl | hl
    · exact hcfalse l hl hl'
    · exact hdfalse l hl hl'
  · rintro htrue _ ⟨c, hc, d, hd, rfl⟩
    rcases htrue with htrue | htrue
    · obtain ⟨l, hl, hl'⟩ := htrue c hc
      exact ⟨l, List.mem_append_left d hl, hl'⟩
    · obtain ⟨l, hl, hl'⟩ := htrue d hd
      exact ⟨l, List.mem_append_right c hl, hl'⟩

/-- Choosing one literal from every conjunction turns a disjunction of
conjunctions into a conjunction of disjunctions. -/
theorem forall_choice_iff (holds : α → Prop) (dnf : List (List α)) :
    (∀ choice, List.Forall₂ (· ∈ ·) choice dnf → ∃ l ∈ choice, holds l) ↔
      ∃ clause ∈ dnf, ∀ l ∈ clause, holds l := by
  induction dnf with
  | nil => simp
  | cons clause dnf ih =>
      rw [List.exists_mem_cons_iff, ← ih]
      constructor
      · intro hall
        by_contra hnot
        push Not at hnot
        obtain ⟨⟨l, hl, hfalse⟩, choice, hchoice, hnone⟩ := hnot
        obtain ⟨m, hm, htrue⟩ := hall (l :: choice) (List.Forall₂.cons hl hchoice)
        rcases List.mem_cons.mp hm with rfl | hm
        · exact hfalse htrue
        · exact hnone m hm htrue
      · rintro (hclause | htail) choice hchoice
        · cases hchoice with
          | cons hl _ => exact ⟨_, List.mem_cons_self, hclause _ hl⟩
        · cases hchoice with
          | cons _ hrest =>
              obtain ⟨l, hl, htrue⟩ := htail _ hrest
              exact ⟨l, List.mem_cons_of_mem _ hl, htrue⟩

/-! ## Named implications -/

/-- Positions of a clause list are given names, and a name implies the formula
of every position that bears it. Some valuation of the names makes one name of
each clause true exactly when each clause has a position whose namesakes all
hold, however the names are shared. -/
theorem exists_names_iff (name : ι → β) (formula : ι → Prop) (clauses : List (List ι)) :
    (∃ q : β → Prop, (∀ clause ∈ clauses, ∃ i ∈ clause, q (name i)) ∧
        ∀ clause ∈ clauses, ∀ i ∈ clause, q (name i) → formula i) ↔
      ∀ clause ∈ clauses, ∃ i ∈ clause, ∀ other ∈ clauses, ∀ j ∈ other,
        name j = name i → formula j := by
  constructor
  · rintro ⟨q, hsome, himp⟩ clause hclause
    obtain ⟨i, hi, hq⟩ := hsome clause hclause
    exact ⟨i, hi, fun other hother j hj heq => himp other hother j hj (heq ▸ hq)⟩
  · intro hall
    refine ⟨fun b => ∀ other ∈ clauses, ∀ j ∈ other, name j = b → formula j, hall, ?_⟩
    intro clause hclause i hi hq
    exact hq clause hclause i hi rfl

end Foundation
