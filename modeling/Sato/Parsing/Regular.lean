import Mathlib.Algebra.BigOperators.Group.List.Basic
import Sato.Dimacs.Verdict
import Sato.Parsing.Meaning

/-! # Written constraints that the encoding can express

Two conditions on what is written make the parsed problem regular. The numbers of
clauses and literals that the relations are split into keep the auxiliary names apart,
and the two sides of each constraint come close to each other in the domains, so that
a combination has the sum that is looked for.
-/

namespace Sato

open Foundation

namespace Op

/-- The bounds that the difference of the sides is compared with. -/
def bounds (op : Op) : List ℤ := op.forms.flatten.map Prod.fst

/-- The number of clauses made for the relation. -/
def count : Op → ℕ
  | .eq => 2
  | _ => 1

/-- The number of literals in each of them. -/
def width : Op → ℕ
  | .ne => 2
  | _ => 1

theorem length_constraints (op : Op) (exp : Str) :
    (op.constraints exp).length = op.count ∧
      ∀ clause ∈ op.constraints exp, clause.length = op.width := by
  cases op <;> simp [constraints, count, width]

end Op

namespace Constraint

/-! ## Numbers of clauses and literals -/

/-- The greatest widths of the clauses that a clause of constraints is parsed to. -/
def widths (texts : List Constraint) : List ℕ :=
  List.replicate (texts.map fun c => c.op.count).prod (texts.map fun c => c.op.width).sum

end Constraint

/-- The digits of the ranks of two literals run together. -/
def RanksClash (widths : List ℕ) : Prop :=
  ∃ i j i' j', Shifted i j i' j' ∧ j < widths.getD i 0 ∧ j' < widths.getD i' 0

/-- Up to ten clauses have ranks of one digit. -/
theorem not_ranksClash_of_length_le {widths : List ℕ} (h : widths.length ≤ 10) :
    ¬ RanksClash widths := by
  rintro ⟨i, j, i', j', hshifted, -, hj'⟩
  have hten := hshifted.ten_le
  rw [List.getD_eq_getElem?_getD, List.getElem?_eq_none (h.trans hten)] at hj'
  exact absurd hj' (Nat.not_lt_zero _)

namespace CSP

/-- What the distribution keeps: the clauses of both sides are paired. -/
theorem length_distribute {cnf1 cnf2 : List (List Str)} (h1 : cnf1 ≠ []) (h2 : cnf2 ≠ [])
    {w1 w2 : ℕ} (hw1 : ∀ clause ∈ cnf1, clause.length ≤ w1)
    (hw2 : ∀ clause ∈ cnf2, clause.length ≤ w2) :
    (distribute cnf1 cnf2).length = cnf1.length * cnf2.length ∧
      ∀ clause ∈ distribute cnf1 cnf2, clause.length ≤ w1 + w2 := by
  rw [distribute_of_ne_nil h1 h2, List.forall_mem_map, List.length_map]
  constructor
  · simp [List.length_flatMap]
  · intro joined hjoined
    obtain ⟨clause1, hclause1, hjoined⟩ := List.mem_flatMap.mp hjoined
    obtain ⟨clause2, hclause2, rfl⟩ := List.mem_map.mp hjoined
    refine Nat.le_trans (length_eraseDups_le (clause1 ++ clause2)) ?_
    rw [List.length_append]
    exact Nat.add_le_add (hw1 clause1 hclause1) (hw2 clause2 hclause2)

theorem length_distributeLiterals {texts : List Constraint} (hne : texts ≠ [])
    {set : List (List Str)} (hok : distributeLiterals (texts.map Constraint.text) = .ok set) :
    set.length = (texts.map fun c => c.op.count).prod ∧
      ∀ clause ∈ set, clause.length ≤ (texts.map fun c => c.op.width).sum := by
  rw [distributeLiterals, List.foldlM_map] at hok
  have hinvariant := foldlM_induction (fun before set => before = [] ∧ set = [] ∨
      set ≠ [] ∧ set.length = (before.map fun c => c.op.count).prod ∧
        ∀ clause ∈ set, clause.length ≤ (before.map fun c => c.op.width).sum) hok
    (Or.inl ⟨rfl, rfl⟩) ?_
  · exact (hinvariant.resolve_left fun h => hne h.1).2
  · intro before c set next _ hbefore hnext
    obtain ⟨cnf, hcnf, hnext⟩ := bind_eq_ok.mp hnext
    obtain rfl := pure_eq_ok.mp hnext
    obtain rfl := Except.ok.inj (c.normalizeExpression_text.symm.trans hcnf)
    obtain ⟨hcount, hwidth⟩ := c.op.length_constraints (movedSides c.left.text c.right.text)
    have hcnf : c.op.constraints (movedSides c.left.text c.right.text) ≠ [] :=
      (disjunctive_constraints _ _).1
    right
    simp only [List.map_append, List.map_singleton, List.prod_append, List.prod_singleton,
      List.sum_append, List.sum_singleton]
    rcases hbefore with ⟨rfl, rfl⟩ | ⟨hset, hlength, hwidths⟩
    · have hempty : distribute [] (c.op.constraints (movedSides c.left.text c.right.text)) =
          c.op.constraints (movedSides c.left.text c.right.text) := rfl
      rw [hempty]
      exact ⟨hcnf, by simpa using hcount, fun clause hclause => by simp [hwidth clause hclause]⟩
    · obtain ⟨hproduct, hsum⟩ := length_distribute hset hcnf hwidths fun clause hclause =>
        (hwidth clause hclause).le
      rw [hlength, hcount] at hproduct
      refine ⟨?_, hproduct, hsum⟩
      rw [← List.length_pos_iff_ne_nil] at hset hcnf ⊢
      rw [hproduct, ← hlength, ← hcount]
      exact Nat.mul_pos hset hcnf

section Widths

variable {vars : List IntegerVariable}

theorem ClauseParses.forall₂_widths {clause : Clause} {clauses : List (List Inequation)}
    (h : ClauseParses vars clause clauses) {texts : List Constraint}
    (htexts : clause.literals = texts.map Constraint.text) :
    List.Forall₂ (fun clause width => clause.length ≤ width) clauses (Constraint.widths texts) := by
  obtain ⟨set, hset, hread⟩ := h
  have hne : texts ≠ [] := by
    rintro rfl
    exact clause.ne_nil htexts
  rw [htexts] at hset
  obtain ⟨hcount, hwidth⟩ := length_distributeLiterals hne hset
  have hlength := (mapM_eq_ok.mp hread).length_eq
  rw [Constraint.widths, ← hcount, hlength]
  refine forall₂_replicate fun row hrow => ?_
  obtain ⟨texts', htexts', hrow⟩ := forall₂_exists_left (mapM_eq_ok.mp hread) hrow
  rw [← (mapM_eq_ok.mp hrow).length_eq]
  exact hwidth texts' htexts'

theorem forall₂_widths {clauses : List Clause} {constraints : List (List (List Inequation))}
    (hparses : List.Forall₂ (ClauseParses vars) clauses constraints)
    {written : List (List Constraint)}
    (hwritten : List.Forall₂ (fun clause texts =>
      Clause.literals clause = texts.map Constraint.text) clauses written) :
    List.Forall₂ (fun clause width => clause.length ≤ width) constraints.flatten
      (written.flatMap Constraint.widths) := by
  induction hparses generalizing written with
  | nil =>
      cases hwritten
      exact .nil
  | cons hhead _ ih =>
      cases hwritten with
      | cons hclause hrest => exact List.rel_append (hhead.forall₂_widths hclause) (ih hrest)

/-- Ranks that are kept apart by what is written are so in the parsed problem. -/
theorem not_nameClash_of_widths {csp : CSP} {widths : List ℕ}
    (hwidths : List.Forall₂ (fun clause width => clause.length ≤ width) csp.constraints widths)
    (hclash : ¬ RanksClash widths) : ¬ csp.NameClash := by
  have hle : ∀ index, csp.width index ≤ widths.getD index 0 := fun index =>
    forall₂_getD hwidths (a := []) (b := 0) le_rfl index
  rintro ⟨i, j, i', j', hshifted, hj, hj'⟩
  exact hclash ⟨i, j, i', j', hshifted, hj.trans_le (hle i), hj'.trans_le (hle i')⟩

end Widths

end CSP

/-! ## Sides that come close -/

namespace Constraint

/-- The summands of the terms that are read. -/
def summands (c : Constraint) : List Summand :=
  c.left.summands ++ if looseEqZero c.right.text then [] else c.right.summands.map Summand.flip

/-- The names of the variables, each once. -/
def names (c : Constraint) : List Str :=
  ((c.summands.map Summand.name).filter fun name => name ≠ []).dedup

/-- There is a variable, and in the domains the left side less the right one takes a
value that is at most one above the bound, and one that is below it by less than the
number of variables. -/
def Reached (vars : List IntegerVariable) (c : Constraint) : Prop :=
  c.names ≠ [] ∧ ∀ bound ∈ c.op.bounds,
    (∃ σ, InDomains σ vars ∧ c.left.value σ - c.right.value σ ≤ bound + 1) ∧
    ∃ σ, InDomains σ vars ∧ bound < c.left.value σ - c.right.value σ + c.names.length

theorem summands_eq (c : Constraint) :
    literalSummands (ltrim c.left.text) c.right.text = c.summands :=
  literalSummands_text c.left c.right

theorem sum_summands {c : Constraint} (hzero : c.ZeroReadsZero) (σ : Assignment) :
    (c.summands.map (Summand.value σ)).sum = c.left.value σ - c.right.value σ := by
  rw [← c.summands_eq, sum_literalSummands]
  split
  next h => rw [hzero h]
  next => rfl

theorem nodup_names (c : Constraint) : c.names.Nodup := List.nodup_dedup _

theorem mem_names {c : Constraint} {name : Str} :
    name ∈ c.names ↔ name ≠ [] ∧ ∃ x ∈ c.summands, x.name = name := by
  rw [names, List.mem_dedup, List.mem_filter, List.mem_map, decide_eq_true_eq, and_comm]

end Constraint

namespace Inequation

variable {vars : List IntegerVariable} {c : Constraint} {e : Inequation} {form : ℤ × Bool}

/-- There is one term for each name. -/
theorem ReadAs.length_terms (h : ReadAs vars c.summands e form) :
    e.terms.length = c.names.length := by
  have hperm : (e.terms.map fun t => t.var.name).Perm c.names := by
    refine (List.perm_ext_iff_of_nodup h.reading.names_nodup c.nodup_names).mpr ?_
    intro name
    rw [Constraint.mem_names, ← h.reading.names name, List.mem_map]
  rw [← hperm.length_eq, List.length_map]

/-- The value of a sum of terms is between the sums of their bounds. -/
theorem sum_bounds {σ : Assignment} (hdomains : InDomains σ vars)
    (hvars : ∀ t ∈ e.terms, t.var ∈ vars) :
    (e.terms.map LinearTerm.getLowerBound).sum ≤ (e.terms.map (LinearTerm.value σ)).sum ∧
      (e.terms.map (LinearTerm.value σ)).sum ≤ (e.terms.map LinearTerm.getUpperBound).sum := by
  have hvalue : ∀ t ∈ e.terms, t.getLowerBound ≤ t.value σ ∧ t.value σ ≤ t.getUpperBound := by
    intro t ht
    have hx := hdomains t.var (hvars t ht)
    exact LinearTerm.value_mem_bounds hx.1 hx.2
  exact ⟨List.sum_le_sum fun t ht => (hvalue t ht).1, List.sum_le_sum fun t ht => (hvalue t ht).2⟩

theorem ReadAs.reachable (h : ReadAs vars c.summands e form) (hform : form ∈ c.op.forms.flatten)
    (hzero : c.ZeroReadsZero) (hreached : c.Reached vars) : e.Reachable := by
  obtain ⟨hnames, hbounds⟩ := hreached
  obtain ⟨⟨σ, hσ, hlow⟩, τ, hτ, hhigh⟩ := hbounds form.1 (List.mem_map_of_mem hform)
  have hvars : ∀ t ∈ e.terms, t.var ∈ vars := fun t ht =>
    (IntegerVariable.varExistsInArray_eq_some (h.reading.known t ht)).1
  have hlength := h.length_terms
  -- the terms and the constant differ as the sides and the bound do
  have hsum := fun σ => h.reading.sum_eq σ
  simp only [Constraint.sum_summands hzero] at hsum
  refine ⟨?_, ?_, ?_⟩
  · rw [← List.length_pos_iff_ne_nil, hlength]
    exact List.length_pos_iff_ne_nil.mpr hnames
  · have hleast := (sum_bounds hσ hvars).1
    have := hsum σ
    rw [target]
    omega
  · have hgreatest := (sum_bounds hτ hvars).2
    have := hsum τ
    rw [target]
    omega

end Inequation

namespace CSP

/-- Every parsed inequation is that of a written constraint. -/
theorem ClauseParses.exists_readAs {vars : List IntegerVariable} (hvars : Declared vars)
    {clause : Clause} {clauses : List (List Inequation)} (h : ClauseParses vars clause clauses)
    {texts : List Constraint} (htexts : clause.literals = texts.map Constraint.text)
    {row : List Inequation} (hrow : row ∈ clauses) {e : Inequation} (he : e ∈ row) :
    ∃ c ∈ texts, ∃ form ∈ c.op.forms.flatten, Inequation.ReadAs vars c.summands e form := by
  obtain ⟨set, hset, hread⟩ := h
  obtain ⟨texts', htexts', hread⟩ := forall₂_exists_left (mapM_eq_ok.mp hread) hrow
  obtain ⟨text, htext, hparse⟩ := forall₂_exists_left (mapM_eq_ok.mp hread) he
  obtain ⟨literal, hliteral, hmade⟩ := (mem_flatten_distributeLiterals hset).mp
    (List.mem_flatten.mpr ⟨texts', htexts', htext⟩)
  rw [htexts] at hliteral
  obtain ⟨c, hc, rfl⟩ := List.mem_map.mp hliteral
  obtain ⟨form, hform, hread⟩ := hmade.readAs hvars (splitsAt_constraintText _ _ _)
    c.newline_notMem_text hparse
  exact ⟨c, hc, form, hform, c.summands_eq ▸ hread⟩

/-- The problem is regular when the ranks are kept apart and the sides come close. -/
theorem regular_of_written {vars : List IntegerVariable} (hvars : Declared vars)
    {clauses : List Clause} {constraints : List (List (List Inequation))}
    (hparses : List.Forall₂ (ClauseParses vars) clauses constraints)
    {written : List (List Constraint)}
    (hwritten : List.Forall₂ (fun clause texts =>
      Clause.literals clause = texts.map Constraint.text) clauses written)
    (hzero : ∀ texts ∈ written, ∀ c ∈ texts, c.ZeroReadsZero)
    (hranks : ¬ RanksClash (written.flatMap Constraint.widths))
    (hreached : ∀ texts ∈ written, ∀ c ∈ texts, c.Reached vars) :
    Regular ⟨vars, constraints.flatten⟩ := by
  refine regular_of_not_nameClash
    (not_nameClash_of_widths (forall₂_widths hparses hwritten) hranks) fun row hrow e he => ?_
  obtain ⟨rows, hrows, hrow⟩ := List.mem_flatten.mp hrow
  obtain ⟨clause, hclause, hparse⟩ := forall₂_exists_left hparses hrows
  obtain ⟨texts, htexts, heq⟩ := forall₂_exists_right hwritten hclause
  obtain ⟨c, hc, form, hform, hread⟩ := hparse.exists_readAs hvars heq hrow he
  exact hread.reachable hform (hzero texts htexts c hc) (hreached texts htexts c hc)

end CSP

end Sato
