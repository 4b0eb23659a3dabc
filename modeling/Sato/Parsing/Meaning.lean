import Sato.Parsing.Expression
import Sato.Parsing.Interleaving

/-! # Meaning of clauses

A clause of written constraints asks for one of them. The clauses it is parsed to
ask for the same, unless a right side that is not zero is taken for the text `"0"`.
-/

namespace Sato

open Foundation

/-- A written constraint. -/
structure Constraint where
  left : LinearExpression
  op : Op
  right : LinearExpression

namespace Constraint

def text (c : Constraint) : Str := constraintText c.left c.op c.right

/-- The assignment meets the constraint. -/
def Meets (σ : Assignment) (c : Constraint) : Prop :=
  c.op.Compare (c.left.value σ) (c.right.value σ)

instance (σ : Assignment) (c : Constraint) : Decidable (c.Meets σ) :=
  inferInstanceAs (Decidable (c.op.Compare _ _))

/-- The right side is zero if it is taken for the text `"0"`. -/
def ZeroReadsZero (c : Constraint) : Prop :=
  looseEqZero c.right.text = true → ∀ σ, c.right.value σ = 0

theorem newline_notMem_text (c : Constraint) : '\n' ∉ c.text := by
  simp only [text, constraintText, List.mem_append, not_or]
  refine ⟨c.left.not_mem_text (by decide) (by decide) rfl, ?_,
    c.right.not_mem_text (by decide) (by decide) rfl⟩
  cases c.op <;> decide

theorem normalizeExpression_text (c : Constraint) :
    CSP.normalizeExpression c.text =
      .ok (c.op.constraints (movedSides c.left.text c.right.text)) :=
  CSP.normalizeExpression_eq_ok.mpr ⟨_, c.op, _, splitsAt_constraintText _ _ _, rfl⟩

/-- What is read from the texts of a constraint means the constraint. -/
theorem cnfTrue_iff_meets {vars : List IntegerVariable} (hvars : Declared vars) {c : Constraint}
    (hzero : c.ZeroReadsZero) {clauses : List (List Inequation)}
    (hok : (c.op.constraints (movedSides c.left.text c.right.text)).mapM
      (fun clause => clause.mapM fun text => Inequation.parseExpression text vars) = .ok clauses)
    (σ : Assignment) : CnfTrue (Inequation.Holds σ) clauses ↔ c.Meets σ := by
  rw [Inequation.cnfTrue_iff_compare hvars (splitsAt_constraintText _ _ _) c.newline_notMem_text
    hok, sum_literalSummands, Meets]
  split
  next h => rw [hzero h, sub_zero]
  next => rw [Op.compare_sub]

end Constraint

namespace CSP

/-- The inequation read from a text holds. -/
def TextHolds (vars : List IntegerVariable) (σ : Assignment) (text : Str) : Prop :=
  ∃ e, Inequation.parseExpression text vars = .ok e ∧ e.Holds σ

/-- The truth of clauses is that of the texts they are read from. -/
theorem cnfTrue_textHolds {vars : List IntegerVariable} {set : List (List Str)}
    {clauses : List (List Inequation)}
    (hok : set.mapM (fun texts => texts.mapM fun text => Inequation.parseExpression text vars) =
      .ok clauses) (σ : Assignment) :
    CnfTrue (Inequation.Holds σ) clauses ↔ CnfTrue (TextHolds vars σ) set := by
  symm
  refine cnfTrue_forall₂ ((mapM_eq_ok.mp hok).imp fun texts clause hclause => ?_)
  refine (mapM_eq_ok.mp hclause).imp fun text e he => ?_
  constructor
  · rintro ⟨other, hother, hholds⟩
    rwa [Except.ok.inj (he.symm.trans hother)]
  · exact fun hholds => ⟨e, he, hholds⟩

/-- The clauses of a clause of constraints ask for one of the constraints. -/
theorem ClauseParses.cnfTrue_iff {vars : List IntegerVariable} (hvars : Declared vars)
    {clause : Clause} {clauses : List (List Inequation)} (h : ClauseParses vars clause clauses)
    {written : List Constraint} (hwritten : clause.literals = written.map Constraint.text)
    (hzero : ∀ c ∈ written, c.ZeroReadsZero) (σ : Assignment) :
    CnfTrue (Inequation.Holds σ) clauses ↔ ∃ c ∈ written, c.Meets σ := by
  obtain ⟨set, hset, hreads⟩ := h
  rw [cnfTrue_textHolds hreads]
  rcases distributionOf_distributeLiterals hset with ⟨hnil, -⟩ | ⟨-, hmeaning⟩
  · exact absurd hnil clause.ne_nil
  -- every text of the set is read, so every text of a literal is
  have hread : ∀ c ∈ written, ∃ other,
      (c.op.constraints (movedSides c.left.text c.right.text)).mapM (fun texts =>
        texts.mapM fun text => Inequation.parseExpression text vars) = .ok other := by
    intro c hc
    refine exists_mapM_eq_ok fun texts htexts => exists_mapM_eq_ok fun text htext => ?_
    have hmem : text ∈ set.flatten := by
      refine (mem_flatten_distributeLiterals hset).mpr ⟨c.text, ?_, _,
        c.normalizeExpression_text, List.mem_flatten.mpr ⟨texts, htexts, htext⟩⟩
      rw [hwritten]
      exact List.mem_map_of_mem hc
    obtain ⟨row, hrow, htext⟩ := List.mem_flatten.mp hmem
    obtain ⟨_, -, hrow⟩ := forall₂_exists_right (mapM_eq_ok.mp hreads) hrow
    obtain ⟨e, -, he⟩ := forall₂_exists_right (mapM_eq_ok.mp hrow) htext
    exact ⟨e, he⟩
  rw [hmeaning, hwritten, exists_mem_map]
  refine exists_congr fun c => and_congr_right fun hc => ?_
  obtain ⟨other, hother⟩ := hread c hc
  rw [c.normalizeExpression_text, ← Constraint.cnfTrue_iff_meets hvars (hzero c hc) hother,
    cnfTrue_textHolds hother]
  simp

/-- The parsed constraints ask for one constraint of every clause. -/
theorem cnfTrue_flatten_iff {vars : List IntegerVariable} (hvars : Declared vars)
    {clauses : List Clause} {constraints : List (List (List Inequation))}
    (hparses : List.Forall₂ (ClauseParses vars) clauses constraints)
    {written : List (List Constraint)}
    (hwritten : List.Forall₂ (fun clause texts =>
      Clause.literals clause = texts.map Constraint.text) clauses written)
    (hzero : ∀ texts ∈ written, ∀ c ∈ texts, c.ZeroReadsZero) (σ : Assignment) :
    CnfTrue (Inequation.Holds σ) constraints.flatten ↔ CnfTrue (Constraint.Meets σ) written := by
  rw [cnfTrue_flatten]
  induction hparses generalizing written with
  | nil =>
      cases hwritten
      simp
  | @cons clause alone clauses constraints hhead _ ih =>
      cases hwritten with
      | @cons _ texts _ written hclause hrest =>
          rw [List.forall_mem_cons] at hzero
          rw [List.forall_mem_cons, cnfTrue_cons, ih hrest hzero.2,
            hhead.cnfTrue_iff hvars hclause hzero.1]

end CSP

end Sato
