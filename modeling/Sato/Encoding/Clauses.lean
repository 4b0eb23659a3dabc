import Sato.Encoding.Proposition

/-! # Clauses of constraints

Each literal of a clause gets an auxiliary atom named after the rank of the
clause and the rank of the literal. The loops of `computeGlobalCNF` have a
closed form, and its truth is that of named implications.
-/

namespace Sato

open Foundation

namespace Inequation

/-- The formula `computeCNF` returns, empty when it throws. -/
def formula (e : Inequation) : List (List PrimitiveComparison) := e.computeCNF.toOption.getD []

/-- `computeCNF` returns. -/
def Encodable (e : Inequation) : Prop := ∃ cnf, e.computeCNF = .ok cnf

theorem Encodable.computeCNF_eq {e : Inequation} (h : e.Encodable) :
    e.computeCNF = .ok e.formula := by
  obtain ⟨cnf, hcnf⟩ := h
  rw [formula, hcnf]
  rfl

theorem formula_of_eq_ok {e : Inequation} {cnf : List (List PrimitiveComparison)}
    (h : e.computeCNF = .ok cnf) : e.formula = cnf := by
  rw [formula, h]
  rfl

/-- The truth of the formula over the atoms. -/
def FormulaTrue (v : Valuation) (e : Inequation) : Prop :=
  CnfTrue (fun p : PrimitiveComparison => LiteralTrue v p.predicateEquivalent) e.formula

end Inequation

namespace CSP

/-! ## Closed form of the loops -/

/-- The clauses of a constraint: its names, then the definition of each. -/
def clauseFormula (c : List Inequation) (index : ℕ) : List (List Str) :=
  c.zipIdx.map (fun literal => qName index literal.2) ::
    c.zipIdx.flatMap fun literal => definition (qName index literal.2) literal.1.formula

/-- The step of the loop over a clause when nothing is thrown. -/
def nextState (index : ℕ) (state : ClauseState) (literal : Inequation × ℕ) : ClauseState where
  names := state.names ++ [qName index literal.2]
  definitions := state.definitions ++ definition (qName index literal.2) literal.1.formula
  boolVars := state.boolVars ++ [qName index literal.2]

theorem clauseStep_eq_ok (index : ℕ) (state : ClauseState) (literal : Inequation × ℕ)
    (next : ClauseState) :
    clauseStep index state literal = .ok next ↔
      literal.1.Encodable ∧ next = nextState index state literal := by
  rw [clauseStep, bind_eq_ok]
  constructor
  · rintro ⟨cnf, hcnf, hpure⟩
    rw [pure_eq_ok] at hpure
    exact ⟨⟨cnf, hcnf⟩, by rw [← hpure, nextState, Inequation.formula_of_eq_ok hcnf]⟩
  · rintro ⟨hok, rfl⟩
    exact ⟨_, hok.computeCNF_eq, rfl⟩

theorem foldl_nextState (index : ℕ) (literals : List (Inequation × ℕ)) (state : ClauseState) :
    literals.foldl (nextState index) state =
      ⟨state.names ++ literals.map (fun literal => qName index literal.2),
        state.definitions ++ literals.flatMap
          (fun literal => definition (qName index literal.2) literal.1.formula),
        state.boolVars ++ literals.map (fun literal => qName index literal.2)⟩ := by
  induction literals generalizing state with
  | nil => simp
  | cons literal literals ih => simp [ih, nextState]

theorem computeClauseCNF_eq_ok {c : List Inequation} {index : ℕ} {boolVars : List Str}
    {result : List (List Str) × List Str} :
    computeClauseCNF c index boolVars = .ok result ↔ (∀ e ∈ c, e.Encodable) ∧
      result = (clauseFormula c index,
        boolVars ++ c.zipIdx.map fun literal => qName index literal.2) := by
  rw [computeClauseCNF, bind_eq_ok, ← forall_mem_zipIdx (n := 0)]
  simp only [foldlM_eq_ok (clauseStep_eq_ok index), foldl_nextState, pure_eq_ok]
  constructor
  · rintro ⟨state, ⟨hok, rfl⟩, rfl⟩
    exact ⟨hok, rfl⟩
  · rintro ⟨hok, rfl⟩
    exact ⟨_, ⟨hok, rfl⟩, rfl⟩

/-- The names of all literals, in the order they are registered. -/
def auxiliaryNames (csp : CSP) : List Str :=
  csp.constraints.zipIdx.flatMap fun clause =>
    clause.1.zipIdx.map fun literal => qName clause.2 literal.2

def globalFormula (csp : CSP) : List (List Str) :=
  csp.constraints.zipIdx.flatMap fun clause => clauseFormula clause.1 clause.2

theorem computeGlobalCNF_eq_ok {csp : CSP} {boolVars : List Str}
    {result : List (List Str) × List Str} :
    csp.computeGlobalCNF boolVars = .ok result ↔
      (∀ clause ∈ csp.constraints, ∀ e ∈ clause, e.Encodable) ∧
        result = (csp.globalFormula, boolVars ++ csp.auxiliaryNames) := by
  have hstep : ∀ (acc : List (List Str) × List Str) (clause : List Inequation × ℕ)
      (next : List (List Str) × List Str),
      globalStep acc clause = .ok next ↔ (∀ e ∈ clause.1, e.Encodable) ∧
        next = (acc.1 ++ clauseFormula clause.1 clause.2,
          acc.2 ++ clause.1.zipIdx.map fun literal => qName clause.2 literal.2) := by
    intro acc clause next
    rw [globalStep, bind_eq_ok]
    simp only [computeClauseCNF_eq_ok, pure_eq_ok]
    constructor
    · rintro ⟨result, ⟨hok, rfl⟩, rfl⟩
      exact ⟨hok, rfl⟩
    · rintro ⟨hok, rfl⟩
      exact ⟨_, ⟨hok, rfl⟩, rfl⟩
  rw [computeGlobalCNF, foldlM_eq_ok hstep,
    foldl_collect _ (fun clause : List Inequation × ℕ => clauseFormula clause.1 clause.2)
      (fun names clause => names ++ clause.1.zipIdx.map fun literal => qName clause.2 literal.2)
      (fun _ _ => rfl),
    List.foldl_append_eq_append, ← List.flatMap_def,
    forall_mem_zipIdx (P := fun clause : List Inequation => ∀ e ∈ clause, e.Encodable)]
  rfl

/-! ## Positions -/

/-- A literal with the rank of its clause and its rank in the clause. -/
structure Position where
  index : ℕ
  rank : ℕ
  literal : Inequation

def Position.name (p : Position) : Str := qName p.index p.rank

/-- The literals of the constraints at their positions. -/
def positions (csp : CSP) : List (List Position) :=
  csp.constraints.zipIdx.map fun clause =>
    clause.1.zipIdx.map fun literal => ⟨clause.2, literal.2, literal.1⟩

/-- The number of literals of the clause at a rank, zero where there is none. -/
def width (csp : CSP) (index : ℕ) : ℕ := (csp.constraints.getD index []).length

theorem exists_position_iff {csp : CSP} {index rank : ℕ} :
    (∃ clause ∈ csp.positions, ∃ p ∈ clause, p.index = index ∧ p.rank = rank) ↔
      rank < csp.width index := by
  unfold positions width
  rw [exists_mem_map, List.getD_eq_getElem?_getD]
  simp only [exists_mem_map]
  constructor
  · rintro ⟨⟨c, i⟩, hc, ⟨e, j⟩, he, rfl, rfl⟩
    rw [List.mk_mem_zipIdx_iff_getElem?] at hc he
    rw [hc]
    exact (List.getElem?_eq_some_iff.mp he).1
  · intro hlt
    cases hc : csp.constraints[index]? with
    | none => simp [hc] at hlt
    | some clause =>
        rw [hc] at hlt
        refine ⟨(clause, index), List.mk_mem_zipIdx_iff_getElem?.mpr hc,
          (clause[rank], rank), List.mk_mem_zipIdx_iff_getElem?.mpr ?_, rfl, rfl⟩
        exact List.getElem?_eq_getElem hlt

/-- A property of some literal of every clause, with or without positions. -/
theorem forall_clause_iff {csp : CSP} {P : Inequation → Prop} :
    (∀ clause ∈ csp.positions, ∃ p ∈ clause, P p.literal) ↔
      ∀ clause ∈ csp.constraints, ∃ e ∈ clause, P e := by
  rw [positions, List.forall_mem_map,
    ← forall_mem_zipIdx (n := 0) (P := fun clause : List Inequation => ∃ e ∈ clause, P e)]
  refine forall₂_congr fun clause _ => ?_
  rw [exists_mem_map, ← exists_mem_zipIdx (n := 0) (l := clause.1)]

theorem cnfTrue_definition {v : Valuation} {q : Str} {cnf : List (List PrimitiveComparison)} :
    CnfTrue (LiteralTrue v) (definition q cnf) ↔
      (v q → CnfTrue (fun p : PrimitiveComparison => LiteralTrue v p.predicateEquivalent) cnf) := by
  simp only [CnfTrue, definition, List.forall_mem_map, List.exists_mem_cons_iff]
  simp only [exists_mem_map]
  constructor
  · intro h hq clause hclause
    exact (h clause hclause).resolve_left (not_not.mpr hq)
  · intro h clause hclause
    by_cases hq : v q
    · exact Or.inr (h hq clause hclause)
    · exact Or.inl hq

/-- The clauses of the constraints say that every clause has a true name and
that a true name implies the formula of its literal. -/
theorem cnfTrue_globalFormula {csp : CSP} {v : Valuation} :
    CnfTrue (LiteralTrue v) csp.globalFormula ↔
      (∀ clause ∈ csp.positions, ∃ p ∈ clause, v p.name) ∧
        ∀ clause ∈ csp.positions, ∀ p ∈ clause, v p.name → p.literal.FormulaTrue v := by
  rw [globalFormula, List.flatMap, cnfTrue_flatten, List.forall_mem_map, positions,
    List.forall_mem_map, List.forall_mem_map, ← forall₂_and]
  refine forall₂_congr fun clause _ => ?_
  rw [clauseFormula, cnfTrue_cons, exists_mem_map, exists_mem_map,
    List.forall_mem_map]
  refine and_congr Iff.rfl ?_
  rw [List.flatMap, cnfTrue_flatten, List.forall_mem_map]
  exact forall₂_congr fun literal _ => cnfTrue_definition

/-! ## Auxiliary atoms -/

/-- Two valuations agree on the atoms of comparisons. -/
def AgreeOnComparisons (v w : Valuation) : Prop := ∀ a, v ('p' :: a) ↔ w ('p' :: a)

/-- The atoms of comparisons as in one valuation, all others as in another. -/
def withAuxiliary (v q : Valuation) : Valuation
  | 'p' :: rest => v ('p' :: rest)
  | other => q other

theorem AgreeOnComparisons.formulaTrue {v w : Valuation} (h : AgreeOnComparisons v w)
    (e : Inequation) : e.FormulaTrue v ↔ e.FormulaTrue w := by
  refine cnfTrue_congr fun clause _ p _ => ?_
  rw [PrimitiveComparison.literalTrue_predicateEquivalent,
    PrimitiveComparison.literalTrue_predicateEquivalent, IntegerVariable.atom, h]

/-- The auxiliary atoms can be chosen exactly when every clause has a literal
such that all literals of its name have true formulas. -/
theorem exists_auxiliary_iff {csp : CSP} {v : Valuation} :
    (∃ w, AgreeOnComparisons w v ∧ CnfTrue (LiteralTrue w) csp.globalFormula) ↔
      ∀ clause ∈ csp.positions, ∃ p ∈ clause, ∀ other ∈ csp.positions, ∀ q ∈ other,
        q.name = p.name → q.literal.FormulaTrue v := by
  rw [← exists_names_iff]
  constructor
  · rintro ⟨w, hagree, htrue⟩
    obtain ⟨hnames, himp⟩ := cnfTrue_globalFormula.mp htrue
    refine ⟨w, hnames, fun clause hclause p hp hq => ?_⟩
    exact (hagree.formulaTrue _).mp (himp clause hclause p hp hq)
  · rintro ⟨q, hnames, himp⟩
    have hagree : AgreeOnComparisons (withAuxiliary v q) v := fun a => Iff.rfl
    refine ⟨withAuxiliary v q, hagree, cnfTrue_globalFormula.mpr ⟨hnames, ?_⟩⟩
    intro clause hclause p hp hq
    exact (hagree.formulaTrue _).mpr (himp clause hclause p hp hq)

theorem qName_eq_iff {i j i' j' : ℕ} :
    qName i j = qName i' j' ↔ (i = i' ∧ j = j') ∨ Shifted i j i' j' ∨ Shifted i' j' i j := by
  rw [qName, qName, List.cons_inj_right, natText_append_eq_iff]

/-- Two literals share a name: the digits of their ranks are the same in a row. -/
def NameClash (csp : CSP) : Prop :=
  ∃ i j i' j', Shifted i j i' j' ∧ j < csp.width i ∧ j' < csp.width i'

theorem name_inj_of_not_nameClash {csp : CSP} (hclash : ¬ csp.NameClash)
    {clause other : List Position} (hclause : clause ∈ csp.positions)
    (hother : other ∈ csp.positions) {p q : Position} (hp : p ∈ clause) (hq : q ∈ other)
    (heq : p.name = q.name) : p.index = q.index ∧ p.rank = q.rank := by
  have hpwidth : p.rank < csp.width p.index :=
    exists_position_iff.mp ⟨clause, hclause, p, hp, rfl, rfl⟩
  have hqwidth : q.rank < csp.width q.index :=
    exists_position_iff.mp ⟨other, hother, q, hq, rfl, rfl⟩
  rcases qName_eq_iff.mp heq with hsame | hshift | hshift
  · exact hsame
  · exact absurd ⟨_, _, _, _, hshift, hpwidth, hqwidth⟩ hclash
  · exact absurd ⟨_, _, _, _, hshift, hqwidth, hpwidth⟩ hclash

/-- Positions of the same ranks hold the same literal. -/
theorem literal_eq_of_ranks_eq {csp : CSP} {clause other : List Position}
    (hclause : clause ∈ csp.positions) (hother : other ∈ csp.positions) {p q : Position}
    (hp : p ∈ clause) (hq : q ∈ other) (hindex : p.index = q.index) (hrank : p.rank = q.rank) :
    p.literal = q.literal := by
  obtain ⟨⟨c, i⟩, hc, rfl⟩ := List.mem_map.mp hclause
  obtain ⟨⟨d, i'⟩, hd, rfl⟩ := List.mem_map.mp hother
  obtain ⟨⟨e, j⟩, he, rfl⟩ := List.mem_map.mp hp
  obtain ⟨⟨f, j'⟩, hf, rfl⟩ := List.mem_map.mp hq
  rw [List.mk_mem_zipIdx_iff_getElem?] at hc hd he hf
  simp only at hindex hrank he hf ⊢
  subst hindex hrank
  obtain rfl : c = d := Option.some.inj (hc.symm.trans hd)
  exact Option.some.inj (he.symm.trans hf)

/-- The auxiliary atoms leave the meaning of the clauses as it is, and no two
literals share one, exactly when the ranks of no two literals have the same
digits in a row. -/
theorem computeGlobalCNF_faithful_iff {csp : CSP} {boolVars : List Str}
    {result : List (List Str) × List Str} (h : csp.computeGlobalCNF boolVars = .ok result) :
    ((∀ v : Valuation,
        (∃ w : Valuation, (∀ a, w ('p' :: a) ↔ v ('p' :: a)) ∧
          CnfTrue (LiteralTrue w) result.1) ↔
        ∀ clause ∈ csp.constraints, ∃ e ∈ clause, ∃ cnf, e.computeCNF = .ok cnf ∧
          CnfTrue (fun p : PrimitiveComparison => LiteralTrue v p.predicateEquivalent) cnf) ∧
      ∀ clause ∈ csp.positions, ∀ p ∈ clause, ∀ other ∈ csp.positions, ∀ q ∈ other,
        p.name = q.name → p.index = q.index ∧ p.rank = q.rank) ↔
      ¬ csp.NameClash := by
  obtain ⟨hok, rfl⟩ := computeGlobalCNF_eq_ok.mp h
  constructor
  · rintro ⟨-, hinj⟩ ⟨i, j, i', j', hshift, hj, hj'⟩
    obtain ⟨clause, hclause, p, hp, rfl, rfl⟩ := exists_position_iff.mpr hj
    obtain ⟨other, hother, q, hq, rfl, rfl⟩ := exists_position_iff.mpr hj'
    have hname : p.name = q.name := qName_eq_iff.mpr (Or.inr (Or.inl hshift))
    have hlt := hshift.ne
    have heq := (hinj clause hclause p hp other hother q hq hname).1
    omega
  · intro hclash
    refine ⟨fun v => ?_, fun clause hclause p hp other hother q hq heq =>
      name_inj_of_not_nameClash hclash hclause hother hp hq heq⟩
    have hformula : (∀ clause ∈ csp.constraints, ∃ e ∈ clause, ∃ cnf, e.computeCNF = .ok cnf ∧
        CnfTrue (fun p : PrimitiveComparison => LiteralTrue v p.predicateEquivalent) cnf) ↔
          ∀ clause ∈ csp.constraints, ∃ e ∈ clause, e.FormulaTrue v := by
      refine forall₂_congr fun clause hclause => exists_congr fun e => and_congr_right fun he => ?_
      constructor
      · rintro ⟨cnf, hcnf, htrue⟩
        rwa [Inequation.FormulaTrue, Inequation.formula_of_eq_ok hcnf]
      · exact fun htrue => ⟨_, (hok clause hclause e he).computeCNF_eq, htrue⟩
    rw [hformula, ← forall_clause_iff]
    refine exists_auxiliary_iff.trans (forall₂_congr fun clause hclause => ?_)
    refine exists_congr fun p => and_congr_right fun hp => ?_
    constructor
    · exact fun hall => hall clause hclause p hp rfl
    · intro htrue other hother q hq heq
      obtain ⟨hindex, hrank⟩ := name_inj_of_not_nameClash hclash hother hclause hq hp heq
      rwa [literal_eq_of_ranks_eq hother hclause hq hp hindex hrank]

/-- Two clauses of two literals each, one of them negative and one with two terms. -/
theorem computeGlobalCNF_faithful_pairs :
    let x : IntegerVariable := ⟨"x".toList, ⟨0, 1, by decide⟩⟩
    let y : IntegerVariable := ⟨"y".toList, ⟨0, 1, by decide⟩⟩
    let below : Inequation := ⟨⟨0, true⟩, [⟨x, 1⟩], [x, y]⟩
    let ordered : Inequation := ⟨⟨0, true⟩, [⟨x, 1⟩, ⟨y, -1⟩], [x, y]⟩
    let above : Inequation := ⟨⟨0, false⟩, [⟨y, 1⟩], [x, y]⟩
    let csp : CSP := ⟨[x, y], [[below, ordered], [above, below]]⟩
    let clauses : List (List Str) :=
      [["q00".toList, "q01".toList], ["-q00".toList, "px_0".toList],
        ["-q01".toList, "px_1".toList, "-py_1".toList],
        ["-q01".toList, "px_0".toList, "-py_0".toList],
        ["-q01".toList, "px_-1".toList, "-py_-1".toList],
        ["q10".toList, "q11".toList], ["-q10".toList, "-py_0".toList],
        ["-q11".toList, "px_0".toList]]
    ((∀ v : Valuation,
        (∃ w : Valuation, (∀ a, w ('p' :: a) ↔ v ('p' :: a)) ∧
          CnfTrue (LiteralTrue w) clauses) ↔
        ∀ clause ∈ csp.constraints, ∃ e ∈ clause, ∃ cnf, e.computeCNF = .ok cnf ∧
          CnfTrue (fun p : PrimitiveComparison => LiteralTrue v p.predicateEquivalent) cnf) ∧
      ∀ clause ∈ csp.positions, ∀ p ∈ clause, ∀ other ∈ csp.positions, ∀ q ∈ other,
        p.name = q.name → p.index = q.index ∧ p.rank = q.rank) ↔
      ¬ csp.NameClash := by
  intro x y below ordered above csp clauses
  have hrun : csp.computeGlobalCNF [] =
      .ok (clauses, ["q00".toList, "q01".toList, "q10".toList, "q11".toList]) := by
    decide +kernel
  exact computeGlobalCNF_faithful_iff hrun

/-- Twelve clauses over `x` and `y` in `0, .., 1`. The eleventh literal of the
clause at rank 1 and the first literal of the clause at rank 11 are both named
`q110`. -/
def clashing : CSP :=
  let x : IntegerVariable := ⟨"x".toList, ⟨0, 1, by decide⟩⟩
  let y : IntegerVariable := ⟨"y".toList, ⟨0, 1, by decide⟩⟩
  let first : Inequation := ⟨⟨0, true⟩, [⟨x, 1⟩], [x, y]⟩
  let second : Inequation := ⟨⟨0, true⟩, [⟨y, 1⟩], [x, y]⟩
  ⟨[x, y], [[first], List.replicate 10 second ++ [first]] ++ List.replicate 9 [first] ++
    [[second, first]]⟩

/-- Where only `x <= 0` holds, every clause has a true formula and yet no choice
of the auxiliary atoms satisfies the clauses. -/
theorem clashing_unfaithful :
    let v : Valuation := fun a => a = "px_0".toList
    ∃ result, clashing.computeGlobalCNF [] = .ok result ∧
      (∀ clause ∈ clashing.constraints, ∃ e ∈ clause, ∃ cnf, e.computeCNF = .ok cnf ∧
        CnfTrue (fun p : PrimitiveComparison => LiteralTrue v p.predicateEquivalent) cnf) ∧
      ¬ ∃ w : Valuation, (∀ a, w ('p' :: a) ↔ v ('p' :: a)) ∧
        CnfTrue (LiteralTrue w) result.1 := by
  intro v
  have hok : ∀ clause ∈ clashing.constraints, ∀ e ∈ clause, e.Encodable := by
    have hcoeff : ∀ clause ∈ clashing.constraints, ∀ e ∈ clause, ∀ t ∈ e.terms,
        t.coeff ≠ 0 := by decide
    exact fun clause hclause e he => Inequation.exists_computeCNF (hcoeff clause hclause e he)
  refine ⟨_, computeGlobalCNF_eq_ok.mpr ⟨hok, rfl⟩, fun clause hclause => ?_, ?_⟩
  · have htrue : ∀ clause ∈ clashing.constraints, ∃ e ∈ clause, CnfTrue
        (fun p : PrimitiveComparison => LiteralTrue v p.predicateEquivalent) e.formula := by
      decide +kernel
    obtain ⟨e, he, hformula⟩ := htrue clause hclause
    exact ⟨e, he, e.formula, (hok clause hclause e he).computeCNF_eq, hformula⟩
  · intro hexists
    have hshared := exists_auxiliary_iff.mp hexists
    unfold Inequation.FormulaTrue at hshared
    revert hshared
    decide +kernel

end CSP

end Sato
