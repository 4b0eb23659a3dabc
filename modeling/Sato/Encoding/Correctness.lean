import Sato.Encoding.Clauses
import Sato.Encoding.Order

/-! # Correctness of the encoding

The clauses of an encoded problem say that the atoms are threshold predicates
and that the auxiliary atoms imply their formulas. Every model gives a solution;
a solution has a model when the literals that make it one are expressible.
-/

namespace Sato

open Foundation

/-- An assignment can be chosen variable by variable when names are distinct. -/
theorem exists_assignment {vars : List IntegerVariable} {P : IntegerVariable → ℤ → Prop}
    (hnodup : (vars.map IntegerVariable.name).Nodup) (hex : ∀ x ∈ vars, ∃ z, P x z) :
    ∃ σ : Assignment, ∀ x ∈ vars, P x (σ x.name) := by
  induction vars with
  | nil => exact ⟨fun _ => 0, by simp⟩
  | cons x vars ih =>
      rw [List.map_cons, List.nodup_cons] at hnodup
      obtain ⟨σ, hσ⟩ := ih hnodup.2 fun y hy => hex y (List.mem_cons_of_mem x hy)
      obtain ⟨z, hz⟩ := hex x List.mem_cons_self
      refine ⟨Function.update σ x.name z, fun y hy => ?_⟩
      rcases List.mem_cons.mp hy with rfl | hy
      · simpa using hz
      · have hne : y.name ≠ x.name := fun heq =>
          hnodup.1 (heq ▸ List.mem_map_of_mem hy)
        simpa [hne] using hσ y hy

/-- The atoms of the variables say which constants bound their values. -/
def Represents (v : Valuation) (σ : Assignment) (vars : List IntegerVariable) : Prop :=
  ∀ x ∈ vars, Bounds (fun c => v (x.atom c)) x.domain.l x.domain.u (σ x.name)

theorem Represents.inDomains {v : Valuation} {σ : Assignment} {vars : List IntegerVariable}
    (h : Represents v σ vars) : InDomains σ vars :=
  fun x hx => ⟨(h x hx).1, (h x hx).2.1⟩

/-- The order encoding of an assignment: the atoms of the constants that bound it. -/
def orderEncoding (σ : Assignment) (vars : List IntegerVariable) : Valuation :=
  fun a => ∃ x ∈ vars, ∃ c, a = x.atom c ∧ σ x.name ≤ c

theorem orderEncoding_atom {σ : Assignment} {vars : List IntegerVariable} {x : IntegerVariable}
    (hx : x ∈ vars) (c : ℤ) : orderEncoding σ vars (x.atom c) ↔ σ x.name ≤ c := by
  constructor
  · rintro ⟨y, _, d, heq, hle⟩
    obtain ⟨hname, rfl⟩ := IntegerVariable.atom_inj.mp heq
    rwa [hname]
  · intro hle
    exact ⟨x, hx, c, rfl, hle⟩

theorem represents_orderEncoding {σ : Assignment} {vars : List IntegerVariable}
    (h : InDomains σ vars) : Represents (orderEncoding σ vars) σ vars :=
  fun x hx => ⟨(h x hx).1, (h x hx).2, fun c _ _ => orderEncoding_atom hx c⟩

namespace Represents

theorem threshold {v : Valuation} {σ : Assignment} {vars : List IntegerVariable}
    (h : Represents v σ vars) :
    ∀ x ∈ vars, Threshold (fun c => v (x.atom c)) x.domain.l x.domain.u :=
  fun x hx => (h x hx).threshold

/-- A valuation represents at most one assignment. -/
theorem unique {v : Valuation} {σ τ : Assignment} {vars : List IntegerVariable}
    (h : Represents v σ vars) (h' : Represents v τ vars) : ∀ x ∈ vars, σ x.name = τ x.name :=
  fun x hx => (h x hx).unique (h' x hx)

/-- The valuations that represent an assignment agree on the atoms of the domains. -/
theorem atom_iff {v w : Valuation} {σ : Assignment} {vars : List IntegerVariable}
    (h : Represents v σ vars) (h' : Represents w σ vars) :
    ∀ x ∈ vars, ∀ c, x.domain.l - 1 ≤ c → c ≤ x.domain.u → (v (x.atom c) ↔ w (x.atom c)) :=
  fun x hx c hlow hhigh =>
    ((h x hx).2.2 c hlow hhigh).trans ((h' x hx).2.2 c hlow hhigh).symm

end Represents

/-- A valuation whose atoms are threshold predicates represents an assignment. -/
theorem exists_represents {vars : List IntegerVariable}
    (hnodup : (vars.map IntegerVariable.name).Nodup) {v : Valuation}
    (h : ∀ x ∈ vars, Threshold (fun c => v (x.atom c)) x.domain.l x.domain.u) :
    ∃ σ, Represents v σ vars :=
  exists_assignment hnodup fun x hx => (h x hx).exists_bounds x.domain.l_le_u

namespace CSP

/-- The order axioms have the order encodings of the assignments in the domains
as their models, and register the atoms these speak about. -/
theorem predicateOrderRelations_exact (csp : CSP)
    (hnodup : (csp.variables.map IntegerVariable.name).Nodup) (boolVars : List Str) :
    (∀ v : Valuation, CnfTrue (LiteralTrue v) (csp.predicateOrderRelations boolVars).1 ↔
      ∃ σ : Assignment, Represents v σ csp.variables) ∧
    (∀ v σ τ, Represents v σ csp.variables → Represents v τ csp.variables →
      ∀ x ∈ csp.variables, σ x.name = τ x.name) ∧
    (∀ σ, InDomains σ csp.variables →
      ∃ v, Represents v σ csp.variables ∧ ∀ w, Represents w σ csp.variables →
        ∀ x ∈ csp.variables, ∀ c, x.domain.l - 1 ≤ c → c ≤ x.domain.u →
          (v (x.atom c) ↔ w (x.atom c))) ∧
    ∃ added, (csp.predicateOrderRelations boolVars).2 = boolVars ++ added ∧ added.Nodup ∧
      ∀ a, a ∈ added ↔ a ∉ boolVars ∧
        ∃ x ∈ csp.variables, ∃ c, x.domain.l - 1 ≤ c ∧ c ≤ x.domain.u ∧ a = x.atom c := by
  rw [predicateOrderRelations_eq, IntegerVariable.foldl_register]
  refine ⟨fun v => ?_, fun v σ τ => Represents.unique, fun σ hσ => ?_, _, rfl, ?_, fun a => ?_⟩
  · rw [cnfTrue_axioms]
    constructor
    · exact exists_represents hnodup
    · rintro ⟨σ, hσ⟩
      exact hσ.threshold
  -- the atoms are true from the value of the variable on
  · have hrep := represents_orderEncoding hσ
    exact ⟨_, hrep, fun w hw => hrep.atom_iff hw⟩
  · apply nodup_eraseDups
  · simp only [List.mem_eraseDups, List.mem_filter, List.mem_flatMap,
      IntegerVariable.mem_registered, decide_eq_true_eq, and_comm]

theorem predicateOrderRelations_exact_negative :
    let x : IntegerVariable := ⟨"x".toList, ⟨-1, 1, by decide⟩⟩
    let y : IntegerVariable := ⟨"x_1".toList, ⟨0, 0, by decide⟩⟩
    let csp : CSP := ⟨[x, y], []⟩
    let boolVars : List Str := ["px_0".toList]
    (∀ v : Valuation, CnfTrue (LiteralTrue v) (csp.predicateOrderRelations boolVars).1 ↔
      ∃ σ : Assignment, Represents v σ csp.variables) ∧
    (∀ v σ τ, Represents v σ csp.variables → Represents v τ csp.variables →
      ∀ x ∈ csp.variables, σ x.name = τ x.name) ∧
    (∀ σ, InDomains σ csp.variables →
      ∃ v, Represents v σ csp.variables ∧ ∀ w, Represents w σ csp.variables →
        ∀ x ∈ csp.variables, ∀ c, x.domain.l - 1 ≤ c → c ≤ x.domain.u →
          (v (x.atom c) ↔ w (x.atom c))) ∧
    ∃ added, (csp.predicateOrderRelations boolVars).2 = boolVars ++ added ∧ added.Nodup ∧
      ∀ a, a ∈ added ↔ a ∉ boolVars ∧
        ∃ x ∈ csp.variables, ∃ c, x.domain.l - 1 ≤ c ∧ c ≤ x.domain.u ∧ a = x.atom c := by
  intro x y csp boolVars
  exact predicateOrderRelations_exact csp (by decide) boolVars

end CSP

/-- Under a represented assignment the formula of an inequation is true when the
inequation holds and a combination has the sum looked for. -/
theorem Inequation.formulaTrue_iff {v : Valuation} {σ : Assignment} {vars : List IntegerVariable}
    (hrep : Represents v σ vars) {e : Inequation} (hover : ∀ t ∈ e.terms, t.var ∈ vars)
    (hok : e.Encodable) : e.FormulaTrue v ↔ e.Reachable ∧ e.Holds σ := by
  have hholds : e.FormulaTrue v ↔ CnfTrue (PrimitiveComparison.Holds σ) e.formula := by
    refine cnfTrue_congr fun clause hclause p hp => ?_
    obtain ⟨t, ht, hvar, hlow, hhigh⟩ := inRange_of_mem_computeCNF hok.computeCNF_eq hclause hp
    apply PrimitiveComparison.literalTrue_iff_holds
    rw [hvar]
    exact (hrep t.var (hover t ht)).2.2 p.const hlow hhigh
  have hdomains : InDomains σ (e.terms.map LinearTerm.var) := by
    intro x hx
    obtain ⟨t, ht, rfl⟩ := List.mem_map.mp hx
    exact hrep.inDomains t.var (hover t ht)
  rw [hholds]
  by_cases h : e.Reachable
  · rw [cnfTrue_computeCNF hok.computeCNF_eq h hdomains, and_iff_right h]
  · rw [computeCNF_eq_false hok.computeCNF_eq h]
    exact iff_of_false (not_cnfTrue_of_nil_mem List.mem_cons_self) fun hboth => h hboth.1

namespace Encoder

/-- The encoding in closed form. -/
theorem encode_eq_ok {csp : CSP} {sat : SAT} :
    encode csp = .ok sat ↔ (∀ clause ∈ csp.constraints, ∀ e ∈ clause, e.Encodable) ∧
      sat = ⟨(csp.variables.flatMap IntegerVariable.registered).foldl IntegerVariable.register
          csp.auxiliaryNames,
        csp.globalFormula ++ csp.variables.flatMap IntegerVariable.orderAxioms⟩ := by
  rw [encode, bind_eq_ok]
  simp only [mapError_eq_ok, CSP.computeGlobalCNF_eq_ok, CSP.predicateOrderRelations_eq,
    pure_eq_ok]
  constructor
  · rintro ⟨result, ⟨hok, rfl⟩, rfl⟩
    exact ⟨hok, rfl⟩
  · rintro ⟨hok, rfl⟩
    exact ⟨_, ⟨hok, rfl⟩, rfl⟩

/-- Without zero coefficients the encoder returns. -/
theorem exists_encode {csp : CSP}
    (hcoeff : ∀ clause ∈ csp.constraints, ∀ e ∈ clause, ∀ t ∈ e.terms, t.coeff ≠ 0) :
    ∃ sat, encode csp = .ok sat :=
  ⟨_, encode_eq_ok.mpr ⟨fun clause hclause e he =>
    Inequation.exists_computeCNF (hcoeff clause hclause e he), rfl⟩⟩

theorem cnfTrue_encode {csp : CSP} {sat : SAT} (h : encode csp = .ok sat) {v : Valuation} :
    CnfTrue (LiteralTrue v) sat.clauses ↔
      CnfTrue (LiteralTrue v) csp.globalFormula ∧
        ∀ x ∈ csp.variables, Threshold (fun c => v (x.atom c)) x.domain.l x.domain.u := by
  obtain ⟨-, rfl⟩ := encode_eq_ok.mp h
  rw [cnfTrue_append, CSP.cnfTrue_axioms]

theorem represents_of_isLeast {vars : List IntegerVariable} {v : Valuation} {σ : Assignment}
    (h : ∀ x ∈ vars, Threshold (fun c => v (x.atom c)) x.domain.l x.domain.u)
    (hleast : ∀ x ∈ vars,
      IsLeast {c | x.domain.l - 1 ≤ c ∧ c ≤ x.domain.u ∧ v (x.atom c)} (σ x.name)) :
    Represents v σ vars := by
  intro x hx
  obtain ⟨value, hvalue⟩ := (h x hx).exists_bounds x.domain.l_le_u
  rwa [(hleast x hx).unique hvalue.isLeast]

/-- A represented assignment satisfies the problem. -/
theorem satisfied_of_represents {csp : CSP} (hwf : csp.WellFormed) {sat : SAT}
    (h : encode csp = .ok sat) {v : Valuation} {σ : Assignment}
    (hrep : Represents v σ csp.variables)
    (htrue : CnfTrue (LiteralTrue v) csp.globalFormula) : csp.Satisfied σ := by
  obtain ⟨hok, -⟩ := encode_eq_ok.mp h
  obtain ⟨hnames, himp⟩ := CSP.cnfTrue_globalFormula.mp htrue
  have hformula : ∀ clause ∈ csp.constraints, ∃ e ∈ clause, e.FormulaTrue v := by
    rw [← CSP.forall_clause_iff]
    intro clause hclause
    obtain ⟨p, hp, hq⟩ := hnames clause hclause
    exact ⟨p, hp, himp clause hclause p hp hq⟩
  intro clause hclause
  obtain ⟨e, he, htrue⟩ := hformula clause hclause
  have hover := hwf.terms_mem clause hclause e he
  exact ⟨e, he, ((e.formulaTrue_iff hrep hover (hok clause hclause e he)).mp htrue).2⟩

/-- Every model of the clauses gives a solution: the atoms of a variable are
upward closed from below its domain to its upper end, and the least constants
they accept satisfy every constraint. -/
theorem encode_sound {csp : CSP} (hwf : csp.WellFormed) {sat : SAT}
    (h : encode csp = .ok sat) {v : Valuation} (htrue : CnfTrue (LiteralTrue v) sat.clauses) :
    (∀ x ∈ csp.variables,
      (∀ c d, x.domain.l - 1 ≤ c → c ≤ d → d ≤ x.domain.u → v (x.atom c) → v (x.atom d)) ∧
      ¬ v (x.atom (x.domain.l - 1)) ∧ v (x.atom x.domain.u)) ∧
    (∃ σ : Assignment, ∀ x ∈ csp.variables,
      IsLeast {c | x.domain.l - 1 ≤ c ∧ c ≤ x.domain.u ∧ v (x.atom c)} (σ x.name)) ∧
    ∀ σ : Assignment, (∀ x ∈ csp.variables,
      IsLeast {c | x.domain.l - 1 ≤ c ∧ c ≤ x.domain.u ∧ v (x.atom c)} (σ x.name)) →
      csp.Satisfied σ := by
  obtain ⟨hglobal, hthreshold⟩ := (cnfTrue_encode h).mp htrue
  refine ⟨fun x hx => ?_, ?_, fun σ hleast => ?_⟩
  · have hx := hthreshold x hx
    exact ⟨fun c d hlow hcd hhigh hc => hx.mono hlow hcd hhigh hc, hx.lower, hx.upper⟩
  · obtain ⟨σ, hσ⟩ := exists_represents hwf.names_nodup hthreshold
    exact ⟨σ, fun x hx => (hσ x hx).isLeast⟩
  · exact satisfied_of_represents hwf h (represents_of_isLeast hthreshold hleast) hglobal

/-- The problem `x != 1` over `0, .., 2`. -/
def notOne : CSP :=
  let x : IntegerVariable := ⟨"x".toList, ⟨0, 2, by decide⟩⟩
  ⟨[x], [[⟨⟨0, true⟩, [⟨x, 1⟩], [x]⟩, ⟨⟨1, false⟩, [⟨x, 1⟩], [x]⟩]]⟩

theorem notOne_wellFormed : notOne.WellFormed where
  names_nodup := by decide
  terms_mem := by decide

/-- The clauses of `x != 1`. -/
def notOneSat : SAT where
  «variables» := ["q00".toList, "q01".toList, "px_-1".toList, "px_2".toList, "px_0".toList,
    "px_1".toList]
  clauses := [["q00".toList, "q01".toList], ["-q00".toList, "px_0".toList],
    ["-q01".toList, "-px_1".toList], ["-px_-1".toList], ["px_2".toList],
    ["-px_-1".toList, "px_0".toList], ["-px_0".toList, "px_1".toList],
    ["-px_1".toList, "px_2".toList]]

theorem encode_notOne : encode notOne = .ok notOneSat := by decide +kernel

theorem encode_sound_notOne :
    let v : Valuation := fun a => a ∈ ["px_2".toList, "q01".toList]
    (∀ x ∈ notOne.variables,
      (∀ c d, x.domain.l - 1 ≤ c → c ≤ d → d ≤ x.domain.u → v (x.atom c) → v (x.atom d)) ∧
      ¬ v (x.atom (x.domain.l - 1)) ∧ v (x.atom x.domain.u)) ∧
    (∃ σ : Assignment, ∀ x ∈ notOne.variables,
      IsLeast {c | x.domain.l - 1 ≤ c ∧ c ≤ x.domain.u ∧ v (x.atom c)} (σ x.name)) ∧
    ∀ σ : Assignment, (∀ x ∈ notOne.variables,
      IsLeast {c | x.domain.l - 1 ≤ c ∧ c ≤ x.domain.u ∧ v (x.atom c)} (σ x.name)) →
      notOne.Satisfied σ := by
  intro v
  have htrue : CnfTrue (LiteralTrue v) notOneSat.clauses := by
    unfold v
    decide +kernel
  exact encode_sound notOne_wellFormed encode_notOne htrue

/-- In every clause some literal has only expressible literals for namesakes:
they hold, and a combination has the sum they look for. -/
def Expressible (csp : CSP) (σ : Assignment) : Prop :=
  ∀ clause ∈ csp.positions, ∃ p ∈ clause, ∀ other ∈ csp.positions, ∀ q ∈ other,
    CSP.qName q.index q.rank = CSP.qName p.index p.rank →
      q.literal.Reachable ∧ q.literal.Holds σ

theorem over_of_mem_positions {csp : CSP} (hwf : csp.WellFormed) {clause : List CSP.Position}
    (hclause : clause ∈ csp.positions) {p : CSP.Position} (hp : p ∈ clause) :
    ∃ c ∈ csp.constraints, p.literal ∈ c ∧ ∀ t ∈ p.literal.terms, t.var ∈ csp.variables := by
  obtain ⟨⟨c, i⟩, hc, rfl⟩ := List.mem_map.mp hclause
  obtain ⟨⟨e, j⟩, he, rfl⟩ := List.mem_map.mp hp
  have hc := List.mem_of_getElem? (List.mk_mem_zipIdx_iff_getElem?.mp hc)
  have he := List.mem_of_getElem? (List.mk_mem_zipIdx_iff_getElem?.mp he)
  exact ⟨c, hc, he, hwf.terms_mem c hc e he⟩

/-- For represented assignments, expressibility is about formulas. -/
theorem expressible_iff {csp : CSP} (hwf : csp.WellFormed) {sat : SAT}
    (h : encode csp = .ok sat) {v : Valuation} {σ : Assignment}
    (hrep : Represents v σ csp.variables) :
    Expressible csp σ ↔
      ∀ clause ∈ csp.positions, ∃ p ∈ clause, ∀ other ∈ csp.positions, ∀ q ∈ other,
        q.name = p.name → q.literal.FormulaTrue v := by
  obtain ⟨hok, -⟩ := encode_eq_ok.mp h
  refine forall₂_congr fun clause _ => exists_congr fun p => and_congr_right fun _ => ?_
  refine forall₄_congr fun other hother q hq => imp_congr Iff.rfl ?_
  obtain ⟨c, hc, he, hover⟩ := over_of_mem_positions hwf hother hq
  exact (q.literal.formulaTrue_iff hrep hover (hok c hc q.literal he)).symm

/-- An assignment in the domains, solution or not, has a model that represents it
exactly when it is expressible. -/
theorem encode_complete_iff {csp : CSP} (hwf : csp.WellFormed) {sat : SAT}
    (h : encode csp = .ok sat) {σ : Assignment} (hdomains : InDomains σ csp.variables) :
    (∃ v : Valuation, CnfTrue (LiteralTrue v) sat.clauses ∧
      ∀ x ∈ csp.variables, ∀ c, x.domain.l - 1 ≤ c → c ≤ x.domain.u →
        (v (x.atom c) ↔ σ x.name ≤ c)) ↔
      Expressible csp σ := by
  constructor
  · rintro ⟨v, htrue, hatoms⟩
    have hrep : Represents v σ csp.variables := fun x hx =>
      ⟨(hdomains x hx).1, (hdomains x hx).2, hatoms x hx⟩
    rw [expressible_iff hwf h hrep, ← CSP.exists_auxiliary_iff]
    exact ⟨v, fun _ => Iff.rfl, ((cnfTrue_encode h).mp htrue).1⟩
  · intro hexpressible
    rw [expressible_iff hwf h (represents_orderEncoding hdomains),
      ← CSP.exists_auxiliary_iff] at hexpressible
    obtain ⟨w, hagree, hglobal⟩ := hexpressible
    have hatom' : ∀ x ∈ csp.variables, ∀ c, w (x.atom c) ↔ σ x.name ≤ c := fun x hx c =>
      (hagree _).trans (orderEncoding_atom hx c)
    refine ⟨w, (cnfTrue_encode h).mpr ⟨hglobal, fun x hx => ?_⟩, fun x hx c _ _ => hatom' x hx c⟩
    have hbounds : Bounds (fun c => w (x.atom c)) x.domain.l x.domain.u (σ x.name) :=
      ⟨(hdomains x hx).1, (hdomains x hx).2, fun c _ _ => hatom' x hx c⟩
    exact hbounds.threshold

theorem encode_complete_notOne :
    (∃ v : Valuation, CnfTrue (LiteralTrue v) notOneSat.clauses ∧
      ∀ x ∈ notOne.variables, ∀ c, x.domain.l - 1 ≤ c → c ≤ x.domain.u →
        (v (x.atom c) ↔ (2 : ℤ) ≤ c)) ↔
      Expressible notOne fun _ => 2 :=
  encode_complete_iff notOne_wellFormed encode_notOne (σ := fun _ => 2)
    (by unfold InDomains; decide)

/-- The problem `x <= 5` over `0, .., 2`, which every value solves. -/
def trivialBound : CSP :=
  let x : IntegerVariable := ⟨"x".toList, ⟨0, 2, by decide⟩⟩
  ⟨[x], [[⟨⟨5, true⟩, [⟨x, 1⟩], [x]⟩]]⟩

theorem trivialBound_unsatisfiable :
    trivialBound.WellFormed ∧ InDomains (fun _ => 0) trivialBound.variables ∧
      trivialBound.Satisfied (fun _ => 0) ∧
      ∃ sat, encode trivialBound = .ok sat ∧ ¬ ∃ v, CnfTrue (LiteralTrue v) sat.clauses := by
  have hrun : encode trivialBound = .ok
      ⟨["q00".toList, "px_-1".toList, "px_2".toList, "px_0".toList, "px_1".toList],
        [["q00".toList], ["-q00".toList], ["-px_-1".toList], ["px_2".toList],
          ["-px_-1".toList, "px_0".toList], ["-px_0".toList, "px_1".toList],
          ["-px_1".toList, "px_2".toList]]⟩ := by decide +kernel
  refine ⟨⟨by decide, by decide⟩, by unfold InDomains; decide,
    by unfold CSP.Satisfied; decide +kernel, _, hrun, ?_⟩
  rintro ⟨v, htrue⟩
  obtain ⟨l, hl, hyes⟩ := htrue ["q00".toList] (by simp)
  obtain ⟨m, hm, hno⟩ := htrue ["-q00".toList] (by simp)
  rw [List.mem_singleton.mp hl] at hyes
  rw [List.mem_singleton.mp hm] at hno
  exact hno hyes

end Encoder

end Sato
