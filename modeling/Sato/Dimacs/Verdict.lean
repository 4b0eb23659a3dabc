import Sato.Dimacs.Search

/-! # Verdicts

A row that satisfies the clauses of an encoded problem is a valuation of its
variables, and the other way round. So what `solve` says about the rows is a
statement about the integer assignments that the problem can express.
-/

namespace Sato

open Foundation

/-- A literal that is no negation is true with its atom. -/
theorem literalTrue_of_unsigned {v : Valuation} {a : Str} (hunsigned : ¬ ['-'] <+: a) :
    LiteralTrue v a ↔ v a := by
  cases a with
  | nil => rfl
  | cons c a =>
      have hc : c ≠ '-' := fun heq => hunsigned ⟨a, by rw [heq]; rfl⟩
      unfold LiteralTrue
      split
      next heq => exact absurd (List.cons.inj heq).1 hc
      next => rfl

namespace SAT

/-- The row of a valuation: each number, with a minus sign where the variable is false. -/
def rowOf (sat : SAT) (v : Valuation) [DecidablePred v] : List ℤ :=
  (sat.variables.zipIdx 1).map fun entry => if v entry.1 then entry.2 else -entry.2

theorem isTotal_rowOf (sat : SAT) (v : Valuation) [DecidablePred v] :
    IsTotal sat.variables.length (sat.rowOf v) := by
  rw [Foundation.IsTotal, rowOf, List.map_map, ← List.zipIdx_map_snd 1 sat.variables]
  refine List.map_congr_left fun entry _ => ?_
  rw [Function.comp_apply]
  split <;> simp

section Closed

variable {sat : SAT} (hclosed : sat.Closed)
include hclosed

theorem Closed.valuation_rowOf (v : Valuation) [DecidablePred v] :
    ∀ a ∈ sat.variables, sat.valuation (sat.rowOf v) a ↔ v a := by
  intro a ha
  obtain ⟨n, hpos, hn, hget⟩ := exists_varIndexNumber ha
  have hnumber : sat.number a = n :=
    number_of_eq_ok (literalToNumber_of_unsigned (hclosed.unsigned a ha) hn)
  rw [valuation, hnumber, rowOf, List.mem_map]
  constructor
  · rintro ⟨⟨b, i⟩, hentry, heq⟩
    have hplace := List.mk_mem_zipIdx_iff_le_and_getElem?_sub.mp hentry
    split at heq
    next htrue =>
      obtain rfl : i = n := by exact_mod_cast heq
      rwa [← Option.some.inj (hplace.2.symm.trans hget)]
    next => omega
  · intro htrue
    exact ⟨(a, n), List.mk_mem_zipIdx_iff_le_and_getElem?_sub.mpr ⟨hpos, hget⟩, if_pos htrue⟩

theorem Closed.cnfTrue_congr {v w : Valuation} (hagree : ∀ a ∈ sat.variables, v a ↔ w a) :
    CnfTrue (LiteralTrue v) sat.clauses ↔ CnfTrue (LiteralTrue w) sat.clauses := by
  refine Foundation.cnfTrue_congr fun clause hclause l hl => ?_
  obtain ⟨a, ha, rfl | rfl⟩ := hclosed.literals_mem clause hclause l hl
  · rw [literalTrue_of_unsigned (hclosed.unsigned l ha),
      literalTrue_of_unsigned (hclosed.unsigned l ha), hagree l ha]
  · exact not_congr (hagree a ha)

/-- Every valuation of the clauses is that of a row. -/
theorem Closed.exists_isModel {v : Valuation} (htrue : CnfTrue (LiteralTrue v) sat.clauses) :
    ∃ row, sat.IsModel row ∧ ∀ a ∈ sat.variables, sat.valuation row a ↔ v a := by
  classical
  have htotal := sat.isTotal_rowOf v
  have hagree := hclosed.valuation_rowOf v
  refine ⟨sat.rowOf v, ⟨htotal, (hclosed.cnfTrue_rows htotal).mpr ?_⟩, hagree⟩
  exact (hclosed.cnfTrue_congr hagree).mpr htrue

end Closed

end SAT

namespace CSP

/-- A combination has the sum that an inequation looks for, and literals of one
name are the same. -/
structure Regular (csp : CSP) : Prop where
  reachable : ∀ clause ∈ csp.constraints, ∀ e ∈ clause, e.Reachable
  literal_eq : ∀ clause ∈ csp.positions, ∀ p ∈ clause, ∀ other ∈ csp.positions, ∀ q ∈ other,
    q.name = p.name → q.literal = p.literal

/-- Names are shared only where the digits of the ranks run together. -/
theorem regular_of_not_nameClash {csp : CSP} (hclash : ¬ csp.NameClash)
    (hreachable : ∀ clause ∈ csp.constraints, ∀ e ∈ clause, e.Reachable) : csp.Regular where
  reachable := hreachable
  literal_eq := by
    intro clause hclause p hp other hother q hq hname
    obtain ⟨hindex, hrank⟩ := name_inj_of_not_nameClash hclash hother hclause hq hp hname
    exact literal_eq_of_ranks_eq hother hclause hq hp hindex hrank

/-- A regular problem expresses its solutions. -/
theorem Regular.expressible_iff {csp : CSP} (h : csp.Regular) (σ : Assignment) :
    Encoder.Expressible csp σ ↔ csp.Satisfied σ := by
  rw [Satisfied, CnfTrue, ← forall_clause_iff (P := Inequation.Holds σ)]
  refine forall₂_congr fun clause hclause => exists_congr fun p => and_congr_right fun hp => ?_
  constructor
  · exact fun hall => (hall clause hclause p hp rfl).2
  · intro hholds other hother q hq hname
    have heq := h.literal_eq clause hclause p hp other hother q hq hname
    obtain ⟨⟨c, i⟩, hc, rfl⟩ := List.mem_map.mp hother
    obtain ⟨⟨e, j⟩, he, rfl⟩ := List.mem_map.mp hq
    have hc := List.mem_of_getElem? (List.mk_mem_zipIdx_iff_getElem?.mp hc)
    have he := List.mem_of_getElem? (List.mk_mem_zipIdx_iff_getElem?.mp he)
    exact ⟨h.reachable c hc e he, heq ▸ hholds⟩

end CSP

namespace Encoder

section Models

variable {csp : CSP} (hwf : csp.WellFormed) {sat : SAT} (h : encode csp = .ok sat)
include hwf h

/-- The assignments that models represent are those that the problem can express. -/
theorem exists_isModel_iff {σ : Assignment} :
    (∃ row, sat.IsModel row ∧ Represents (sat.valuation row) σ csp.variables) ↔
      InDomains σ csp.variables ∧ Expressible csp σ := by
  have hclosed := closed_encode hwf h
  constructor
  · rintro ⟨row, hmodel, hrep⟩
    have htrue := (hclosed.cnfTrue_rows hmodel.total).mp hmodel.satisfies
    refine ⟨hrep.inDomains, ?_⟩
    rw [expressible_iff hwf h hrep, ← CSP.exists_auxiliary_iff]
    exact ⟨sat.valuation row, fun _ => Iff.rfl, ((cnfTrue_encode h).mp htrue).1⟩
  · rintro ⟨hdomains, hexpressible⟩
    have hrep := represents_orderEncoding hdomains
    rw [expressible_iff hwf h hrep, ← CSP.exists_auxiliary_iff] at hexpressible
    obtain ⟨w, hagree, hglobal⟩ := hexpressible
    -- the auxiliary atoms are chosen, the others are those of the order encoding
    have hrep' : Represents w σ csp.variables := fun x hx =>
      ⟨(hrep x hx).1, (hrep x hx).2.1, fun c hlow hhigh =>
        (hagree _).trans ((hrep x hx).2.2 c hlow hhigh)⟩
    obtain ⟨row, hmodel, hrow⟩ := hclosed.exists_isModel
      ((cnfTrue_encode h).mpr ⟨hglobal, hrep'.threshold⟩)
    refine ⟨row, hmodel, fun x hx => ⟨(hrep' x hx).1, (hrep' x hx).2.1, fun c hlow hhigh => ?_⟩⟩
    have hmem : x.atom c ∈ sat.variables :=
      (mem_variables_encode hwf.names_nodup h).mpr (Or.inr ⟨x, hx, c, hlow, hhigh, rfl⟩)
    exact (hrow _ hmem).trans ((hrep' x hx).2.2 c hlow hhigh)

theorem exists_represents_of_isModel {row : List ℤ} (hmodel : sat.IsModel row) :
    ∃ σ, Represents (sat.valuation row) σ csp.variables := by
  have htrue := ((closed_encode hwf h).cnfTrue_rows hmodel.total).mp hmodel.satisfies
  exact exists_represents hwf.names_nodup ((cnfTrue_encode h).mp htrue).2

theorem exists_isModel_iff_exists :
    (∃ row, sat.IsModel row) ↔ ∃ σ, InDomains σ csp.variables ∧ Expressible csp σ := by
  constructor
  · rintro ⟨row, hmodel⟩
    obtain ⟨σ, hrep⟩ := exists_represents_of_isModel hwf h hmodel
    exact ⟨σ, (exists_isModel_iff hwf h).mp ⟨row, hmodel, hrep⟩⟩
  · rintro ⟨σ, hσ⟩
    obtain ⟨row, hmodel, -⟩ := (exists_isModel_iff hwf h).mpr hσ
    exact ⟨row, hmodel⟩

end Models

end Encoder

namespace Solver

/-- The row of a solution: the names with the texts of the values. -/
def solutionRow (vars : List IntegerVariable) (σ : Assignment) : Interpretation :=
  vars.map fun x => (x.name, intText (σ x.name))

/-- What the verdict says after the first answer. -/
theorem solve_eq {sat : SAT} (hclosed : sat.Closed) (interpretation : List ℤ → Interpretation)
    {execute : Execute} {display : Display} {fuel : ℕ} {verbose interprete : Bool} :
    solve sat execute display fuel verbose interprete =
      let head := displayed display verbose (blockedFile sat [])
      if isSatisfiable (answer sat execute []) then
        if interprete then
          match findAllSolutions sat execute fuel (searchState sat execute interpretation []) with
          | .error message => some ⟨head ++ satisfiableText, some (message ++ solveError)⟩
          | .ok none => none
          | .ok (some solutions) =>
              some ⟨head ++ satisfiableText ++ solutionsText solutions, none⟩
        else some ⟨head ++ satisfiableText, none⟩
      else some ⟨head ++ unsatisfiableText, none⟩ := by
  rw [solve, firstCall_eq hclosed]
  rfl

section Verdict

variable {csp : CSP} (hwf : csp.WellFormed) (hvars : csp.variables ≠ []) {sat : SAT}
  (h : Encoder.encode csp = .ok sat) {execute : Execute} (hexecute : Answers execute)
  (display : Display)
include hwf hvars h hexecute

/-- The first answer says whether an assignment can be expressed. -/
theorem isSatisfiable_first :
    isSatisfiable (answer sat execute []) = true ↔
      ∃ σ, InDomains σ csp.variables ∧ Encoder.Expressible csp σ := by
  have hne := variables_ne_nil hwf hvars h
  have hpos : 1 ≤ sat.variables.length := List.length_pos_iff.mpr hne
  rw [← Encoder.exists_isModel_iff_exists hwf h]
  rcases answer_spec (Encoder.closed_encode hwf h) (Encoder.lastOccurs hwf h hvars) hpos hexecute
    (List.forall_mem_nil _) with
    ⟨row, hmodel, -, heq⟩ | ⟨hall, heq⟩
  · have hrow : row ≠ [] := by
      rintro rfl
      have := hmodel.total.length_eq
      rw [List.length_nil] at this
      omega
    rw [heq, isSatisfiable_resultText hrow]
    exact iff_of_true rfl ⟨row, hmodel⟩
  · rw [heq, isSatisfiable_unsatText]
    refine iff_of_false Bool.false_ne_true ?_
    rintro ⟨row, hmodel⟩
    exact absurd (hall row hmodel) List.not_mem_nil

/-- Without an expressible assignment the verdict is that there is none. -/
theorem solve_of_none (hnone : ¬ ∃ σ, InDomains σ csp.variables ∧ Encoder.Expressible csp σ)
    (fuel : ℕ) (verbose interprete : Bool) :
    solve sat execute display fuel verbose interprete =
      some ⟨displayed display verbose (blockedFile sat []) ++ unsatisfiableText, none⟩ := by
  rw [solve_eq (Encoder.closed_encode hwf h) (fun _ => [])]
  refine if_neg fun hyes => ?_
  exact hnone ((isSatisfiable_first hwf hvars h hexecute).mp hyes)

theorem solve_of_exists (hsome : ∃ σ, InDomains σ csp.variables ∧ Encoder.Expressible csp σ)
    (fuel : ℕ) (verbose : Bool) :
    solve sat execute display fuel verbose false =
      some ⟨displayed display verbose (blockedFile sat []) ++ satisfiableText, none⟩ := by
  rw [solve_eq (Encoder.closed_encode hwf h) (fun _ => [])]
  exact if_pos ((isSatisfiable_first hwf hvars h hexecute).mpr hsome)

/-- The search lists the expressible assignments, each once. -/
theorem exists_solutions (hnames : ∀ x ∈ csp.variables, '_' ∉ x.name)
    (hsome : ∃ σ, InDomains σ csp.variables ∧ Encoder.Expressible csp σ) :
    ∃ solutions : List Interpretation, solutions.Nodup ∧
      (∀ solution, solution ∈ solutions ↔ ∃ σ, (InDomains σ csp.variables ∧
        Encoder.Expressible csp σ) ∧ solution = solutionRow csp.variables σ) ∧
      ∃ bound, ∀ fuel verbose, bound < fuel → solve sat execute display fuel verbose true =
        some ⟨displayed display verbose (blockedFile sat []) ++ satisfiableText ++
          solutionsText (solutions.map some), none⟩ := by
  have hclosed := Encoder.closed_encode hwf h
  have hne := variables_ne_nil hwf hvars h
  have hpos : 1 ≤ sat.variables.length := List.length_pos_iff.mpr hne
  obtain ⟨models, -, hmem, hanswer⟩ := exists_models hclosed
    (Encoder.lastOccurs hwf h hvars) hpos hexecute
  have hrow : ∀ row ∈ models, row ≠ [] := by
    rintro row hrow rfl
    have := ((hmem []).mp hrow).total.length_eq
    rw [List.length_nil] at this
    omega
  -- each model is decoded to the values of the assignment it represents
  have hvalues : ∀ row, ∃ σ : Assignment, sat.IsModel row →
      Represents (sat.valuation row) σ csp.variables ∧
        interprete sat (Dimacs.resultText row) = .ok (some (solutionRow csp.variables σ)) := by
    intro row
    by_cases hmodel : sat.IsModel row
    · obtain ⟨σ, hσ⟩ := Encoder.exists_represents_of_isModel hwf h hmodel
      obtain ⟨value, hvalue, heq⟩ := interprete_model hwf hvars hnames h hmodel
      refine ⟨σ, fun _ => ⟨hσ, heq.trans ?_⟩⟩
      refine congrArg (fun map => Except.ok (some map)) (List.map_congr_left fun x hx => ?_)
      rw [(hvalue x hx).unique (hσ x hx)]
    · exact ⟨fun _ => 0, fun hmodel' => absurd hmodel' hmodel⟩
  choose σ hσ using hvalues
  have hinterprete := fun row hrow => (hσ row ((hmem row).mp hrow)).2
  obtain ⟨hnodup, hunique⟩ := mem_arrayUnique hwf.names_nodup (fun row x => σ row x.name) models
  obtain ⟨solutions, hsolutions⟩ : ∃ solutions : List Interpretation, arrayUnique
      (models.map fun row => some (solutionRow csp.variables (σ row))) = solutions.map some := by
    have hrange : ∀ solution ∈ arrayUnique
        (models.map fun row => some (solutionRow csp.variables (σ row))),
        solution ∈ Set.range some := by
      intro solution hsolution
      obtain ⟨row, -, heq⟩ := List.mem_map.mp ((hunique solution).mp hsolution)
      exact ⟨_, heq⟩
    obtain ⟨solutions, heq⟩ := (Set.range_list_map some).symm.subset hrange
    exact ⟨solutions, heq.symm⟩
  refine ⟨solutions, ?_, fun solution => ?_, models.length, fun fuel verbose hfuel => ?_⟩
  · have hmap : (solutions.map some).Nodup := hsolutions ▸ hnodup
    exact hmap.of_map
  · have hiff := hunique (some solution)
    rw [List.mem_map] at hiff
    have hmap : some solution ∈ solutions.map some ↔ solution ∈ solutions := by simp
    rw [← hmap, ← hsolutions]
    refine hiff.trans ⟨?_, ?_⟩
    · rintro ⟨row, hrow, heq⟩
      have hmodel := (hmem row).mp hrow
      refine ⟨σ row, (Encoder.exists_isModel_iff hwf h).mp ⟨row, hmodel, (hσ row hmodel).1⟩, ?_⟩
      exact (Option.some.inj heq).symm
    · rintro ⟨τ, hτ, rfl⟩
      obtain ⟨row, hmodel, hrep⟩ := (Encoder.exists_isModel_iff hwf h).mpr hτ
      refine ⟨row, (hmem row).mpr hmodel, congrArg some (List.map_congr_left fun x hx => ?_)⟩
      rw [(hσ row hmodel).1.unique hrep x hx]
  · have hfind := findAllSolutions_eq hrow hanswer hinterprete fuel
    rw [if_pos hfuel, hsolutions] at hfind
    rw [solve_eq hclosed fun row => solutionRow csp.variables (σ row)]
    simp only [if_pos ((isSatisfiable_first hwf hvars h hexecute).mpr hsome), if_true, hfind]

end Verdict

end Solver

end Sato
