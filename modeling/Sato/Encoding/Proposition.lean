import Sato.Encoding.Coefficient
import Sato.Encoding.Combinations
import Sato.Foundation.Interval

/-! # The formula of an inequation

`computeCNF` enumerates the splits of `c - n + 1` between the terms. When there
is one, the formula says what the inequation says; when there is none, whatever
the reason, it is the false formula.
-/

namespace Sato

open Foundation ComparisonBase

namespace Inequation

/-- A combination of the terms' constants: one share for each term, between the
term's bounds, the lower one diminished by one. -/
def IsCombination (terms : List LinearTerm) (combi : List ℤ) : Prop :=
  List.Forall₂ (fun b (t : LinearTerm) => t.getLowerBound - 1 ≤ b ∧ b ≤ t.getUpperBound)
    combi terms

/-- There is a term, and `c - n + 1` is between the sums of the least and of the
greatest shares. -/
def Reachable (e : Inequation) : Prop :=
  e.terms ≠ [] ∧
    (e.terms.map LinearTerm.getLowerBound).sum - e.terms.length ≤ e.target ∧
    e.target ≤ (e.terms.map LinearTerm.getUpperBound).sum

instance (e : Inequation) : Decidable e.Reachable :=
  inferInstanceAs (Decidable (_ ∧ _ ∧ _))

theorem mem_termDomain {t : LinearTerm} {b : ℤ} :
    b ∈ termDomain t ↔ t.getLowerBound - 1 ≤ b ∧ b ≤ t.getUpperBound :=
  mem_loopRange

theorem termDomain_ne_nil (t : LinearTerm) : termDomain t ≠ [] := by
  have hmem : t.getUpperBound ∈ termDomain t :=
    mem_termDomain.mpr ⟨by have := t.getLowerBound_le_getUpperBound; omega, le_rfl⟩
  exact List.ne_nil_of_mem hmem

theorem mem_combinaisons {e : Inequation} (hne : e.terms ≠ []) {combi : List ℤ} :
    combi ∈ computeCombinaisons e.getTermsDomain [] ↔ IsCombination e.terms combi := by
  have hdata : ∀ values ∈ e.getTermsDomain, values ≠ [] := by
    intro values hmem
    obtain ⟨t, _, rfl⟩ := List.mem_map.mp hmem
    exact termDomain_ne_nil t
  rw [mem_computeCombinaisons (by simpa [getTermsDomain] using hne) hdata, getTermsDomain,
    List.forall₂_map_right_iff]
  simp only [mem_termDomain]
  rfl

/-- The sums of the combinations are the integers between the extreme ones. -/
theorem reachable_iff {e : Inequation} :
    e.Reachable ↔ e.terms ≠ [] ∧ ∃ combi, IsCombination e.terms combi ∧ combi.sum = e.target := by
  refine and_congr_right fun _ => ?_
  have hsum := sum_map_sub_one LinearTerm.getLowerBound e.terms
  constructor
  · rintro ⟨hlow, hhigh⟩
    refine exists_sum_between (fun t => LinearTerm.getLowerBound t - 1) LinearTerm.getUpperBound
      e.terms (fun t _ => ?_) e.target (by omega) hhigh
    have := t.getLowerBound_le_getUpperBound
    omega
  · rintro ⟨combi, hcombi, heq⟩
    have hbetween := sum_between (fun t => LinearTerm.getLowerBound t - 1)
      LinearTerm.getUpperBound hcombi
    omega

/-- The combinations `computeCNF` keeps. -/
def keptCombinaisons (e : Inequation) : List (List ℤ) :=
  (computeCombinaisons e.getTermsDomain []).filter fun combi => combi.sum = e.target

theorem mem_keptCombinaisons {e : Inequation} {combi : List ℤ} :
    combi ∈ e.keptCombinaisons ↔
      e.terms ≠ [] ∧ IsCombination e.terms combi ∧ combi.sum = e.target := by
  rw [keptCombinaisons, List.mem_filter, decide_eq_true_eq]
  by_cases hne : e.terms = []
  · simp [hne, getTermsDomain, computeCombinaisons]
  · rw [mem_combinaisons hne]
    simp [hne]

theorem keptCombinaisons_eq_nil_iff {e : Inequation} :
    e.keptCombinaisons = [] ↔ ¬ e.Reachable := by
  rw [reachable_iff, List.eq_nil_iff_forall_not_mem]
  simp only [mem_keptCombinaisons, not_and, not_exists]
  exact ⟨fun h hne combi => h combi hne, fun h combi hne => h hne combi⟩

/-! ## Clauses of combinations -/

/-- The clauses of the kept combinations, before repetitions are removed. -/
def combiClauses (e : Inequation) : Except Str (List (List PrimitiveComparison)) :=
  e.keptCombinaisons.mapM e.combiClause

theorem computeCNF_eq_ok {e : Inequation} {cnf : List (List PrimitiveComparison)} :
    e.computeCNF = .ok cnf ↔ ∃ clauses, e.combiClauses = .ok clauses ∧
      cnf = if (if e.sign then clauses.eraseDups else negatedCNF clauses.eraseDups).isEmpty
        then [[]] else if e.sign then clauses.eraseDups else negatedCNF clauses.eraseDups := by
  change (e.combiClauses >>= _) = _ ↔ _
  rw [bind_eq_ok]
  refine exists_congr fun clauses => and_congr_right fun _ => ?_
  rw [pure_eq_ok, eq_comm]

/-- A literal of a clause comes from a share of its combination. -/
theorem combiClause_forall₂ {e : Inequation} {combi : List ℤ} {clause : List PrimitiveComparison}
    (h : e.combiClause combi = .ok clause) :
    List.Forall₂ (fun share p => primComp e.sign share.2 share.1 = .ok p)
      (combi.zip e.terms) clause :=
  mapM_eq_ok.mp h

theorem exists_holds_combiClause_iff {e : Inequation} {combi : List ℤ}
    {clause : List PrimitiveComparison} (h : e.combiClause combi = .ok clause)
    (hsign : e.sign = true) (σ : Assignment) :
    (∃ p ∈ clause, p.Holds σ) ↔ ∃ share ∈ combi.zip e.terms, share.2.value σ ≤ share.1 := by
  have hall := combiClause_forall₂ h
  constructor
  · rintro ⟨p, hp, hholds⟩
    obtain ⟨share, hshare, hprim⟩ := forall₂_exists_left hall hp
    rw [(primComp_eq_ok hprim).2.2.1, if_pos hsign] at hholds
    exact ⟨share, hshare, hholds⟩
  · rintro ⟨share, hshare, hle⟩
    obtain ⟨p, hp, hprim⟩ := forall₂_exists_right hall hshare
    refine ⟨p, hp, ?_⟩
    rw [(primComp_eq_ok hprim).2.2.1, if_pos hsign]
    exact hle

theorem forall_holds_combiClause_iff {e : Inequation} {combi : List ℤ}
    {clause : List PrimitiveComparison} (h : e.combiClause combi = .ok clause)
    (hsign : e.sign = false) (σ : Assignment) :
    (∀ p ∈ clause, p.Holds σ) ↔ ¬ ∃ share ∈ combi.zip e.terms, share.2.value σ ≤ share.1 := by
  have hall := combiClause_forall₂ h
  push Not
  constructor
  · intro hholds share hshare
    obtain ⟨p, hp, hprim⟩ := forall₂_exists_right hall hshare
    have hp := hholds p hp
    rwa [(primComp_eq_ok hprim).2.2.1, hsign, if_neg (by simp)] at hp
  · intro hlt p hp
    obtain ⟨share, hshare, hprim⟩ := forall₂_exists_left hall hp
    rw [(primComp_eq_ok hprim).2.2.1, hsign, if_neg (by simp)]
    exact hlt share hshare

/-- The variable of a literal is a term's, and its constant is in the range of
the variable's atoms. -/
def InRange (e : Inequation) (p : PrimitiveComparison) : Prop :=
  ∃ t ∈ e.terms, p.variable = t.var ∧
    t.var.domain.l - 1 ≤ p.const ∧ p.const ≤ t.var.domain.u

theorem inRange_of_mem_combiClause {e : Inequation} {combi : List ℤ}
    {clause : List PrimitiveComparison} (hcombi : IsCombination e.terms combi)
    (h : e.combiClause combi = .ok clause) {p : PrimitiveComparison} (hp : p ∈ clause) :
    e.InRange p := by
  obtain ⟨⟨b, t⟩, hshare, hprim⟩ := forall₂_exists_left (combiClause_forall₂ h) hp
  obtain ⟨-, hvar, -, hrange⟩ := primComp_eq_ok hprim
  have hb := (List.forall₂_iff_zip.mp hcombi).2 hshare
  exact ⟨t, (List.of_mem_zip hshare).2, hvar, hrange hb.1 hb.2⟩

/-! ## Negated formulas -/

theorem exists_choice {α : Type*} {data : List (List α)} (hdata : ∀ values ∈ data, values ≠ []) :
    ∃ choice, List.Forall₂ (· ∈ ·) choice data := by
  induction data with
  | nil => exact ⟨[], List.Forall₂.nil⟩
  | cons values data ih =>
      obtain ⟨choice, hchoice⟩ := ih fun l hl => hdata l (List.mem_cons_of_mem _ hl)
      obtain ⟨value, hvalue⟩ := List.exists_mem_of_ne_nil _ (hdata values List.mem_cons_self)
      exact ⟨value :: choice, List.Forall₂.cons hvalue hchoice⟩

variable {cnf : List (List PrimitiveComparison)}

theorem negatedCNF_ne_nil (hne : cnf ≠ []) (hclauses : ∀ clause ∈ cnf, clause ≠ []) :
    negatedCNF cnf ≠ [] := by
  obtain ⟨choice, hchoice⟩ := exists_choice hclauses
  have hmem := (mem_computeCombinaisons hne hclauses).mpr hchoice
  simpa [negatedCNF] using List.ne_nil_of_mem hmem

theorem cnfTrue_negatedCNF (holds : PrimitiveComparison → Prop) (hne : cnf ≠ [])
    (hclauses : ∀ clause ∈ cnf, clause ≠ []) :
    CnfTrue holds (negatedCNF cnf) ↔ ∃ clause ∈ cnf, ∀ p ∈ clause, holds p := by
  rw [negatedCNF, cnfTrue_map_eraseDups, cnfTrue_eraseDups, ← forall_choice_iff]
  simp only [CnfTrue, mem_computeCombinaisons hne hclauses]

theorem exists_mem_of_mem_negatedCNF (hne : cnf ≠ []) (hclauses : ∀ clause ∈ cnf, clause ≠ [])
    {clause : List PrimitiveComparison} (hclause : clause ∈ negatedCNF cnf)
    {p : PrimitiveComparison} (hp : p ∈ clause) : ∃ other ∈ cnf, p ∈ other := by
  obtain ⟨choice, hchoice, rfl⟩ := List.mem_map.mp hclause
  rw [List.mem_eraseDups] at hchoice hp
  obtain ⟨other, hother, hmem⟩ :=
    forall₂_exists_right ((mem_computeCombinaisons hne hclauses).mp hchoice) hp
  exact ⟨other, hother, hmem⟩

/-! ## The formula -/

/-- An inequation holds when every kept combination has a term below its share. -/
theorem sum_le_iff_kept {e : Inequation} (hreach : e.Reachable) {σ : Assignment}
    (hdomains : InDomains σ (e.terms.map LinearTerm.var)) :
    e.sum σ ≤ e.const ↔ ∀ combi ∈ e.keptCombinaisons,
      ∃ share ∈ combi.zip e.terms, share.2.value σ ≤ share.1 := by
  have hval : ∀ t ∈ e.terms, t.getLowerBound ≤ t.value σ ∧ t.value σ ≤ t.getUpperBound := by
    intro t ht
    have hx := hdomains t.var (List.mem_map_of_mem ht)
    exact LinearTerm.value_mem_bounds hx.1 hx.2
  have hsplit := sum_le_iff_forall_split LinearTerm.getLowerBound LinearTerm.getUpperBound
    (LinearTerm.value σ) e.terms e.const hval hreach.2.1
  have hkept : ∀ combi, combi ∈ e.keptCombinaisons ↔
      IsCombination e.terms combi ∧ combi.sum = e.const - e.terms.length + 1 := by
    intro combi
    rw [mem_keptCombinaisons]
    exact ⟨fun hmem => hmem.2, fun hmem => ⟨hreach.1, hmem⟩⟩
  unfold Inequation.sum
  rw [hsplit]
  simp only [hkept, and_imp]
  rfl

section CombiClauses

variable {e : Inequation} {clauses : List (List PrimitiveComparison)}
  (h : e.combiClauses = .ok clauses)
include h

theorem combiClauses_ne_nil (hreach : e.Reachable) : clauses ≠ [] := by
  have hall := mapM_eq_ok.mp h
  intro hnil
  rw [hnil, List.forall₂_nil_right_iff] at hall
  exact keptCombinaisons_eq_nil_iff.mp hall hreach

theorem ne_nil_of_mem_combiClauses {clause : List PrimitiveComparison}
    (hclause : clause ∈ clauses) : clause ≠ [] := by
  intro hnil
  obtain ⟨combi, hcombi, hok⟩ := forall₂_exists_left (mapM_eq_ok.mp h) hclause
  obtain ⟨hterms, hcombi, -⟩ := mem_keptCombinaisons.mp hcombi
  have hlen := (combiClause_forall₂ hok).length_eq
  rw [hnil, List.length_zip, hcombi.length_eq, min_self, List.length_nil,
    List.length_eq_zero_iff] at hlen
  exact hterms hlen

theorem inRange_of_mem_combiClauses {clause : List PrimitiveComparison}
    (hclause : clause ∈ clauses) {p : PrimitiveComparison} (hp : p ∈ clause) : e.InRange p := by
  obtain ⟨combi, hcombi, hok⟩ := forall₂_exists_left (mapM_eq_ok.mp h) hclause
  exact inRange_of_mem_combiClause (mem_keptCombinaisons.mp hcombi).2.1 hok hp

variable (hreach : e.Reachable) {σ : Assignment}
  (hdomains : InDomains σ (e.terms.map LinearTerm.var))
include hreach hdomains

theorem cnfTrue_combiClauses (hsign : e.sign = true) :
    CnfTrue (PrimitiveComparison.Holds σ) clauses ↔ e.sum σ ≤ e.const := by
  have hall := mapM_eq_ok.mp h
  rw [sum_le_iff_kept hreach hdomains]
  constructor
  · intro htrue combi hcombi
    obtain ⟨clause, hclause, hok⟩ := forall₂_exists_right hall hcombi
    exact (exists_holds_combiClause_iff hok hsign σ).mp (htrue clause hclause)
  · intro hshares clause hclause
    obtain ⟨combi, hcombi, hok⟩ := forall₂_exists_left hall hclause
    exact (exists_holds_combiClause_iff hok hsign σ).mpr (hshares combi hcombi)

theorem exists_combiClauses (hsign : e.sign = false) :
    (∃ clause ∈ clauses, ∀ p ∈ clause, p.Holds σ) ↔ e.const < e.sum σ := by
  have hall := mapM_eq_ok.mp h
  rw [← not_le, sum_le_iff_kept hreach hdomains]
  push Not
  constructor
  · rintro ⟨clause, hclause, hholds⟩
    obtain ⟨combi, hcombi, hok⟩ := forall₂_exists_left hall hclause
    refine ⟨combi, hcombi, ?_⟩
    simpa using (forall_holds_combiClause_iff hok hsign σ).mp hholds
  · rintro ⟨combi, hcombi, hlt⟩
    obtain ⟨clause, hclause, hok⟩ := forall₂_exists_right hall hcombi
    refine ⟨clause, hclause, ?_⟩
    exact (forall_holds_combiClause_iff hok hsign σ).mpr (by simpa using hlt)

end CombiClauses

section Formula

variable {e : Inequation} {formula : List (List PrimitiveComparison)}
  (h : e.computeCNF = .ok formula)
include h

theorem exists_computeCNF_eq (hreach : e.Reachable) :
    ∃ clauses, e.combiClauses = .ok clauses ∧ clauses.eraseDups ≠ [] ∧
      (∀ clause ∈ clauses.eraseDups, clause ≠ []) ∧
      formula = if e.sign then clauses.eraseDups else negatedCNF clauses.eraseDups := by
  obtain ⟨clauses, hclauses, hformula⟩ := computeCNF_eq_ok.mp h
  have hne : clauses.eraseDups ≠ [] := by simpa using combiClauses_ne_nil hclauses hreach
  have hclausesne : ∀ clause ∈ clauses.eraseDups, clause ≠ [] := by
    intro clause hclause
    exact ne_nil_of_mem_combiClauses hclauses (List.mem_eraseDups.mp hclause)
  refine ⟨clauses, hclauses, hne, hclausesne, ?_⟩
  rw [hformula]
  apply if_neg
  rw [List.isEmpty_iff]
  cases e.sign with
  | true => exact hne
  | false => exact negatedCNF_ne_nil hne hclausesne

/-- When no combination is kept, neither sign has a clause. -/
theorem computeCNF_eq_false (hreach : ¬ e.Reachable) : formula = [[]] := by
  obtain ⟨clauses, hclauses, hformula⟩ := computeCNF_eq_ok.mp h
  rw [combiClauses, keptCombinaisons_eq_nil_iff.mpr hreach, List.mapM_nil,
    pure_eq_ok] at hclauses
  rw [hformula, ← hclauses]
  cases e.sign <;> rfl

/-- When one is kept, the formula is equivalent to the inequation over the domains. -/
theorem cnfTrue_computeCNF (hreach : e.Reachable) {σ : Assignment}
    (hdomains : InDomains σ (e.terms.map LinearTerm.var)) :
    CnfTrue (PrimitiveComparison.Holds σ) formula ↔ e.Holds σ := by
  obtain ⟨clauses, hclauses, hne, hclausesne, hformula⟩ := exists_computeCNF_eq h hreach
  rw [hformula]
  unfold Inequation.Holds
  cases hsign : e.sign with
  | true =>
      simp only [if_true]
      rw [cnfTrue_eraseDups, cnfTrue_combiClauses hclauses hreach hdomains hsign]
  | false =>
      simp only [Bool.false_eq_true, if_false]
      rw [cnfTrue_negatedCNF _ hne hclausesne,
        ← exists_combiClauses hclauses hreach hdomains hsign]
      simp only [List.mem_eraseDups]

/-- The literals stay in the range of their variables' atoms. -/
theorem inRange_of_mem_computeCNF {clause : List PrimitiveComparison} (hclause : clause ∈ formula)
    {p : PrimitiveComparison} (hp : p ∈ clause) : e.InRange p := by
  by_cases hreach : e.Reachable
  · obtain ⟨clauses, hclauses, hne, hclausesne, hformula⟩ := exists_computeCNF_eq h hreach
    rw [hformula] at hclause
    split at hclause
    · exact inRange_of_mem_combiClauses hclauses (List.mem_eraseDups.mp hclause) hp
    · obtain ⟨other, hother, hmem⟩ := exists_mem_of_mem_negatedCNF hne hclausesne hclause hp
      exact inRange_of_mem_combiClauses hclauses (List.mem_eraseDups.mp hother) hmem
  · rw [computeCNF_eq_false h hreach, List.mem_singleton] at hclause
    rw [hclause] at hp
    exact absurd hp List.not_mem_nil

end Formula

/-- Without zero coefficients nothing is thrown. -/
theorem exists_computeCNF {e : Inequation} (hcoeff : ∀ t ∈ e.terms, t.coeff ≠ 0) :
    ∃ cnf, e.computeCNF = .ok cnf := by
  have hclauses : ∃ clauses, e.combiClauses = .ok clauses := by
    refine exists_mapM_eq_ok fun combi _ => exists_mapM_eq_ok fun share hshare => ?_
    exact exists_primComp e.sign share.1 (hcoeff share.2 (List.of_mem_zip hshare).2)
  obtain ⟨clauses, hclauses⟩ := hclauses
  exact ⟨_, computeCNF_eq_ok.mpr ⟨clauses, hclauses, rfl⟩⟩

/-- With a combination of the right sum, the formulas of the two signs say
`sum <= const` and its negation. -/
theorem computeCNF_expresses (terms : List LinearTerm) (vars : List IntegerVariable) (const : ℤ)
    (hne : terms ≠ []) (hcoeff : ∀ t ∈ terms, t.coeff ≠ 0)
    (hcombi : ∃ combi, IsCombination terms combi ∧ combi.sum = const - terms.length + 1) :
    ∃ positive negative,
      computeCNF ⟨⟨const, true⟩, terms, vars⟩ = .ok positive ∧
      computeCNF ⟨⟨const, false⟩, terms, vars⟩ = .ok negative ∧
      ∀ σ, InDomains σ (terms.map LinearTerm.var) →
        (CnfTrue (PrimitiveComparison.Holds σ) positive ↔
          (terms.map fun t => t.coeff * σ t.var.name).sum ≤ const) ∧
        (CnfTrue (PrimitiveComparison.Holds σ) negative ↔
          const < (terms.map fun t => t.coeff * σ t.var.name).sum) := by
  obtain ⟨positive, hpositive⟩ := exists_computeCNF (e := ⟨⟨const, true⟩, terms, vars⟩) hcoeff
  obtain ⟨negative, hnegative⟩ := exists_computeCNF (e := ⟨⟨const, false⟩, terms, vars⟩) hcoeff
  refine ⟨positive, negative, hpositive, hnegative, fun σ hdomains => ⟨?_, ?_⟩⟩
  · exact cnfTrue_computeCNF hpositive (reachable_iff.mpr ⟨hne, hcombi⟩) hdomains
  · exact cnfTrue_computeCNF hnegative (reachable_iff.mpr ⟨hne, hcombi⟩) hdomains

theorem computeCNF_expresses_difference :
    let x : IntegerVariable := ⟨"x".toList, ⟨0, 2, by decide⟩⟩
    let y : IntegerVariable := ⟨"y".toList, ⟨0, 2, by decide⟩⟩
    let terms : List LinearTerm := [⟨x, 1⟩, ⟨y, -1⟩]
    ∃ positive negative,
      computeCNF ⟨⟨-1, true⟩, terms, [x, y]⟩ = .ok positive ∧
      computeCNF ⟨⟨-1, false⟩, terms, [x, y]⟩ = .ok negative ∧
      ∀ σ, InDomains σ (terms.map LinearTerm.var) →
        (CnfTrue (PrimitiveComparison.Holds σ) positive ↔
          (terms.map fun t => t.coeff * σ t.var.name).sum ≤ -1) ∧
        (CnfTrue (PrimitiveComparison.Holds σ) negative ↔
          -1 < (terms.map fun t => t.coeff * σ t.var.name).sum) :=
  computeCNF_expresses _ _ (-1) (by decide) (by decide)
    ⟨[0, -2], List.Forall₂.cons (by decide) (List.Forall₂.cons (by decide) List.Forall₂.nil),
      by decide⟩

end Inequation

end Sato
