import Sato.Dimacs.File
import Sato.Foundation.Enumeration

/-! # Search for all solutions

The boolean solver is any function that answers each problem file with one of
its models, or with `UNSAT` where there is none. The loop adds the opposite of
each answer to the file, so it lists the models without repetition and stops
when none is left. The values decoded from them are listed once each.
-/

namespace Sato

open Foundation

/-- The header announces the greatest variable of the clauses. -/
structure Dimacs.HeaderExact (read : Dimacs) : Prop where
  occurs : ∃ clause ∈ read.clauses, ∃ k ∈ clause, (k.natAbs : ℤ) = read.vars
  le : ∀ clause ∈ read.clauses, ∀ k ∈ clause, (k.natAbs : ℤ) ≤ read.vars

/-- The last variable occurs in the clauses. -/
def SAT.LastOccurs (sat : SAT) : Prop :=
  ∃ clause ∈ sat.clauses, ∃ l ∈ clause, (sat.number l).natAbs = sat.variables.length

/-- The number of the last variable, when it is listed once. -/
theorem SAT.Closed.number_last {sat : SAT} (hclosed : sat.Closed) {before : List Str} {a : Str}
    (hlist : sat.variables = before ++ [a]) (hnew : a ∉ before) :
    sat.number a = sat.variables.length := by
  have ha : a ∈ sat.variables := by simp [hlist]
  obtain ⟨n, hpos, hn, hget⟩ := exists_varIndexNumber ha
  rw [number_of_eq_ok (literalToNumber_of_unsigned (hclosed.unsigned a ha) hn)]
  rw [hlist, List.getElem?_append] at hget
  split at hget
  next => exact absurd (List.mem_of_getElem? hget) hnew
  next hge =>
    obtain ⟨hlt, -⟩ := List.getElem?_eq_some_iff.mp hget
    rw [List.length_singleton] at hlt
    rw [hlist, List.length_append, List.length_singleton]
    omega

namespace Encoder

variable {csp : CSP} (hwf : csp.WellFormed) {sat : SAT} (h : encode csp = .ok sat)
include h

/-- Every atom of a variable occurs in its axioms. -/
theorem exists_mem_clauses_of_atom {x : IntegerVariable} (hx : x ∈ csp.variables) {c : ℤ}
    (hlow : x.domain.l - 1 ≤ c) (hhigh : c ≤ x.domain.u) :
    ∃ clause ∈ sat.clauses, x.atom c ∈ clause ∨ '-' :: x.atom c ∈ clause := by
  have hclauses : ∀ clause ∈ x.orderAxioms, clause ∈ sat.clauses := by
    intro clause hclause
    obtain ⟨-, rfl⟩ := encode_eq_ok.mp h
    exact List.mem_append_right _ (List.mem_flatMap.mpr ⟨x, hx, hclause⟩)
  by_cases hc : c = x.domain.l - 1
  · refine ⟨_, hclauses ['-' :: x.atom (x.domain.l - 1)] ?_, Or.inr (by simp [hc])⟩
    simp [IntegerVariable.orderAxioms]
  · refine ⟨_, hclauses ['-' :: x.atom (c - 1), x.atom c] ?_, Or.inl (by simp)⟩
    refine List.mem_append_right _ (List.mem_map.mpr ⟨c, mem_loopRange.mpr ⟨?_, hhigh⟩, rfl⟩)
    omega

include hwf

/-- The last variable is an atom, and no other variable has its name. -/
theorem lastOccurs (hvars : csp.variables ≠ []) : sat.LastOccurs := by
  have hclosed := closed_encode hwf h
  have hlist := variables_encode hwf.names_nodup h
  have hatoms := Solver.nodup_atoms hwf.names_nodup
  have hne : (csp.variables.flatMap fun x => x.constants.map x.atom) ≠ [] := by
    obtain ⟨x, hx⟩ := List.exists_mem_of_ne_nil _ hvars
    have hlu := x.domain.l_le_u
    exact List.ne_nil_of_mem (List.mem_flatMap.mpr ⟨x, hx, List.mem_map_of_mem
      (IntegerVariable.mem_constants.mpr ⟨by omega, le_refl x.domain.u⟩)⟩)
  obtain ⟨before, a, hlast⟩ := (List.eq_nil_or_concat' _).resolve_left hne
  have ha : a ∈ csp.variables.flatMap fun x => x.constants.map x.atom := by simp [hlast]
  obtain ⟨x, hx, ha⟩ := List.mem_flatMap.mp ha
  obtain ⟨c, hc, rfl⟩ := List.mem_map.mp ha
  have hbounds := IntegerVariable.mem_constants.mp hc
  rw [hlast] at hlist hatoms
  have hnew : x.atom c ∉ csp.auxiliaryNames ++ before := by
    rw [List.mem_append, not_or]
    refine ⟨fun hname => ?_, fun hbefore => ?_⟩
    · have haux := Solver.isAuxiliary_of_mem_auxiliaryNames hname
      rw [Solver.isAuxiliary_atom] at haux
      contradiction
    · exact (List.nodup_append.mp hatoms).2.2 _ hbefore _ (List.mem_singleton_self _) rfl
  have hnumber := hclosed.number_last (hlist.trans (List.append_assoc _ _ _).symm) hnew
  obtain ⟨clause, hclause, hl | hl⟩ := exists_mem_clauses_of_atom h hx hbounds.1 hbounds.2
  · exact ⟨clause, hclause, _, hl, by rw [hnumber]; rfl⟩
  · refine ⟨clause, hclause, _, hl, ?_⟩
    have hmem : x.atom c ∈ sat.variables := by simp [hlist]
    rw [hclosed.number_minus hmem, hnumber, Int.natAbs_neg]
    rfl

end Encoder

namespace Solver

/-- The boolean solver writes some model of the problem it reads, or `UNSAT` if there
is none. A model is over the variables up to the greatest one that occurs, and nothing
is asked for where the header announces another number of them. -/
structure Answers (execute : Execute) : Prop where
  sat : ∀ call problem read, Dimacs.parse problem = some read → 1 ≤ read.vars →
    read.HeaderExact → (∃ row, Models read.vars.toNat read.clauses row) →
    ∃ row, Models read.vars.toNat read.clauses row ∧
      execute call problem = Dimacs.resultText row
  unsat : ∀ call problem read, Dimacs.parse problem = some read → 1 ≤ read.vars →
    read.HeaderExact → (¬ ∃ row, Models read.vars.toNat read.clauses row) →
    execute call problem = Dimacs.unsatText

/-! ## Results -/

theorem isSatisfiable_unsatText : isSatisfiable Dimacs.unsatText = false := by
  have htext : Dimacs.unsatText = "UNSAT".toList ++ ['\n'] := by decide
  have htest : pregTest (.seq .bol (.lit "UNSAT".toList)) Dimacs.unsatText = true :=
    (pregTest_bol_lit (by decide) _).mpr ⟨['\n'], htext.symm⟩
  rw [isSatisfiable, htest]
  rfl

theorem isSatisfiable_resultText {row : List ℤ} (hne : row ≠ []) :
    isSatisfiable (Dimacs.resultText row) = true := by
  have hword : "UNSAT".toList = ['U', 'N', 'S', 'A', 'T'] := by decide
  have htest : pregTest (.seq .bol (.lit "UNSAT".toList)) (Dimacs.resultText row) = false := by
    refine Bool.eq_false_iff.mpr fun h => ?_
    obtain ⟨rest, heq⟩ := (pregTest_bol_lit (by decide) _).mp h
    obtain ⟨k, row, rfl⟩ := List.exists_cons_of_ne_nil hne
    obtain ⟨c, s, hk⟩ := List.exists_cons_of_ne_nil (intText_ne_nil k)
    have hc : c = '-' ∨ isDigit c = true := mem_intText (z := k) (by simp [hk])
    have hhead : (Dimacs.resultText (k :: row)).head? = some c := by
      rw [Dimacs.resultText, List.map_cons, implode]
      cases row with
      | nil => simp [hk]
      | cons m row => simp [hk, List.intercalate_cons_cons]
    rw [← heq, hword] at hhead
    obtain rfl : 'U' = c := by simpa using hhead
    simp [isDigit] at hc
  rw [isSatisfiable, htest]
  rfl

/-! ## One pass -/

/-- The file after some models have been blocked. -/
def blockedFile (sat : SAT) (seen : List (List ℤ)) : Str :=
  fileText sat.variables.length (sat.clauses.length + seen.length)
    (sat.rows ++ seen.map (List.map Neg.neg))

/-- What the solver answers once some models have been blocked. -/
def answer (sat : SAT) (execute : Execute) (seen : List (List ℤ)) : Str :=
  execute seen.length (blockedFile sat seen)

theorem parse_blockedFile {sat : SAT} (hclosed : sat.Closed) {seen : List (List ℤ)}
    (hseen : ∀ row ∈ seen, IsTotal sat.variables.length row) :
    Dimacs.parse (blockedFile sat seen) =
      some ⟨sat.variables.length, (sat.clauses.length + seen.length : ℕ),
        sat.rows ++ seen.map (List.map Neg.neg)⟩ := by
  refine Dimacs.parse_fileText _ _ ?_
  rw [List.forall_mem_append]
  refine ⟨hclosed.rows_ne_zero, fun row hrow k hk => ?_⟩
  obtain ⟨other, hother, rfl⟩ := List.mem_map.mp hrow
  obtain ⟨m, hm, rfl⟩ := List.mem_map.mp hk
  have := (hseen other hother).natAbs_mem hm
  omega

/-- The header of the file stays exact: the opposites of models are over the same
variables. -/
theorem headerExact_blockedFile {sat : SAT} (hclosed : sat.Closed) (hlast : sat.LastOccurs)
    {seen : List (List ℤ)} (hseen : ∀ row ∈ seen, IsTotal sat.variables.length row) :
    Dimacs.HeaderExact ⟨sat.variables.length, (sat.clauses.length + seen.length : ℕ),
      sat.rows ++ seen.map (List.map Neg.neg)⟩ where
  occurs := by
    obtain ⟨clause, hclause, l, hl, hnumber⟩ := hlast
    exact ⟨clause.map sat.number, List.mem_append_left _ (List.mem_map_of_mem hclause),
      sat.number l, List.mem_map_of_mem hl, congrArg Nat.cast hnumber⟩
  le := by
    rw [List.forall_mem_append, SAT.rows, List.forall_mem_map, List.forall_mem_map]
    constructor
    · intro clause hclause
      rw [List.forall_mem_map]
      intro l hl
      exact Int.ofNat_le.mpr (hclosed.number_mem_range
        (hclosed.literals_mem clause hclause l hl)).2
    · intro row hrow
      rw [List.forall_mem_map]
      intro k hk
      rw [Int.natAbs_neg]
      exact Int.ofNat_le.mpr ((hseen row hrow).natAbs_mem hk).2

/-- The solver answers with a model that has not been blocked, and with `UNSAT`
when all models have been. -/
theorem answer_spec {sat : SAT} (hclosed : sat.Closed) (hlast : sat.LastOccurs)
    (hpos : 1 ≤ sat.variables.length) {execute : Execute} (hexecute : Answers execute) {seen : List (List ℤ)}
    (hseen : ∀ row ∈ seen, sat.IsModel row) :
    (∃ row, sat.IsModel row ∧ row ∉ seen ∧ answer sat execute seen = Dimacs.resultText row) ∨
      (∀ row, sat.IsModel row → row ∈ seen) ∧ answer sat execute seen = Dimacs.unsatText := by
  have htotal : ∀ row ∈ seen, IsTotal sat.variables.length row := fun row hrow =>
    (hseen row hrow).total
  have hparse := parse_blockedFile hclosed htotal
  have hheader := headerExact_blockedFile hclosed hlast htotal
  have hvars : (1 : ℤ) ≤ sat.variables.length := by omega
  have hmodels : ∀ row, Models sat.variables.length (sat.rows ++ seen.map (List.map Neg.neg)) row ↔
      sat.IsModel row ∧ row ∉ seen := fun row => models_append_opposites htotal
  by_cases hex : ∃ row, Models sat.variables.length (sat.rows ++ seen.map (List.map Neg.neg)) row
  · obtain ⟨row, hrow, heq⟩ := hexecute.sat seen.length _ _ hparse hvars hheader hex
    exact Or.inl ⟨row, ((hmodels row).mp hrow).1, ((hmodels row).mp hrow).2, heq⟩
  · refine Or.inr ⟨fun row hrow => ?_, hexecute.unsat seen.length _ _ hparse hvars hheader hex⟩
    by_contra hnot
    exact hex ⟨row, (hmodels row).mpr ⟨hrow, hnot⟩⟩

theorem searchStep_resultText {sat : SAT} {execute : Execute} {seen : List (List ℤ)}
    {row : List ℤ} (hne : row ≠ []) {solution : Option Interpretation}
    (hsolution : interprete sat (Dimacs.resultText row) = .ok solution)
    (solutions : List (Option Interpretation)) :
    searchStep sat execute ⟨⟨blockedFile sat seen, Dimacs.resultText row⟩, solutions,
        seen.length + 1⟩ =
      .ok ⟨⟨blockedFile sat (seen ++ [row]), answer sat execute (seen ++ [row])⟩,
        solutions ++ [solution], (seen ++ [row]).length + 1⟩ := by
  have hfile : addResultInDimacs ⟨blockedFile sat seen, Dimacs.resultText row⟩ =
      blockedFile sat (seen ++ [row]) := by
    unfold blockedFile
    rw [addResultInDimacs_fileText hne]
    simp [Nat.add_assoc]
  rw [searchStep, hsolution]
  simp only [hfile, answer, List.length_append, List.length_singleton]
  rfl

/-! ## All passes -/

/-- The models in the order in which the solver finds them. -/
theorem exists_models {sat : SAT} (hclosed : sat.Closed) (hlast : sat.LastOccurs)
    (hpos : 1 ≤ sat.variables.length) {execute : Execute} (hexecute : Answers execute) :
    ∃ models : List (List ℤ), models.Nodup ∧ (∀ row, row ∈ models ↔ sat.IsModel row) ∧
      ∀ k ≤ models.length, answer sat execute (models.take k) =
        (models[k]?.map Dimacs.resultText).getD Dimacs.unsatText := by
  classical
  -- the problem file is determined by the models found so far, and so is the answer
  let choose (seen : List (List ℤ)) : Option (List ℤ) :=
    if h : ∃ row, sat.IsModel row ∧ row ∉ seen ∧
      answer sat execute seen = Dimacs.resultText row then some h.choose else none
  have hnext : ∀ seen, (∀ row ∈ seen, sat.IsModel row) →
      answer sat execute seen = ((choose seen).map Dimacs.resultText).getD Dimacs.unsatText := by
    intro seen hseen
    by_cases h : ∃ row, sat.IsModel row ∧ row ∉ seen ∧
      answer sat execute seen = Dimacs.resultText row
    · simp only [choose, dif_pos h, Option.map_some, Option.getD_some]
      exact h.choose_spec.2.2
    · simp only [choose, dif_neg h, Option.map_none, Option.getD_none]
      exact ((answer_spec hclosed hlast hpos hexecute hseen).resolve_left h).2
  have hchooses : Chooses sat.IsModel choose := by
    constructor
    · intro seen row _ hchoose
      by_cases h : ∃ row, sat.IsModel row ∧ row ∉ seen ∧
        answer sat execute seen = Dimacs.resultText row
      · simp only [choose, dif_pos h, Option.some.injEq] at hchoose
        obtain ⟨hmodel, hnew, -⟩ := h.choose_spec
        exact hchoose ▸ ⟨hmodel, hnew⟩
      · simp [choose, dif_neg h] at hchoose
    · intro seen hseen hchoose
      by_cases h : ∃ row, sat.IsModel row ∧ row ∉ seen ∧
        answer sat execute seen = Dimacs.resultText row
      · simp [choose, dif_pos h] at hchoose
      · exact ((answer_spec hclosed hlast hpos hexecute hseen).resolve_left h).1
  have hfin : {row | sat.IsModel row}.Finite :=
    (finite_isTotal sat.variables.length).subset fun row hrow => hrow.total
  obtain ⟨models, hnodup, hmem, hrun⟩ := hchooses.exists_list hfin
  refine ⟨models, hnodup, hmem, fun k hk => ?_⟩
  rw [hnext _ fun row hrow => (hmem row).mp (List.mem_of_mem_take hrow), hrun k hk]

/-- The search after a number of passes. -/
def searchRounds (sat : SAT) (execute : Execute) : ℕ → Search → Except Str Search
  | 0, search => return search
  | k + 1, search => do searchStep sat execute (← searchRounds sat execute k search)

/-- The search once some models have been blocked. -/
def searchState (sat : SAT) (execute : Execute) (interpretation : List ℤ → Interpretation)
    (seen : List (List ℤ)) : Search where
  files := ⟨blockedFile sat seen, answer sat execute seen⟩
  solutions := seen.map fun row => some (interpretation row)
  calls := seen.length + 1

section Run

variable {sat : SAT} {execute : Execute} {models : List (List ℤ)}
  {interpretation : List ℤ → Interpretation}

theorem exportToDimacs_nil (hclosed : sat.Closed) :
    sat.exportToDimacs [] = .ok (blockedFile sat []) := by
  rw [hclosed.exportToDimacs_eq]
  simp [blockedFile, fileText]

theorem firstCall_eq (hclosed : sat.Closed) :
    firstCall sat execute = .ok (searchState sat execute interpretation []) := by
  rw [firstCall, prepare, exportToDimacs_nil hclosed]
  rfl

variable (hne : ∀ row ∈ models, row ≠ [])
  (hanswer : ∀ k ≤ models.length, answer sat execute (models.take k) =
    (models[k]?.map Dimacs.resultText).getD Dimacs.unsatText)
  (hinterprete : ∀ row ∈ models,
    interprete sat (Dimacs.resultText row) = .ok (some (interpretation row)))

include hne hanswer hinterprete

/-- One pass moves on to the next model. -/
theorem searchStep_searchState {k : ℕ} (hk : k < models.length) :
    searchStep sat execute (searchState sat execute interpretation (models.take k)) =
      .ok (searchState sat execute interpretation (models.take (k + 1))) := by
  have hmem : models[k] ∈ models := List.getElem_mem hk
  have hget : answer sat execute (models.take k) = Dimacs.resultText models[k] := by
    rw [hanswer k (Nat.le_of_lt hk), List.getElem?_eq_getElem hk]
    rfl
  have htake : models.take (k + 1) = models.take k ++ [models[k]] :=
    List.take_succ_eq_append_getElem hk
  unfold searchState
  rw [hget, searchStep_resultText (hne _ hmem) (hinterprete _ hmem), htake, List.map_append]
  rfl

theorem searchRounds_eq {k : ℕ} (hk : k ≤ models.length) :
    searchRounds sat execute k (searchState sat execute interpretation []) =
      .ok (searchState sat execute interpretation (models.take k)) := by
  induction k with
  | zero => rfl
  | succ k ih =>
      rw [searchRounds, ih (Nat.le_of_succ_le hk)]
      exact searchStep_searchState hne hanswer hinterprete hk

/-- The loop runs once for each model that is left. -/
theorem searchLoop_eq (fuel : ℕ) {k : ℕ} (hk : k ≤ models.length) :
    searchLoop sat execute fuel (searchState sat execute interpretation (models.take k)) =
      .ok (if models.length - k < fuel then
        some (searchState sat execute interpretation models) else none) := by
  induction fuel generalizing k with
  | zero => simp [searchLoop]
  | succ fuel ih =>
      rcases Nat.lt_or_ge k models.length with hlt | hge
      · have hget : answer sat execute (models.take k) = Dimacs.resultText models[k] := by
          rw [hanswer k hk, List.getElem?_eq_getElem hlt]
          rfl
        have hsatisfiable : isSatisfiable
            (searchState sat execute interpretation (models.take k)).files.output = true := by
          unfold searchState
          rw [hget]
          exact isSatisfiable_resultText (hne _ (List.getElem_mem hlt))
        rw [searchLoop, if_pos hsatisfiable,
          searchStep_searchState hne hanswer hinterprete hlt]
        refine (ih hlt).trans ?_
        have hiff : models.length - (k + 1) < fuel ↔ models.length - k < fuel + 1 := by omega
        simp only [hiff]
      · -- every model has been found, so that the loop stops here
        obtain rfl : k = models.length := le_antisymm hk hge
        have hunsat : isSatisfiable (searchState sat execute interpretation
            (models.take models.length)).files.output = false := by
          unfold searchState
          rw [hanswer _ le_rfl, List.getElem?_eq_none le_rfl]
          exact isSatisfiable_unsatText
        rw [searchLoop, if_neg (by rw [hunsat]; decide), List.take_length]
        simp [pure, Except.pure]

theorem findAllSolutions_eq (fuel : ℕ) :
    findAllSolutions sat execute fuel (searchState sat execute interpretation []) =
      .ok (if models.length < fuel then
        some (arrayUnique (models.map fun row => some (interpretation row))) else none) := by
  have hloop := searchLoop_eq hne hanswer hinterprete fuel (Nat.zero_le _)
  rw [List.take_zero, Nat.sub_zero] at hloop
  rw [findAllSolutions, hloop]
  split <;> rfl

end Run

/-! ## Removal of repetitions -/

theorem eraseDupsBy_eq_eraseDups {α : Type*} [BEq α] {r : α → α → Bool} {l : List α}
    (hr : ∀ a ∈ l, ∀ b ∈ l, r a b = (a == b)) : l.eraseDupsBy r = l.eraseDups := by
  induction hlen : l.length using Nat.strongRecOn generalizing l with
  | ind n ih =>
      cases l with
      | nil => rfl
      | cons a l =>
          have hfilter : l.filter (fun b => r b a = false) = l.filter fun b => !b == a := by
            refine List.filter_congr fun b hb => ?_
            rw [hr b (List.mem_cons_of_mem a hb) a List.mem_cons_self]
            cases b == a <;> rfl
          have hshort : (l.filter fun b => !b == a).length < n := by
            have := List.length_filter_le (fun b => !b == a) l
            rw [List.length_cons] at hlen
            omega
          rw [List.eraseDupsBy_cons, List.eraseDups_cons, hfilter]
          refine congrArg (a :: ·) (ih _ hshort (fun b hb c hc => ?_) rfl)
          exact hr b (List.mem_cons_of_mem a (List.mem_filter.mp hb).1) c
            (List.mem_cons_of_mem a (List.mem_filter.mp hc).1)

/-- Arrays over the same distinct names are loosely equal when they are equal. -/
theorem looseEq_eq {vars : List IntegerVariable}
    (hnodup : (vars.map IntegerVariable.name).Nodup) (first second : IntegerVariable → ℤ) :
    looseEq (some (vars.map fun x => (x.name, intText (first x))))
        (some (vars.map fun x => (x.name, intText (second x)))) =
      (some (vars.map fun x => (x.name, intText (first x))) ==
        some (vars.map fun x => (x.name, intText (second x)))) := by
  rw [Bool.eq_iff_iff, beq_iff_eq, Option.some_inj, List.map_inj_left]
  simp only [looseEq, List.length_map, beq_self_eq_true, Bool.true_and, List.all_eq_true,
    List.forall_mem_map, List.any_map, List.any_eq_true, Function.comp_apply, Bool.and_eq_true,
    beq_iff_eq, compareText_intText, compare_eq_iff_eq, Prod.mk.injEq, true_and]
  constructor
  · intro hall x hx
    obtain ⟨y, hy, hname, heq⟩ := hall x hx
    obtain rfl : x = y := List.inj_on_of_nodup_map hnodup hx hy hname
    rw [heq]
  · exact fun hall x hx => ⟨x, hx, rfl, intText_injective (hall x hx)⟩

theorem mem_arrayUnique {vars : List IntegerVariable}
    (hnodup : (vars.map IntegerVariable.name).Nodup) (value : List ℤ → IntegerVariable → ℤ)
    (models : List (List ℤ)) :
    let solutions := models.map fun row =>
      some (vars.map fun x => (x.name, intText (value row x)))
    (arrayUnique solutions).Nodup ∧ ∀ solution, solution ∈ arrayUnique solutions ↔
      solution ∈ solutions := by
  intro solutions
  have heq : arrayUnique solutions = solutions.eraseDups := by
    refine eraseDupsBy_eq_eraseDups fun first hfirst second hsecond => ?_
    obtain ⟨row, -, rfl⟩ := List.mem_map.mp hfirst
    obtain ⟨other, -, rfl⟩ := List.mem_map.mp hsecond
    exact looseEq_eq hnodup (value row) (value other)
  rw [heq]
  exact ⟨nodup_eraseDups _, fun solution => List.mem_eraseDups⟩

/-- The arrays that the models of a problem are decoded to, as one function. -/
theorem exists_decoding {csp : CSP} (hwf : csp.WellFormed) (hvars : csp.variables ≠ [])
    (hnames : ∀ x ∈ csp.variables, '_' ∉ x.name) {sat : SAT} (h : Encoder.encode csp = .ok sat) :
    ∃ value : List ℤ → IntegerVariable → ℤ, ∀ row, sat.IsModel row →
      interprete sat (Dimacs.resultText row) =
        .ok (some (csp.variables.map fun x => (x.name, intText (value row x)))) := by
  have hvalues : ∀ row, ∃ value : IntegerVariable → ℤ, sat.IsModel row →
      interprete sat (Dimacs.resultText row) =
        .ok (some (csp.variables.map fun x => (x.name, intText (value x)))) := by
    intro row
    by_cases hmodel : sat.IsModel row
    · obtain ⟨value, -, heq⟩ := interprete_model hwf hvars hnames h hmodel
      exact ⟨value, fun _ => heq⟩
    · exact ⟨fun _ => 0, fun hmodel' => absurd hmodel' hmodel⟩
  choose value hvalue using hvalues
  exact ⟨value, hvalue⟩

/-- Over names without underscores the search lists the models of a satisfiable
problem, each once and in some order. After `k` passes the file holds the clauses
of the problem and the opposites of the first `k` models. The loop stops after
exactly one pass for each model, and its result is the set of the decoded models. -/
theorem findAllSolutions_enumerates {csp : CSP} (hwf : csp.WellFormed)
    (hnames : ∀ x ∈ csp.variables, '_' ∉ x.name) {sat : SAT}
    (h : Encoder.encode csp = .ok sat) (hpos : 1 ≤ sat.variables.length)
    (hsat : ∃ row, sat.IsModel row) {execute : Execute} (hexecute : Answers execute) :
    ∃ start models solutions, firstCall sat execute = .ok start ∧
      models ≠ [] ∧ models.Nodup ∧ (∀ row, row ∈ models ↔ sat.IsModel row) ∧
      (∀ k ≤ models.length, ∃ search, searchRounds sat execute k start = .ok search ∧
        search.files.input = fileText sat.variables.length (sat.clauses.length + k)
          (sat.rows ++ (models.take k).map (List.map Neg.neg)) ∧
        Dimacs.parse search.files.input =
          some ⟨sat.variables.length, (sat.clauses.length + k : ℕ),
            sat.rows ++ (models.take k).map (List.map Neg.neg)⟩ ∧
        search.files.output = (models[k]?.map Dimacs.resultText).getD Dimacs.unsatText) ∧
      (∀ fuel, findAllSolutions sat execute fuel start =
        .ok (if models.length < fuel then some solutions else none)) ∧
      solutions.Nodup ∧ ∀ solution, solution ∈ solutions ↔
        ∃ row, sat.IsModel row ∧ interprete sat (Dimacs.resultText row) = .ok solution := by
  have hclosed := Encoder.closed_encode hwf h
  have hvars : csp.variables ≠ [] := by
    intro hnil
    obtain ⟨row, hmodel⟩ := hsat
    simp [variables_eq_nil_of_no_variables hwf hnil h hmodel] at hpos
  obtain ⟨models, hnodup, hmem, hanswer⟩ :=
    exists_models hclosed (Encoder.lastOccurs hwf h hvars) hpos hexecute
  obtain ⟨value, hvalue⟩ := exists_decoding hwf hvars hnames h
  have hne : ∀ row ∈ models, row ≠ [] := by
    rintro row hrow rfl
    have hlength := ((hmem []).mp hrow).total.length_eq
    rw [← hlength] at hpos
    simp at hpos
  have hinterprete := fun row hrow => hvalue row ((hmem row).mp hrow)
  obtain ⟨hunique, hsolutions⟩ := mem_arrayUnique hwf.names_nodup value models
  refine ⟨searchState sat execute (fun row => csp.variables.map fun x =>
    (x.name, intText (value row x))) [], models, _, firstCall_eq hclosed, ?_, hnodup, hmem,
    fun k hk => ?_, findAllSolutions_eq hne hanswer hinterprete, hunique, fun solution => ?_⟩
  · obtain ⟨row, hmodel⟩ := hsat
    exact List.ne_nil_of_mem ((hmem row).mpr hmodel)
  · refine ⟨_, searchRounds_eq hne hanswer hinterprete hk, ?_, ?_, hanswer k hk⟩
    · simp [searchState, blockedFile, Nat.min_eq_left hk]
    · have htotal : ∀ row ∈ models.take k, IsTotal sat.variables.length row :=
        fun row hrow => ((hmem row).mp (List.mem_of_mem_take hrow)).total
      have hparse := parse_blockedFile hclosed htotal
      rwa [List.length_take, Nat.min_eq_left hk] at hparse
  · rw [hsolutions, List.mem_map]
    constructor
    · rintro ⟨row, hrow, rfl⟩
      exact ⟨row, (hmem row).mp hrow, hinterprete row hrow⟩
    · rintro ⟨row, hmodel, heq⟩
      rw [hvalue row hmodel] at heq
      exact ⟨row, (hmem row).mpr hmodel, Except.ok.inj heq⟩

/-- A boolean solver that tries the assignments one after the other. -/
def bruteForce : Execute := fun _ problem =>
  match Dimacs.parse problem with
  | none => []
  | some read =>
      match (totals read.vars.toNat).find? fun row =>
          decide (Models read.vars.toNat read.clauses row) with
      | some row => Dimacs.resultText row
      | none => Dimacs.unsatText

theorem answers_bruteForce : Answers bruteForce where
  sat := by
    intro call problem read hparse _ _ hex
    obtain ⟨row, hrow⟩ := hex
    cases hfind : (totals read.vars.toNat).find? fun row =>
        decide (Models read.vars.toNat read.clauses row) with
    | some first =>
        refine ⟨first, by simpa using List.find?_some hfind, ?_⟩
        rw [bruteForce, hparse]
        simp only [hfind]
    | none =>
        have hnone := List.find?_eq_none.mp hfind row (mem_totals.mpr hrow.total)
        exact absurd (decide_eq_true hrow) hnone
  unsat := by
    intro call problem read hparse _ _ hnone
    have hfind : (totals read.vars.toNat).find? (fun row =>
        decide (Models read.vars.toNat read.clauses row)) = none :=
      List.find?_eq_none.mpr fun row _ hrow => hnone ⟨row, of_decide_eq_true hrow⟩
    rw [bruteForce, hparse]
    simp only [hfind]

theorem findAllSolutions_enumerates_notOne :
    ∃ start models solutions, firstCall Encoder.notOneSat bruteForce = .ok start ∧
      models ≠ [] ∧ models.Nodup ∧ (∀ row, row ∈ models ↔ Encoder.notOneSat.IsModel row) ∧
      (∀ k ≤ models.length, ∃ search,
        searchRounds Encoder.notOneSat bruteForce k start = .ok search ∧
        search.files.input = fileText 6 (8 + k)
          (Encoder.notOneSat.rows ++ (models.take k).map (List.map Neg.neg)) ∧
        Dimacs.parse search.files.input =
          some ⟨6, (8 + k : ℕ),
            Encoder.notOneSat.rows ++ (models.take k).map (List.map Neg.neg)⟩ ∧
        search.files.output = (models[k]?.map Dimacs.resultText).getD Dimacs.unsatText) ∧
      (∀ fuel, findAllSolutions Encoder.notOneSat bruteForce fuel start =
        .ok (if models.length < fuel then some solutions else none)) ∧
      solutions.Nodup ∧ ∀ solution, solution ∈ solutions ↔
        ∃ row, Encoder.notOneSat.IsModel row ∧
          interprete Encoder.notOneSat (Dimacs.resultText row) = .ok solution :=
  findAllSolutions_enumerates Encoder.notOne_wellFormed (by decide) Encoder.encode_notOne
    (by decide) ⟨[1, -2, -3, 4, 5, 6], by decide +kernel⟩ answers_bruteForce

end Solver

end Sato
