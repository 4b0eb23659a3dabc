import Sato.Dimacs.Verdict
import Sato.Parsing.Cancellation
import Sato.Parsing.Grammar
import Sato.Parsing.Meaning
import Sato.Parsing.Regular
import Sato.Parsing.Zero
import Sato.Script.Options

/-! # The script from its arguments to its verdict

The arguments pose a problem over integers: declared domains and clauses of written
constraints. What the script prints, what it lists and what it writes to the file
are statements about the solutions of that problem.
-/

namespace Sato

open Foundation

namespace CSP

section Parsed

variable {line : Str} {csp : CSP} (hok : parseExpression line = .ok csp)
include hok

/-- Every inequation of an accepted problem is read from a literal. -/
theorem exists_readAs_of_mem {clause : List Inequation} (hclause : clause ∈ csp.constraints)
    {e : Inequation} (he : e ∈ clause) :
    ∃ literals ∈ clauseLiterals line, ∃ literal ∈ literals, ∃ left op right form,
      SplitsAt literal left op right ∧
        Inequation.ReadAs csp.variables (literalSummands (ltrim left) right) e form := by
  obtain ⟨hdeclarations, hconstraints⟩ := parseExpression_eq_ok.mp hok
  obtain ⟨literals, hliterals, literal, hliteral, text, hmade, hparse⟩ :=
    exists_text_of_mem hconstraints hclause he
  obtain ⟨left, op, right, hsplit⟩ := hmade.exists_splitsAt
  obtain ⟨form, -, hread⟩ := hmade.readAs (declared_of_declarationTexts hdeclarations) hsplit
    (notMem_of_mem_clauseLiterals hliterals hliteral) hparse
  exact ⟨literals, hliterals, literal, hliteral, left, op, right, form, hsplit, hread⟩

/-- An accepted problem with distinct names is well formed. -/
theorem wellFormed_of_parseExpression
    (hnodup : (csp.variables.map IntegerVariable.name).Nodup) : csp.WellFormed where
  names_nodup := hnodup
  terms_mem := by
    intro clause hclause e he t ht
    obtain ⟨-, -, -, -, left, op, right, form, -, hread⟩ := exists_readAs_of_mem hok hclause he
    exact (IntegerVariable.varExistsInArray_eq_some (hread.reading.known t ht)).1

theorem exists_encode_of_noCancellation
    (hcancel : ∀ literals ∈ clauseLiterals line, ∀ literal ∈ literals, NoCancellation literal) :
    ∃ sat, Encoder.encode csp = .ok sat := by
  refine Encoder.exists_encode fun clause hclause e he t ht => ?_
  obtain ⟨literals, hliterals, literal, hliteral, left, op, right, form, hsplit, hread⟩ :=
    exists_readAs_of_mem hok hclause he
  obtain ⟨hname, hwritten⟩ := (hread.reading.names t.var.name).mp ⟨t, ht, rfl⟩
  rw [hread.reading.coeff_eq ht, writtenCoeff_literalSummands hname]
  exact hcancel literals hliterals literal hliteral left op right hsplit t.var.name hname
    ((exists_mem_literalSummands hname left right).mp hwritten)

end Parsed

end CSP

namespace Script

/-- The arguments pose a problem that the encoding can express: the constraints are
those of the clauses and are accepted, no name cancels out, no ranks run together, and
the sides of every constraint come close to each other. -/
structure Posed (items : List Item) (written : List (List Constraint)) : Prop where
  accepted : ∀ clause ∈ items.filterMap Item.clause?, ∀ literal ∈ clause.literals,
    CSP.Accepted (variablesOf items) literal
  texts : List.Forall₂ (fun clause texts => Clause.literals clause = texts.map Constraint.text)
    (items.filterMap Item.clause?) written
  declared : variablesOf items ≠ []
  names_nodup : ((variablesOf items).map IntegerVariable.name).Nodup
  zero : ∀ texts ∈ written, ∀ c ∈ texts, c.ZeroReadsZero
  noCancellation : ∀ texts ∈ written, ∀ c ∈ texts, NoCancellation c.text
  ranks : ¬ RanksClash (written.flatMap Constraint.widths)
  reached : ∀ texts ∈ written, ∀ c ∈ texts, c.Reached (variablesOf items)
  placed : Placed items

/-- The file that is written for the boolean solver. -/
def problemText (argv : List Str) : Except Str Str := do
  let csp ← CSP.parseExpression (joinArguments argv)
  let sat ← Encoder.encode csp
  sat.exportToDimacs []

/-- The values lie in the declared domains and meet a constraint of every clause. -/
def Solves (items : List Item) (written : List (List Constraint)) (σ : Assignment) : Prop :=
  InDomains σ (variablesOf items) ∧ CnfTrue (Constraint.Meets σ) written

namespace Posed

variable {items : List Item} {written : List (List Constraint)}

theorem clauseLiterals_eq (h : Posed items written) :
    CSP.clauseLiterals (joinArguments (plainArguments items)) =
      (items.filterMap Item.clause?).map Clause.literals := by
  have hwords : ∀ clause ∈ items.filterMap Item.clause?, clause.HasNonWords :=
    fun clause hclause literal hliteral => (h.accepted clause hclause literal hliteral).hasNonWord
  have hgroups : (items.filter Item.isPlain).filterMap Item.group? ≠ [] := by
    intro hnil
    have hdeclared := h.declared
    rw [variablesOf, ← filterMap_isPlain Item.declaration?_of_not_isPlain,
      ← filterMap_group_declaration, hnil] at hdeclared
    exact hdeclared rfl
  have hclauses := filterMap_isPlain Item.clause?_of_not_isPlain items
  rw [← filterMap_group_clause] at hclauses
  rw [plainArguments, flatMap_arguments (filterMap_file_plain items),
    CSP.joinArguments_groups hgroups, CSP.clauseLiterals_groups (by rwa [hclauses]), hclauses]

/-- A posed problem is parsed, encoded and expressed. -/
theorem exists_encoded (h : Posed items written) :
    ∃ csp sat, CSP.parseExpression (joinArguments (plainArguments items)) = .ok csp ∧
      csp.variables = variablesOf items ∧ csp.WellFormed ∧ Encoder.encode csp = .ok sat ∧
      ∀ σ, InDomains σ csp.variables ∧ Encoder.Expressible csp σ ↔ Solves items written σ := by
  obtain ⟨constraints, hparses, hok⟩ := parseExpression_plainArguments h.accepted
  have hcancel : ∀ literals ∈ CSP.clauseLiterals (joinArguments (plainArguments items)),
      ∀ literal ∈ literals, NoCancellation literal := by
    rw [h.clauseLiterals_eq, List.forall_mem_map]
    intro clause hclause literal hliteral
    obtain ⟨texts, htexts, heq⟩ := forall₂_exists_right h.texts hclause
    rw [heq] at hliteral
    obtain ⟨c, hc, rfl⟩ := List.mem_map.mp hliteral
    exact h.noCancellation texts htexts c hc
  obtain ⟨sat, hencode⟩ := CSP.exists_encode_of_noCancellation hok hcancel
  have hdeclared := declared_of_declarationTexts (CSP.parseExpression_eq_ok.mp hok).1
  refine ⟨_, sat, hok, rfl, CSP.wellFormed_of_parseExpression hok h.names_nodup, hencode,
    fun σ => and_congr_right fun _ => ?_⟩
  have hregular := CSP.regular_of_written hdeclared hparses h.texts h.zero h.ranks h.reached
  rw [hregular.expressible_iff, CSP.Satisfied,
    CSP.cnfTrue_flatten_iff hdeclared hparses h.texts h.zero]

/-- What the script writes for the boolean solver, and what it does with the encoded
problem. -/
theorem exists_main (h : Posed items written) :
    ∃ csp sat, csp.variables = variablesOf items ∧ csp.WellFormed ∧
      Encoder.encode csp = .ok sat ∧
      problemText (plainArguments items) = .ok (Solver.blockedFile sat []) ∧
      (∀ σ, InDomains σ csp.variables ∧ Encoder.Expressible csp σ ↔ Solves items written σ) ∧
      ∀ execute display fuel, main execute display fuel (items.flatMap Item.arguments) =
        finish execute display fuel (optionsOf items) (.ok sat) := by
  obtain ⟨csp, sat, hok, hvars, hwf, hencode, hiff⟩ := h.exists_encoded
  have hproblem : problemText (plainArguments items) = .ok (Solver.blockedFile sat []) :=
    bind_eq_ok.mpr ⟨csp, hok, bind_eq_ok.mpr ⟨sat, hencode,
      Solver.exportToDimacs_nil (Encoder.closed_encode hwf hencode)⟩⟩
  refine ⟨csp, sat, hvars, hwf, hencode, hproblem, hiff, fun execute display fuel => ?_⟩
  rw [main_eq_run h.accepted h.placed, run, hok]
  exact congrArg _ hencode

/-- The problem is posed by the declarations and clauses. -/
theorem of_plain (h : Posed items written) {other : List Item}
    (hplain : other.filter Item.isPlain = items.filter Item.isPlain)
    (hplaced : Placed other) : Posed other written := by
  have hvariables : variablesOf other = variablesOf items := by
    rw [variablesOf, variablesOf, filterMap_congr_plain Item.declaration?_of_not_isPlain hplain]
  have hclauses := filterMap_congr_plain Item.clause?_of_not_isPlain hplain
  constructor
  · rw [hvariables, hclauses]
    exact h.accepted
  · rw [hclauses]
    exact h.texts
  · rw [hvariables]
    exact h.declared
  · rw [hvariables]
    exact h.names_nodup
  · exact h.zero
  · exact h.noCancellation
  · exact h.ranks
  · rw [hvariables]
    exact h.reached
  · exact hplaced

end Posed

/-! ## One variable and one constraint -/

/-- The constraint `x!=1`. -/
def notOneConstraint : Constraint where
  left := ⟨false, .name (singleLetter 'x' rfl), []⟩
  op := .ne
  right := ⟨false, .number (singleDigit '1' rfl), []⟩

/-- The declaration of `x` over `0, .., 2` and the clause `[x!=1]`. -/
def notOneItems : List Item :=
  [.declaration ⟨singleLetter 'x' rfl, ⟨false, singleDigit '0' rfl⟩, ⟨false, singleDigit '2' rfl⟩,
      by decide⟩,
    .clause ⟨["x!=1".toList], by decide, by
      rw [List.forall_mem_singleton]; exact forall_isSpace_eq_false (by decide),
      by decide, by decide⟩]

theorem noCancellation_notOne : NoCancellation notOneConstraint.text := by
  intro left op right hsplit name hname hwritten
  obtain ⟨rfl, rfl, rfl⟩ := hsplit.unique (splitsAt_constraintText
    notOneConstraint.left notOneConstraint.op notOneConstraint.right)
  rw [← writtenCoeff_literalSummands hname]
  have hcoeff : ∀ x ∈ literalSummands (ltrim notOneConstraint.left.text)
      notOneConstraint.right.text, x.name ≠ [] → Summand.writtenCoeff x.name (literalSummands
        (ltrim notOneConstraint.left.text) notOneConstraint.right.text) ≠ 0 := by
    decide +kernel
  obtain ⟨x, hx, rfl⟩ := (exists_mem_literalSummands hname _ _).mpr hwritten
  exact hcoeff x hx hname

/-- The difference `x-1` is `-1` for the value zero and one for the value two. -/
theorem reached_notOne : notOneConstraint.Reached (variablesOf notOneItems) := by
  have hbounds : ∀ bound ∈ notOneConstraint.op.bounds, -1 ≤ bound ∧ bound ≤ 0 := by decide
  refine ⟨by decide +kernel, fun bound hbound => ?_⟩
  obtain ⟨hlow, hhigh⟩ := hbounds bound hbound
  have hleast : notOneConstraint.left.value (fun _ => 0) - notOneConstraint.right.value (fun _ => 0)
      = -1 := by decide
  have hgreatest : notOneConstraint.left.value (fun _ => 2) -
      notOneConstraint.right.value (fun _ => 2) = 1 := by decide
  have hnames : notOneConstraint.names.length = 1 := by decide +kernel
  refine ⟨⟨fun _ => 0, by unfold InDomains; decide, ?_⟩, fun _ => 2, by unfold InDomains; decide, ?_⟩
  · rw [hleast]
    omega
  · rw [hgreatest, hnames]
    omega

theorem posed_notOne : Posed notOneItems [[notOneConstraint]] where
  accepted := by decide +kernel
  texts := .cons rfl .nil
  declared := by decide
  names_nodup := by decide
  zero := by
    simp only [List.forall_mem_singleton, Constraint.zeroReadsZero_iff]
    exact fun _ _ _ _ hscaled => nomatch hscaled
  noCancellation := by
    simp only [List.forall_mem_singleton]
    exact noCancellation_notOne
  ranks := not_ranksClash_of_length_le (by decide)
  reached := by
    simp only [List.forall_mem_singleton]
    exact reached_notOne
  placed := placed_of_noFile rfl

/-! ## Outcomes -/

/-- Without `-i` and `-f` the script says whether the problem has a solution, after the
output of the boolean solver if `-v` asks for it. -/
theorem main_verdict {items : List Item} {written : List (List Constraint)}
    (h : Posed items written) (hfile : (optionsOf items).dimacsFile = none)
    (hinterprete : (optionsOf items).interprete = false) {execute : Solver.Execute}
    (hexecute : Solver.Answers execute) (display : Solver.Display) (fuel : ℕ) :
    ∃ problem, problemText (plainArguments items) = .ok problem ∧
      ((∃ σ, Solves items written σ) →
        main execute display fuel (items.flatMap Item.arguments) =
          some (.exit (Solver.displayed display (optionsOf items).verbose problem ++
            Solver.satisfiableText ++ ['\n']) none)) ∧
      ((¬ ∃ σ, Solves items written σ) →
        main execute display fuel (items.flatMap Item.arguments) =
          some (.exit (Solver.displayed display (optionsOf items).verbose problem ++
            Solver.unsatisfiableText ++ ['\n']) none)) := by
  obtain ⟨csp, sat, hvars, hwf, hencode, hproblem, hiff, hmain⟩ := h.exists_main
  have hdeclared : csp.variables ≠ [] := by
    rw [hvars]
    exact h.declared
  rw [hmain, finish, hfile, hinterprete]
  refine ⟨_, hproblem, fun hsome => ?_, fun hnone => ?_⟩
  · simp only [← hiff] at hsome
    rw [Solver.solve_of_exists hwf hdeclared hencode hexecute display hsome]
    rfl
  · simp only [← hiff] at hnone
    rw [Solver.solve_of_none hwf hdeclared hencode hexecute display hnone]
    rfl

theorem main_verdict_notOne :
    ∃ problem, problemText ["x".toList, "0".toList, "2".toList, "[x!=1]".toList] = .ok problem ∧
      ((∃ σ, Solves (.verbose :: notOneItems) [[notOneConstraint]] σ) →
        main Solver.bruteForce (fun _ problem => problem) 0 ["-v".toList, "x".toList,
            "0".toList, "2".toList, "[x!=1]".toList] =
          some (.exit ((problem ++ ['\n']) ++ Solver.satisfiableText ++ ['\n']) none)) ∧
      ((¬ ∃ σ, Solves (.verbose :: notOneItems) [[notOneConstraint]] σ) →
        main Solver.bruteForce (fun _ problem => problem) 0 ["-v".toList, "x".toList,
            "0".toList, "2".toList, "[x!=1]".toList] =
          some (.exit ((problem ++ ['\n']) ++ Solver.unsatisfiableText ++ ['\n']) none)) := by
  have hposed : Posed (.verbose :: notOneItems) [[notOneConstraint]] :=
    posed_notOne.of_plain rfl (placed_of_noFile rfl)
  exact main_verdict hposed rfl rfl Solver.answers_bruteForce (fun _ problem => problem) 0

/-- With `-i` the script lists the solutions, each once. -/
theorem main_solutions {items : List Item} {written : List (List Constraint)}
    (h : Posed items written) (hfile : (optionsOf items).dimacsFile = none)
    (hinterprete : (optionsOf items).interprete = true)
    (hnames : ∀ x ∈ variablesOf items, '_' ∉ x.name) {execute : Solver.Execute}
    (hexecute : Solver.Answers execute) (display : Solver.Display)
    (hsome : ∃ σ, Solves items written σ) :
    ∃ problem, problemText (plainArguments items) = .ok problem ∧
      ∃ solutions : List Interpretation, solutions.Nodup ∧
        (∀ solution, solution ∈ solutions ↔ ∃ σ, Solves items written σ ∧
          solution = (variablesOf items).map fun x => (x.name, intText (σ x.name))) ∧
        ∃ bound, ∀ fuel, bound < fuel →
          main execute display fuel (items.flatMap Item.arguments) =
            some (.exit (Solver.displayed display (optionsOf items).verbose problem ++
              Solver.satisfiableText ++ Solver.solutionsText (solutions.map some) ++ ['\n'])
                none) := by
  obtain ⟨csp, sat, hvars, hwf, hencode, hproblem, hiff, hmain⟩ := h.exists_main
  rw [← hvars] at hnames
  have hdeclared : csp.variables ≠ [] := by
    rw [hvars]
    exact h.declared
  simp only [← hiff] at hsome
  obtain ⟨solutions, hnodup, hmem, bound, hsolve⟩ :=
    Solver.exists_solutions hwf hdeclared hencode hexecute display hnames hsome
  refine ⟨_, hproblem, solutions, hnodup, fun solution => ?_, bound, fun fuel hfuel => ?_⟩
  · rw [hmem]
    simp only [hiff, Solver.solutionRow]
    rw [hvars]
  · rw [hmain, finish, hfile, hinterprete, hsolve fuel _ hfuel]
    rfl

theorem main_solutions_notOne :
    ∃ problem, problemText ["x".toList, "0".toList, "2".toList, "[x!=1]".toList] = .ok problem ∧
      ∃ solutions : List Interpretation, solutions.Nodup ∧
        (∀ solution, solution ∈ solutions ↔ ∃ σ, Solves (.interprete :: notOneItems)
          [[notOneConstraint]] σ ∧
          solution = (variablesOf notOneItems).map fun x => (x.name, intText (σ x.name))) ∧
        ∃ bound, ∀ fuel, bound < fuel →
          main Solver.bruteForce (fun _ problem => problem) fuel ["-i".toList, "x".toList,
            "0".toList, "2".toList, "[x!=1]".toList] =
            some (.exit ([] ++ Solver.satisfiableText ++
              Solver.solutionsText (solutions.map some) ++ ['\n']) none) := by
  have hsolves : Solves (.interprete :: notOneItems) [[notOneConstraint]] fun _ => 2 := by
    unfold Solves InDomains CnfTrue
    decide +kernel
  have hposed : Posed (.interprete :: notOneItems) [[notOneConstraint]] :=
    posed_notOne.of_plain rfl (placed_of_noFile rfl)
  exact main_solutions hposed rfl rfl (by decide) Solver.answers_bruteForce
    (fun _ problem => problem) ⟨_, hsolves⟩

/-- With `-f` the script writes a file that the bundled solver reads, and that has a
model exactly when the problem has a solution. -/
theorem main_file {items : List Item} {written : List (List Constraint)}
    (h : Posed items written) {path comment : Str}
    (hfile : (optionsOf items).dimacsFile = some (path, comment)) (hcomment : '\n' ∉ comment)
    (execute : Solver.Execute) (display : Solver.Display) (fuel : ℕ) :
    ∃ content read, main execute display fuel (items.flatMap Item.arguments) =
        some (.exit (createdText path) (some (path, content))) ∧
      Dimacs.parse content = some read ∧ read.count = read.clauses.length ∧
      ((∃ row, Models read.vars.toNat read.clauses row) ↔ ∃ σ, Solves items written σ) := by
  obtain ⟨csp, sat, hvars, hwf, hencode, -, hiff, hmain⟩ := h.exists_main
  have hclosed := Encoder.closed_encode hwf hencode
  have hmodels := Encoder.exists_isModel_iff_exists hwf hencode
  simp only [hiff] at hmodels
  have hparse := Dimacs.parse_exportText hcomment
    sat.variables.length sat.clauses.length hclosed.rows_ne_zero
  refine ⟨_, _, ?_, hparse, by simp [SAT.rows], hmodels⟩
  rw [hmain, finish, hfile]
  simp only [Solver.prepare, hclosed.exportToDimacs_eq]
  rfl

theorem main_file_notOne :
    let request : FileRequest := ⟨"out.dimacs".toList, some "bounds".toList, by decide,
      by simp [optionWords]⟩
    let items : List Item := .file request :: notOneItems
    ∃ content read, main Solver.bruteForce (fun _ problem => problem) 0
          (items.flatMap Item.arguments) =
        some (.exit (createdText request.path) (some (request.path, content))) ∧
      Dimacs.parse content = some read ∧ read.count = read.clauses.length ∧
      ((∃ row, Models read.vars.toNat read.clauses row) ↔
        ∃ σ, Solves items [[notOneConstraint]] σ) := by
  intro request items
  have hplaced : Placed items := by
    refine ⟨by decide, fun pre f post hitems hcomment => ?_⟩
    simp [items, notOneItems, List.cons_eq_append_iff] at hitems
    rw [hitems.2.1] at hcomment
    contradiction
  have hposed : Posed items [[notOneConstraint]] := posed_notOne.of_plain rfl hplaced
  have hrequest : (optionsOf items).dimacsFile = some ("out.dimacs".toList, "bounds".toList) := rfl
  exact main_file hposed hrequest (by decide) Solver.bruteForce _ 0

end Script

end Sato
