import Sato.Foundation.Words
import Sato.Parsing.Distribution
import Sato.Parsing.Literal

/-! # Declarations and clauses of the command line

The declarations give the variables their names, and the clauses are split in
literals without white space. Every text that the first normaliser makes of a
literal is read, and every inequation comes from such a text.
-/

namespace Sato

open Foundation

/-! ## Words -/

namespace IntegerVariable

theorem isSpace_of_mem_words {s word : Str} (hword : word ∈ words s) {c : Char} (hc : c ∈ word) :
    isSpace c = false := by
  rw [words, pregSplitNoEmpty_plus] at hword
  exact not_of_mem_splitOnP (List.mem_of_mem_filter hword) hc

/-- The first word of a declaration is a name. -/
theorem exists_words_declaration {line text : Str} (htext : text ∈ CSP.declarationTexts line) :
    ∃ name later, words text = name :: later ∧ IsName name := by
  obtain ⟨m, hm, rfl⟩ := List.mem_map.mp htext
  obtain ⟨start, t, rest, hrun⟩ := mem_pregMatchAll hm
  obtain ⟨space, hspace, m1, h1, heq1⟩ := Regex.mem_run_seq.mp hrun
  obtain ⟨letter, hletter, m2, h2, heq2⟩ := Regex.mem_run_seq.mp h1
  obtain ⟨word, hword, m3, h3, heq3⟩ := Regex.mem_run_seq.mp h2
  obtain ⟨space', hspace', m4, -, heq4⟩ := Regex.mem_run_seq.mp h3
  obtain ⟨c, hc, hcspace⟩ := Regex.mem_run_cls hspace
  obtain ⟨d, hd, hdletter⟩ := Regex.mem_run_cls hletter
  obtain ⟨e, he, hespace⟩ := Regex.mem_run_cls hspace'
  have hall := Regex.mem_run_star hword
  have htext : m.text = c :: ((d :: word.1.text) ++ e :: m4.1.text) := by
    rw [(Prod.mk.inj heq1).1, heq2, heq3, heq4]
    simp [Match.append, hc, hd, he]
  have hname : IsName (d :: word.1.text) := ⟨d, word.1.text, rfl, hdletter, hall⟩
  rw [htext]
  have hword : ∀ f ∈ d :: word.1.text, isSpace f = false := fun f hf =>
    isSpace_of_isWord (hname.isWord_of_mem hf)
  refine ⟨d :: word.1.text, words m4.1.text, ?_, hname⟩
  rw [words, words_cons hcspace, words_append_cons (List.cons_ne_nil _ _) hword hespace, words]

theorem isName_of_parseExpression {line text : Str} (htext : text ∈ CSP.declarationTexts line)
    {x : IntegerVariable} (hok : parseExpression text = .ok x) : IsName x.name := by
  obtain ⟨name, later, hwords, hname⟩ := exists_words_declaration htext
  unfold parseExpression at hok
  rw [hwords] at hok
  split at hok
  next heq =>
    split at hok
    next => rw [← Except.ok.inj hok, ← (List.cons.inj heq).1]; exact hname
    next => contradiction
  next => contradiction

end IntegerVariable

theorem declared_of_declarationTexts {line : Str} {vars : List IntegerVariable}
    (hok : (CSP.declarationTexts line).mapM IntegerVariable.parseExpression = .ok vars) :
    Declared vars := by
  intro v hv
  obtain ⟨text, htext, hparse⟩ := forall₂_exists_left (mapM_eq_ok.mp hok) hv
  exact IntegerVariable.isName_of_parseExpression htext hparse

namespace CSP

/-! ## Clauses -/

theorem notMem_of_mem_clauseLiterals {line : Str} {literals : List Str}
    (hliterals : literals ∈ clauseLiterals line) {literal : Str} (hliteral : literal ∈ literals) :
    '\n' ∉ literal := by
  obtain ⟨m, -, rfl⟩ := List.mem_map.mp hliterals
  intro hmem
  have hspace := IntegerVariable.isSpace_of_mem_words hliteral hmem
  contradiction

/-- A text that the first normaliser makes of a literal. -/
def MadeFrom (literal text : Str) : Prop :=
  ∃ cnf, normalizeExpression literal = .ok cnf ∧ text ∈ cnf.flatten

theorem MadeFrom.mem_constraints {literal text left right : Str} {op : Op}
    (h : MadeFrom literal text) (hsplit : SplitsAt literal left op right) :
    text ∈ (op.constraints (movedSides left right)).flatten := by
  obtain ⟨cnf, hnormal, htext⟩ := h
  obtain rfl : op.constraints (movedSides left right) = cnf :=
    Except.ok.inj ((normalizeExpression_eq_ok.mpr ⟨left, op, right, hsplit, rfl⟩).symm.trans
      hnormal)
  exact htext

/-- An inequation made of a literal has the summands of the literal. -/
theorem MadeFrom.readAs {vars : List IntegerVariable} (hvars : Declared vars)
    {literal text left right : Str} {op : Op} (hmade : MadeFrom literal text)
    (hsplit : SplitsAt literal left op right) (hline : '\n' ∉ literal) {e : Inequation}
    (hok : Inequation.parseExpression text vars = .ok e) :
    ∃ form ∈ op.forms.flatten,
      Inequation.ReadAs vars (literalSummands (ltrim left) right) e form := by
  obtain ⟨clause, hclause, htext⟩ := List.mem_flatten.mp (hmade.mem_constraints hsplit)
  obtain ⟨forms, hmem, hforms⟩ := forall₂_exists_right
    (Inequation.constraints_readLeft hvars hsplit hline) hclause
  obtain ⟨form, hform, hread⟩ := forall₂_exists_right hforms htext
  exact ⟨form, List.mem_flatten.mpr ⟨forms, hmem, hform⟩, hread e hok⟩

theorem MadeFrom.exists_splitsAt {literal text : Str} (h : MadeFrom literal text) :
    ∃ left op right, SplitsAt literal left op right := by
  obtain ⟨cnf, hnormal, -⟩ := h
  obtain ⟨left, op, right, hsplit, -⟩ := normalizeExpression_eq_ok.mp hnormal
  exact ⟨left, op, right, hsplit⟩

/-- The first normaliser accepts the literal, and every text it makes is read. -/
def Accepted (vars : List IntegerVariable) (literal : Str) : Prop :=
  ∃ cnf, normalizeExpression literal = .ok cnf ∧
    ∀ text ∈ cnf.flatten, ∃ e, Inequation.parseExpression text vars = .ok e

def accepts (vars : List IntegerVariable) (literal : Str) : Bool :=
  match normalizeExpression literal with
  | .ok cnf => cnf.flatten.all fun text => (Inequation.parseExpression text vars).isOk
  | .error _ => false

theorem accepts_iff {vars : List IntegerVariable} {literal : Str} :
    accepts vars literal = true ↔ Accepted vars literal := by
  have hok : ∀ text, (Inequation.parseExpression text vars).isOk = true ↔
      ∃ e, Inequation.parseExpression text vars = .ok e := by
    intro text
    cases Inequation.parseExpression text vars <;> simp [Except.isOk, Except.toBool]
  unfold accepts Accepted
  cases normalizeExpression literal with
  | ok cnf => simp only [List.all_eq_true, hok, Except.ok.injEq, exists_eq_left']
  | error message => simp

instance (vars : List IntegerVariable) (literal : Str) : Decidable (Accepted vars literal) :=
  decidable_of_iff (accepts vars literal = true) accepts_iff

theorem exists_madeFrom {literal left right : Str} {op : Op}
    (hsplit : SplitsAt literal left op right) : ∃ text, MadeFrom literal text := by
  have hnormal := normalizeExpression_eq_ok.mpr ⟨left, op, right, hsplit, rfl⟩
  have hne : ∃ text, text ∈ (op.constraints (movedSides left right)).flatten := by
    cases op <;> exact ⟨_, List.mem_flatten.mpr ⟨_, List.mem_cons_self, List.mem_cons_self⟩⟩
  obtain ⟨text, htext⟩ := hne
  exact ⟨text, _, hnormal, htext⟩

theorem mem_flatten_distributeLiterals {literals : List Str} {set : List (List Str)}
    (hok : distributeLiterals literals = .ok set) {text : Str} :
    text ∈ set.flatten ↔ ∃ literal ∈ literals, MadeFrom literal text := by
  refine foldlM_induction
    (fun before set => text ∈ set.flatten ↔ ∃ literal ∈ before, MadeFrom literal text)
    hok (by simp) fun before literal state next _ hbefore hnext => ?_
  obtain ⟨cnf, hcnf, hnext⟩ := bind_eq_ok.mp hnext
  rw [← pure_eq_ok.mp hnext, mem_flatten_distribute, hbefore]
  have hlast : text ∈ cnf.flatten ↔ MadeFrom literal text := by
    constructor
    · exact fun hmem => ⟨cnf, hcnf, hmem⟩
    · rintro ⟨other, hother, hmem⟩
      rw [Except.ok.inj (hcnf.symm.trans hother)]
      exact hmem
  rw [hlast]
  simp only [List.mem_append, List.mem_singleton, or_and_right, exists_or, exists_eq_left]

/-- The texts that are read are those made of the literals. -/
theorem mem_flatten_constraintTexts {line : Str} {constraints : List (List Str)}
    (hok : constraintTexts line = .ok constraints) {text : Str} :
    text ∈ constraints.flatten ↔
      ∃ literals ∈ clauseLiterals line, ∃ literal ∈ literals, MadeFrom literal text := by
  obtain ⟨sets, hsets, hflatten⟩ := bind_eq_ok.mp hok
  obtain rfl := pure_eq_ok.mp hflatten
  constructor
  · intro htext
    obtain ⟨texts, htexts, htext⟩ := List.mem_flatten.mp htext
    obtain ⟨set, hset, htexts⟩ := List.mem_flatten.mp htexts
    obtain ⟨literals, hliterals, hdistribute⟩ := forall₂_exists_left (mapM_eq_ok.mp hsets) hset
    exact ⟨literals, hliterals, (mem_flatten_distributeLiterals hdistribute).mp
      (List.mem_flatten.mpr ⟨texts, htexts, htext⟩)⟩
  · rintro ⟨literals, hliterals, hmade⟩
    obtain ⟨set, hset, hdistribute⟩ := forall₂_exists_right (mapM_eq_ok.mp hsets) hliterals
    obtain ⟨texts, htexts, htext⟩ := List.mem_flatten.mp
      ((mem_flatten_distributeLiterals hdistribute).mpr hmade)
    exact List.mem_flatten.mpr ⟨texts, List.mem_flatten.mpr ⟨set, hset, htexts⟩, htext⟩

section Constraints

-- the texts may be read over integers or over the numbers of the machine
variable {α : Type} {line : Str} {read : Str → Except Str α} {clauses : List (List α)}
  (hok : (constraintTexts line >>= fun constraints =>
    constraints.mapM fun clause => clause.mapM read) = .ok clauses)
include hok

/-- Every inequation is read from a text made of a literal. -/
theorem exists_text_of_mem {clause : List α} (hclause : clause ∈ clauses) {e : α}
    (he : e ∈ clause) :
    ∃ literals ∈ clauseLiterals line, ∃ literal ∈ literals, ∃ text, MadeFrom literal text ∧
      read text = .ok e := by
  obtain ⟨constraints, hconstraints, hparse⟩ := bind_eq_ok.mp hok
  obtain ⟨texts, htexts, hread⟩ := forall₂_exists_left (mapM_eq_ok.mp hparse) hclause
  obtain ⟨text, htext, hread⟩ := forall₂_exists_left (mapM_eq_ok.mp hread) he
  obtain ⟨literals, hliterals, literal, hliteral, hmade⟩ :=
    (mem_flatten_constraintTexts hconstraints).mp (List.mem_flatten.mpr ⟨texts, htexts, htext⟩)
  exact ⟨literals, hliterals, literal, hliteral, text, hmade, hread⟩

/-- Every text made of a literal is read. -/
theorem exists_mem_of_text {literals : List Str} (hliterals : literals ∈ clauseLiterals line)
    {literal : Str} (hliteral : literal ∈ literals) {text : Str} (hmade : MadeFrom literal text) :
    ∃ clause ∈ clauses, ∃ e ∈ clause, read text = .ok e := by
  obtain ⟨constraints, hconstraints, hparse⟩ := bind_eq_ok.mp hok
  obtain ⟨texts, htexts, htext⟩ := List.mem_flatten.mp
    ((mem_flatten_constraintTexts hconstraints).mpr ⟨literals, hliterals, literal, hliteral, hmade⟩)
  obtain ⟨clause, hclause, hread⟩ := forall₂_exists_right (mapM_eq_ok.mp hparse) htexts
  obtain ⟨e, he, hread⟩ := forall₂_exists_right (mapM_eq_ok.mp hread) htext
  exact ⟨clause, hclause, e, he, hread⟩

end Constraints

theorem parseExpression_eq_ok {line : Str} {csp : CSP} :
    parseExpression line = .ok csp ↔
      (declarationTexts line).mapM IntegerVariable.parseExpression = .ok csp.variables ∧
        parseConstraints line csp.variables = .ok csp.constraints := by
  unfold parseExpression
  rw [bind_eq_ok]
  simp only [mapError_eq_ok, bind_eq_ok, pure_eq_ok]
  constructor
  · rintro ⟨vars, hvars, clauses, hclauses, rfl⟩
    exact ⟨hvars, hclauses⟩
  · rintro ⟨hvars, hclauses⟩
    exact ⟨_, hvars, _, hclauses, rfl⟩

end CSP

end Sato
