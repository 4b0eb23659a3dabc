import Sato.Parsing.Literal

/-! # Linear expressions

A constraint compares two linear expressions. Their texts have one summand for
each term, so the clauses parsed from a constraint compare the values of the two
expressions, unless the right side is taken for the text `"0"`.
-/

namespace Sato

open Foundation

/-! ## Syntax and value -/

/-- An unsigned decimal integer. -/
structure Numeral where
  digits : Str
  ne_nil : digits ≠ []
  isDigit_of_mem : ∀ c ∈ digits, isDigit c = true

/-- A name that a variable can be declared with. -/
structure VarName where
  text : Str
  isName : IsName text

def singleDigit (c : Char) (hc : isDigit c = true) : Numeral where
  digits := [c]
  ne_nil := List.cons_ne_nil c []
  isDigit_of_mem := by simp [hc]

def singleLetter (c : Char) (hc : isLetter c = true) : VarName where
  text := [c]
  isName := ⟨c, [], rfl, hc, by simp⟩

inductive Term where
  | number (size : Numeral)
  | name (x : VarName)
  | scaled (size : Numeral) (x : VarName)

namespace Term

def text : Term → Str
  | number size => size.digits
  | name x => x.text
  | scaled size x => size.digits ++ x.text

def value (σ : Assignment) : Term → ℤ
  | number size => digitsValue size.digits
  | name x => σ x.text
  | scaled size x => digitsValue size.digits * σ x.text

end Term

/-- A first term, perhaps after a minus sign, and terms each after a sign. The
flag of a later term is `true` for a plus sign. -/
structure LinearExpression where
  negative : Bool
  first : Term
  rest : List (Bool × Term)

namespace LinearExpression

def laterText (term : Bool × Term) : Str :=
  (if term.1 then '+' else '-') :: term.2.text

def text (e : LinearExpression) : Str :=
  (if e.negative then ['-'] else []) ++ (e.first.text ++ e.rest.flatMap laterText)

def signedValue (σ : Assignment) (positive : Bool) (term : Term) : ℤ :=
  if positive then term.value σ else -term.value σ

def value (σ : Assignment) (e : LinearExpression) : ℤ :=
  signedValue σ (!e.negative) e.first + (e.rest.map fun term => signedValue σ term.1 term.2).sum

end LinearExpression

/-! ## The text of a term -/

namespace Term

theorem isWord_of_mem {t : Term} {c : Char} (hc : c ∈ t.text) : isWord c = true := by
  cases t with
  | number size => exact isWord_of_isDigit (size.isDigit_of_mem c hc)
  | name x => exact x.isName.isWord_of_mem hc
  | scaled size x =>
      rcases List.mem_append.mp hc with hc | hc
      · exact isWord_of_isDigit (size.isDigit_of_mem c hc)
      · exact x.isName.isWord_of_mem hc

theorem text_ne_nil (t : Term) : t.text ≠ [] := by
  cases t with
  | number size => exact size.ne_nil
  | name x =>
      obtain ⟨c, s, hname, -⟩ := x.isName
      simp [text, hname]
  | scaled size x => exact List.append_ne_nil_of_left_ne_nil size.ne_nil x.text

/-- As a summand a term has its own value. -/
theorem summand_value (σ : Assignment) (positive : Bool) (t : Term) :
    (⟨positive, t.text⟩ : Summand).value σ = LinearExpression.signedValue σ positive t := by
  have hnil : ∀ c ∈ ([] : Str).head?, isDigit c = false := by simp
  cases t with
  | number size =>
      have htake := takeWhile_append_of_head size.isDigit_of_mem hnil
      have hdrop := dropWhile_append_of_head size.isDigit_of_mem hnil
      rw [List.append_nil] at htake hdrop
      have hsize : (⟨positive, size.digits⟩ : Summand).size = digitsValue size.digits := by
        simp [Summand.size, htake, size.ne_nil]
      simp only [Summand.value, Summand.number, Summand.weigh, Summand.name, text, hdrop, if_true,
        add_zero, Summand.coeff, hsize, LinearExpression.signedValue, value]
  | name x =>
      have htake := takeWhile_append_of_head (s := []) (p := isDigit) (by simp)
        x.isName.head?_not_isDigit
      have hdrop := dropWhile_append_of_head (s := []) (p := isDigit) (by simp)
        x.isName.head?_not_isDigit
      rw [List.nil_append] at htake hdrop
      have hne : x.text ≠ [] := text_ne_nil (.name x)
      have hsize : (⟨positive, x.text⟩ : Summand).size = 1 := by simp [Summand.size, htake]
      simp only [Summand.value, Summand.number, Summand.weigh, Summand.name, text, hdrop, hne,
        if_false, zero_add, Summand.coeff, hsize, LinearExpression.signedValue, value]
      cases positive <;> simp
  | scaled size x =>
      have htake := takeWhile_append_of_head size.isDigit_of_mem x.isName.head?_not_isDigit
      have hdrop := dropWhile_append_of_head size.isDigit_of_mem x.isName.head?_not_isDigit
      have hne : x.text ≠ [] := text_ne_nil (.name x)
      have hsize : (⟨positive, size.digits ++ x.text⟩ : Summand).size =
          digitsValue size.digits := by
        simp [Summand.size, htake, size.ne_nil]
      simp only [Summand.value, Summand.number, Summand.weigh, Summand.name, text, hdrop, hne,
        if_false, zero_add, Summand.coeff, hsize, LinearExpression.signedValue, value]
      cases positive <;> simp

end Term

/-! ## The text of an expression -/

namespace LinearExpression

def summands (e : LinearExpression) : List Summand :=
  ⟨!e.negative, e.first.text⟩ :: e.rest.map fun term => ⟨term.1, term.2.text⟩

theorem body_ne_nil (e : LinearExpression) {x : Summand} (hx : x ∈ e.summands) :
    x.body ≠ [] := by
  rcases List.mem_cons.mp hx with rfl | hx
  · exact e.first.text_ne_nil
  · obtain ⟨term, -, rfl⟩ := List.mem_map.mp hx
    exact term.2.text_ne_nil

theorem sum_summands (σ : Assignment) (e : LinearExpression) :
    (e.summands.map (Summand.value σ)).sum = e.value σ := by
  simp only [summands, List.map_cons, List.sum_cons, List.map_map, Term.summand_value, value]
  congr 2
  exact List.map_congr_left fun term _ => Term.summand_value σ term.1 term.2

/-- A character of an expression is a sign or belongs to a term. -/
theorem mem_text {e : LinearExpression} {c : Char} (hc : c ∈ e.text) :
    c = '-' ∨ c = '+' ∨ isWord c = true := by
  rw [text, List.mem_append, List.mem_append, List.mem_flatMap] at hc
  rcases hc with hc | hc | ⟨term, -, hc⟩
  · split at hc
    · exact Or.inl (by simpa using hc)
    · simp at hc
  · exact Or.inr (Or.inr (Term.isWord_of_mem hc))
  · rcases List.mem_cons.mp hc with rfl | hc
    · split
      · exact Or.inr (Or.inl rfl)
      · exact Or.inl rfl
    · exact Or.inr (Or.inr (Term.isWord_of_mem hc))

section Cut

variable {plus : Char → Bool}

theorem cut_of_isWord (hword : ∀ c, isWord c = true → plus c = false) {s : Str}
    (hs : ∀ c ∈ s, isWord c = true) : cut plus s = (s, []) := by
  induction s with
  | nil => rfl
  | cons c s ih =>
      have hc := hs c List.mem_cons_self
      have hminus : c ≠ '-' := ne_of_isWord hc rfl
      rw [cut, ih fun d hd => hs d (List.mem_cons_of_mem c hd)]
      simp [hminus, hword c hc]

variable (hplus : plus '+' = true) (hword : ∀ c, isWord c = true → plus c = false)
include hplus hword

theorem cut_text (first : Term) (rest : List (Bool × Term)) :
    cut plus (first.text ++ rest.flatMap laterText) =
      (first.text, rest.map fun term => ⟨term.1, term.2.text⟩) := by
  induction rest generalizing first with
  | nil =>
      rw [List.flatMap_nil, List.append_nil]
      exact cut_of_isWord hword fun _ => Term.isWord_of_mem
  | cons term rest ih =>
      have hsign : (if term.1 then '+' else '-') = '-' ∨
          plus (if term.1 then '+' else '-') = true := by
        cases term.1
        · exact Or.inl rfl
        · exact Or.inr hplus
      rw [List.flatMap_cons, laterText, List.cons_append, cut_append_cons _ _ hsign, ih,
        cut_of_isWord hword fun _ => Term.isWord_of_mem]
      cases term with
      | mk positive t => cases positive <;> simp

/-- The text of an expression has the summands of its terms. -/
theorem summands_text (e : LinearExpression) : Sato.summands plus e.text = e.summands := by
  have hcut := cut_text hplus hword e.first e.rest
  rw [text, summands]
  cases e.negative with
  | true => simp [Sato.summands, hcut]
  | false =>
      obtain ⟨c, s, heq⟩ := List.exists_cons_of_ne_nil e.first.text_ne_nil
      have hminus : c ≠ '-' :=
        ne_of_isWord (Term.isWord_of_mem (t := e.first) (by simp [heq])) rfl
      rw [heq, List.cons_append] at hcut
      simp [Sato.summands, heq, hcut, hminus]

end Cut

theorem not_mem_text (e : LinearExpression) {c : Char} (hminus : c ≠ '-') (hplus : c ≠ '+')
    (hword : isWord c = false) : c ∉ e.text := by
  intro hmem
  rcases mem_text hmem with h | h | h
  · exact hminus h
  · exact hplus h
  · rw [hword] at h
    contradiction

theorem noRelation_text (e : LinearExpression) : NoRelation e.text := by
  intro c hc
  by_contra hrelation
  simp only [isRelation, Bool.not_eq_false, Bool.or_eq_true, beq_iff_eq] at hrelation
  rcases hrelation with (rfl | rfl) | rfl
  · exact e.not_mem_text (by decide) (by decide) rfl hc
  · exact e.not_mem_text (by decide) (by decide) rfl hc
  · exact e.not_mem_text (by decide) (by decide) rfl hc

theorem ltrim_text (e : LinearExpression) : ltrim e.text = e.text := by
  refine ltrim_eq_self fun c hc => ?_
  by_contra htrimmed
  have hmem : c ∈ e.text := List.mem_of_mem_head? hc
  simp only [isTrimmed, Bool.not_eq_false, Bool.or_eq_true, beq_iff_eq] at htrimmed
  refine e.not_mem_text ?_ ?_ ?_ hmem <;>
    rcases htrimmed with ((((rfl | rfl) | rfl) | rfl) | rfl) | rfl <;> decide

end LinearExpression

/-- The text of a constraint. -/
def constraintText (left : LinearExpression) (op : Op) (right : LinearExpression) : Str :=
  left.text ++ (op.text ++ right.text)

theorem splitsAt_constraintText (left : LinearExpression) (op : Op) (right : LinearExpression) :
    SplitsAt (constraintText left op right) left.text op right.text where
  text := rfl
  left_free := left.noRelation_text
  right_free := right.noRelation_text
  not_bang := fun _ hlast =>
    left.not_mem_text (by decide) (by decide) rfl (List.mem_of_getLast? hlast)

/-- The term loop is given one summand for each term. -/
theorem literalSummands_text (left right : LinearExpression) :
    literalSummands (ltrim left.text) right.text =
      left.summands ++ if looseEqZero right.text then [] else right.summands.map Summand.flip := by
  have hleft : summands isPlus left.text = left.summands := by
    refine LinearExpression.summands_text rfl (fun c hc => ?_) left
    rw [isPlus, beq_eq_false_iff_ne]
    exact ne_of_isWord hc rfl
  have hright : summands isMovedPlus right.text = right.summands := by
    refine LinearExpression.summands_text rfl (fun c hc => ?_) right
    rw [isMovedPlus, Bool.or_eq_false_iff, beq_eq_false_iff_ne, beq_eq_false_iff_ne]
    exact ⟨ne_of_isWord hc rfl, ne_of_isWord hc rfl⟩
  rw [literalSummands, LinearExpression.ltrim_text, hleft, hright, List.filter_eq_self]
  intro x hx
  have hbody : x.body ≠ [] := by
    rcases List.mem_append.mp hx with hx | hx
    · exact left.body_ne_nil hx
    · split at hx
      · simp at hx
      · obtain ⟨y, hy, rfl⟩ := List.mem_map.mp hx
        have hne : y.body ≠ [] := right.body_ne_nil hy
        exact hne
  rw [Summand.text]
  split <;> simp [hbody]

theorem sum_literalSummands (left right : LinearExpression) (σ : Assignment) :
    ((literalSummands (ltrim left.text) right.text).map (Summand.value σ)).sum =
      left.value σ - if looseEqZero right.text then 0 else right.value σ := by
  rw [literalSummands_text, List.map_append, List.sum_append, left.sum_summands]
  split
  · simp
  · have hflip : ∀ xs : List Summand, ((xs.map Summand.flip).map (Summand.value σ)).sum =
        -(xs.map (Summand.value σ)).sum := by
      intro xs
      induction xs with
      | nil => rfl
      | cons x xs ih =>
          simp only [List.map_cons, List.sum_cons, ih, Summand.flip_value]
          ring
    rw [hflip, right.sum_summands, sub_eq_add_neg]

namespace CSP

/-- The parsed clauses mean what the constraint says exactly when its right side
is not taken for the text `"0"`, or comparing with zero gives the same. -/
theorem parsed_meaning_iff {vars : List IntegerVariable} (hvars : Declared vars)
    {left right : LinearExpression} {op : Op} {cnf : List (List Str)}
    (hnormal : normalizeExpression (constraintText left op right) = .ok cnf)
    {clauses : List (List Inequation)}
    (hparse : cnf.mapM (fun clause => clause.mapM fun text =>
      Inequation.parseExpression text vars) = .ok clauses) (σ : Assignment) :
    (CnfTrue (Inequation.Holds σ) clauses ↔ op.Compare (left.value σ) (right.value σ)) ↔
      (looseEqZero right.text = true →
        (op.Compare (left.value σ) 0 ↔ op.Compare (left.value σ) (right.value σ))) := by
  have hsplit := splitsAt_constraintText left op right
  obtain rfl : op.constraints (movedSides left.text right.text) = cnf :=
    Except.ok.inj ((normalizeExpression_eq_ok.mpr ⟨_, op, _, hsplit, rfl⟩).symm.trans hnormal)
  have hline : '\n' ∉ constraintText left op right := by
    simp only [constraintText, List.mem_append, not_or]
    refine ⟨left.not_mem_text (by decide) (by decide) rfl, ?_,
      right.not_mem_text (by decide) (by decide) rfl⟩
    cases op <;> decide
  rw [Inequation.cnfTrue_iff_compare hvars hsplit hline hparse, sum_literalSummands]
  by_cases hzero : looseEqZero right.text = true
  · simp [hzero]
  · simp [hzero, Op.compare_sub]

/-- `2x-y<=x` is read as `x-y<=0`. -/
theorem parsed_meaning_repeated :
    let x : IntegerVariable := ⟨['x'], ⟨0, 2, by decide⟩⟩
    let y : IntegerVariable := ⟨['y'], ⟨0, 2, by decide⟩⟩
    let left : LinearExpression :=
      ⟨false, .scaled (singleDigit '2' rfl) (singleLetter 'x' rfl),
        [(false, .name (singleLetter 'y' rfl))]⟩
    let right : LinearExpression := ⟨false, .name (singleLetter 'x' rfl), []⟩
    let clauses : List (List Inequation) :=
      [[{ terms := [⟨x, 1⟩, ⟨y, -1⟩], «variables» := [x, y], const := 0 }]]
    (CnfTrue (Inequation.Holds fun _ => 1) clauses ↔
        Op.le.Compare (left.value fun _ => 1) (right.value fun _ => 1)) ↔
      (looseEqZero right.text = true →
        (Op.le.Compare (left.value fun _ => 1) 0 ↔
          Op.le.Compare (left.value fun _ => 1) (right.value fun _ => 1))) := by
  intro x y left right clauses
  have hvars : Declared [x, y] := by
    intro v hv
    rcases List.mem_pair.mp hv with rfl | rfl
    · exact (singleLetter 'x' rfl).isName
    · exact (singleLetter 'y' rfl).isName
  have hnormal : normalizeExpression (constraintText left .le right) =
      .ok [["2x-y-x<=0".toList]] := by decide +kernel
  have hparse : [["2x-y-x<=0".toList]].mapM (fun clause => clause.mapM fun text =>
      Inequation.parseExpression text [x, y]) = .ok clauses := by decide +kernel
  exact parsed_meaning_iff hvars hnormal hparse fun _ => 1

/-- `x<=0e-5` is read as `x<=0`: its right side is a numeral whose value is zero. -/
theorem parsed_meaning_zero_exponent :
    let x : IntegerVariable := ⟨['x'], ⟨-9, 2, by decide⟩⟩
    let e : IntegerVariable := ⟨['e'], ⟨0, 2, by decide⟩⟩
    let left : LinearExpression := ⟨false, .name (singleLetter 'x' rfl), []⟩
    let right : LinearExpression :=
      ⟨false, .scaled (singleDigit '0' rfl) (singleLetter 'e' rfl),
        [(false, .number (singleDigit '5' rfl))]⟩
    let clauses : List (List Inequation) :=
      [[{ terms := [⟨x, 1⟩], «variables» := [x, e], const := 0 }]]
    constraintText left .le right = "x<=0e-5".toList ∧
      normalizeExpression (constraintText left .le right) = .ok [["x<=0".toList]] ∧
      [["x<=0".toList]].mapM (fun clause => clause.mapM fun text =>
        Inequation.parseExpression text [x, e]) = .ok clauses ∧
      CnfTrue (Inequation.Holds fun _ => 0) clauses ∧
      ¬ Op.le.Compare (left.value fun _ => 0) (right.value fun _ => 0) := by
  decide +kernel

end CSP

end Sato
