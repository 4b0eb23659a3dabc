import Sato.Foundation.Number
import Sato.Foundation.Text
import Sato.Source.LinearTerm
import Sato.Source.PrimitiveComparison

/-! # `Inequation`

A signed linear inequation, its translation to a formula over primitive
comparisons, and its parser.
-/

namespace Sato

open Foundation ComparisonBase

structure Inequation extends ComparisonBase where
  terms : List LinearTerm
  «variables» : List IntegerVariable
  deriving DecidableEq

namespace Inequation

/-! ## Translation -/

/-- The inner loop of `getTermsDomain`. -/
def termDomain (t : LinearTerm) : List ℤ := loopRange (t.getLowerBound - 1) t.getUpperBound

def getTermsDomain (e : Inequation) : List (List ℤ) := e.terms.map termDomain

/-- The comparison built for one term and its share of the constant. -/
def primComp (sign : Bool) (t : LinearTerm) (b : ℤ) : Except Str PrimitiveComparison := do
  let p ← (t.var.compare b true).hashTranslation t.coeff
  return if sign then p else p.inverseSign

/-- The clause of one combination. -/
def combiClause (e : Inequation) (combi : List ℤ) : Except Str (List PrimitiveComparison) :=
  (combi.zip e.terms).mapM fun share => primComp e.sign share.2 share.1

/-- `c - n + 1`. -/
def target (e : Inequation) : ℤ := e.const - e.terms.length + 1

/-- The formula of the negative form: one negated literal of every clause. -/
def negatedCNF (cnf : List (List PrimitiveComparison)) : List (List PrimitiveComparison) :=
  (computeCombinaisons cnf []).eraseDups.map List.eraseDups

/-- `array_unique` with `SORT_REGULAR` compares objects property by property,
so it keeps the first of structurally equal entries. -/
def computeCNF (e : Inequation) : Except Str (List (List PrimitiveComparison)) := do
  let combinaisons := computeCombinaisons e.getTermsDomain []
  let cnf ← (combinaisons.filter fun combi => combi.sum = e.target).mapM e.combiClause
  let cnf := cnf.eraseDups
  let cnf := if e.sign then cnf else negatedCNF cnf
  return if cnf.isEmpty then [[]] else cnf

/-! ## Parsing -/

def parseError : Str := "Inequation class : invalid expression given.\n".toList

def coeffError : Str := "Inequation class : coefficient cannot equal 0.\n".toList

def variableError (x : Str) : Str :=
  "Inequation class : variable ".toList ++ x ++
    " in expression is not in the array of variables.\n".toList

/-- `/^\-\((.*)\)$/`. -/
def negatedPattern : Regex :=
  .seq .bol (.seq (.lit "-(".toList) (.seq (.group (.star (· != '\n'))) (.seq (.lit [')']) .eol)))

/-- The removal of `-( )` at the head of `normalizeExpression`. -/
def removeNegation (expression : Str) (sign : Bool) : Str × Bool :=
  match pregMatch negatedPattern expression with
  | some ⟨_, [inner]⟩ => (inner, !sign)
  | _ => (expression, sign)

/-- `/>=|<[^=]/`. -/
def shiftedPattern : Regex := .alt (.lit ">=".toList) (.seq (.lit ['<']) (.cls (· != '=')))

/-- `preg_replace(["/</", "/>=/", "/>/"], "<=", $expression)`. -/
def replaceRelations (expression : Str) : Str :=
  pregReplace (.lit ['>']) "<=".toList
    (pregReplace (.lit ">=".toList) "<=".toList
      (pregReplace (.lit ['<']) "<=".toList expression))

/-- The source calls itself on the text with its relations replaced. That text
has a `<=`, so the second call ends after its own removal of `-( )`. -/
def normalizeExpression (expression : Str) (sign : Bool) : Except Str (Str × Bool) :=
  let (expression, sign) := removeNegation expression sign
  if pregTest (.lit "<=".toList) expression then .ok (expression, sign)
  else
    let sign := if pregTest (.lit ['>']) expression then !sign else sign
    let expression := if pregTest shiftedPattern expression then "1+".toList ++ expression
      else expression
    let exp := replaceRelations expression
    if exp = expression then .error parseError else .ok (removeNegation exp sign)

/-- `/^-?\d+/`. -/
def coeffPattern : Regex := .seq .bol (.seq (.opt (· == '-')) (.plus isDigit))

/-- The coefficient written before a term and the text after it. A number of more than
64 bits is cast to the nearest one, whose text is not that of the number. -/
def readCoeff (term : Str) : ℤ × Str :=
  match pregMatch coeffPattern term with
  | some m =>
      let coeff := saturate (intval m.text)
      (coeff, pregReplace (.seq .bol (.lit (intText coeff))) [] term)
  | none =>
      let minus : Regex := .seq .bol (.lit ['-'])
      if pregTest minus term then (-1, pregReplace minus [] term) else (1, term)

/-- What the term loop updates: `$terms` and `$split[1]`. -/
structure TermState where
  terms : List LinearTerm
  const : ℤ

/-- One pass of the term loop, over integers of any size. -/
def addTerm (vars : List IntegerVariable) (state : TermState) (term : Str) :
    Except Str TermState :=
  let (coeff, x) := readCoeff term
  if x = [] then .ok { state with const := state.const + -1 * coeff }
  else if coeff = 0 then .error coeffError
  else
    match IntegerVariable.varExistsInArray x vars with
    | none => .error (variableError x)
    | some var =>
        match LinearTerm.varExistsInArray var state.terms with
        | none => .ok { state with terms := state.terms ++ [⟨var, coeff⟩] }
        | some key => .ok { state with terms := state.terms.modify key (·.addCoeff coeff) }

/-- Every `-` is put after a `+`, then the text is split at `+` without empty parts. -/
def splitTerms (side : Str) : List Str :=
  pregSplitNoEmpty (.cls (· == '+')) (pregReplace (.cls (· == '-')) "+-".toList side)

/-- What comes before the term loop: its terms, `$split[1]` and the sign. -/
def splitExpression (expression : Str) : Except Str (List Str × Str × Bool) := do
  let (expression, sign) ← normalizeExpression (trim expression) true
  match pregSplit (.lit "<=".toList) expression with
  | [left, right] => return (splitTerms left, right, sign)
  | _ => .error parseError

def parseExpression (expression : Str) (vars : List IntegerVariable) : Except Str Inequation := do
  let (splitTerms, right, sign) ← splitExpression expression
  let state ← splitTerms.foldlM (addTerm vars) ⟨[], intval right⟩
  return { terms := state.terms, «variables» := vars, const := state.const, sign }

end Inequation

end Sato
