import Sato.Source.Inequation

/-! # `CSP`

A constraint satisfaction problem: integer variables and clauses of signed
inequations. It computes the clauses of its constraints and of its variables,
and it is parsed from the text of the command line.
-/

namespace Sato

open Foundation

structure CSP where
  «variables» : List IntegerVariable
  constraints : List (List Inequation)
  deriving DecidableEq

namespace CSP

/-! ## Encoding -/

/-- `"q".$index.$i`. -/
def qName (index i : ℕ) : Str := 'q' :: (natText index ++ natText i)

/-- The clauses `-q` or `clause` for the clauses of one literal. -/
def definition (q : Str) (literalCNF : List (List PrimitiveComparison)) : List (List Str) :=
  literalCNF.map fun clause => ('-' :: q) :: clause.map PrimitiveComparison.predicateEquivalent

/-- What the loop over a clause updates: the first clause of `$clauseCNF`, the
clauses after it, and `$boolVars`. -/
structure ClauseState where
  names : List Str
  definitions : List (List Str)
  boolVars : List Str

/-- One pass of the loop over the literals of the clause at rank `index`. -/
def clauseStep (index : ℕ) (state : ClauseState) (literal : Inequation × ℕ) :
    Except Str ClauseState := do
  let q := qName index literal.2
  let literalCNF ← literal.1.computeCNF
  return {
    names := state.names ++ [q]
    definitions := state.definitions ++ definition q literalCNF
    boolVars := state.boolVars ++ [q] }

def computeClauseCNF (c : List Inequation) (index : ℕ) (boolVars : List Str) :
    Except Str (List (List Str) × List Str) := do
  let state ← c.zipIdx.foldlM (clauseStep index) ⟨[], [], boolVars⟩
  return (state.names :: state.definitions, state.boolVars)

/-- One pass of the loop over the constraints. -/
def globalStep (acc : List (List Str) × List Str) (clause : List Inequation × ℕ) :
    Except Str (List (List Str) × List Str) := do
  let (clauseCNF, boolVars) ← computeClauseCNF clause.1 clause.2 acc.2
  return (acc.1 ++ clauseCNF, boolVars)

def computeGlobalCNF (csp : CSP) (boolVars : List Str) :
    Except Str (List (List Str) × List Str) :=
  csp.constraints.zipIdx.foldlM globalStep ([], boolVars)

/-- One pass of the loop over the variables. -/
def relationStep (acc : List (List Str) × List Str) (x : IntegerVariable) :
    List (List Str) × List Str :=
  let (bounds, boolVars) := x.predicateBounds acc.2
  let (order, boolVars) := x.predicateOrderRelation boolVars
  (acc.1 ++ bounds ++ order, boolVars)

def predicateOrderRelations (csp : CSP) (boolVars : List Str) : List (List Str) × List Str :=
  csp.variables.foldl relationStep ([], boolVars)

/-! ## Parsing -/

/-- `array_unique` compares texts exactly. -/
def distribute (cnf1 cnf2 : List (List Str)) : List (List Str) :=
  if cnf1.isEmpty then cnf2
  else if cnf2.isEmpty then cnf1
  else cnf1.flatMap fun clause1 => cnf2.map fun clause2 => (clause1 ++ clause2).eraseDups

def expressionError : Str := "CSP class : invalid expression given.\n".toList

def parseError : Str := "CSP class : cannot parse expression.\n".toList

/-- `/!=|<=|>=|=|<|>/`. -/
def relationPattern : Regex :=
  .alt (.lit "!=".toList) (.alt (.lit "<=".toList) (.alt (.lit ">=".toList)
    (.alt (.lit ['=']) (.alt (.lit ['<']) (.lit ['>'])))))

/-- The right side with its signs exchanged, to be put after the left side. -/
def moveRight (right : Str) : Str :=
  let right := if pregTest (.seq .bol (.cls (· != '-'))) right then '+' :: right else right
  let right := pregReplace (.cls (· == '-')) ['+'] (pregReplace (.cls (· == '+')) ['!'] right)
  pregReplace (.cls (· == '!')) ['-'] right

/-- The array `$mapping`, in its order. -/
def mapping (exp : Str) : List (Str × List (List Str)) :=
  [("!=".toList, [[exp ++ "<=-1".toList, "-(".toList ++ exp ++ "<=0)".toList]]),
   ("<=".toList, [[exp ++ "<=0".toList]]),
   (">=".toList, [[exp ++ ">=0".toList]]),
   (['='], [[exp ++ "<=0".toList], ["-(".toList ++ exp ++ "<=-1)".toList]]),
   (['<'], [[exp ++ "<0".toList]]),
   (['>'], [[exp ++ ">0".toList]])]

def normalizeExpression (expression : Str) : Except Str (List (List Str)) :=
  match pregSplit relationPattern expression with
  | [left, right] =>
      let exp := if looseEqZero right then left else left ++ moveRight right
      match (mapping exp).find? fun entry => pregTest (.lit entry.1) expression with
      | some entry => .ok entry.2
      | none => .error expressionError
  | _ => .error expressionError

/-- `/\s[a-z]\w*\s\s\-?\d+\s\s\-?\d+\s/i`. -/
def varPattern : Regex :=
  .seq (.cls isSpace) (.seq (.cls isLetter) (.seq (.star isWord) (.seq (.cls isSpace)
    (.seq (.cls isSpace) (.seq (.opt (· == '-')) (.seq (.plus isDigit) (.seq (.cls isSpace)
      (.seq (.cls isSpace) (.seq (.opt (· == '-')) (.seq (.plus isDigit) (.cls isSpace)))))))))))

/-- `/\[[^\[]+\]/`. -/
def clausePattern : Regex := .seq (.lit ['[']) (.seq (.plus (· != '[')) (.lit [']']))

/-- The texts of the declarations found in the command line. -/
def declarationTexts (expression : Str) : List Str :=
  (pregMatchAll varPattern expression).map Match.text

/-- The literals of the clauses found once the declarations are cut out. -/
def clauseLiterals (expression : Str) : List (List Str) :=
  (pregMatchAll clausePattern (pregReplace varPattern [] expression)).map fun clause =>
    IntegerVariable.words
      (pregReplace (.cls (· == ']')) [] (pregReplace (.cls (· == '[')) [] clause.text))

/-- The loop over the literals of a clause. -/
def distributeLiterals (literals : List Str) : Except Str (List (List Str)) :=
  literals.foldlM (fun set literal => return distribute set (← normalizeExpression literal)) []

/-- `$constraints`: the texts of the inequations of all clauses. -/
def constraintTexts (expression : Str) : Except Str (List (List Str)) := do
  let sets ← (clauseLiterals expression).mapM distributeLiterals
  return sets.flatten

/-- The second `try` block: the constraints of all clauses, then their inequations. -/
def parseConstraints (expression : Str) (vars : List IntegerVariable) :
    Except Str (List (List Inequation)) := do
  let constraints ← constraintTexts expression
  constraints.mapM fun clause =>
    clause.mapM fun ineqExpression => Inequation.parseExpression ineqExpression vars

def parseExpression (expression : Str) : Except Str CSP := do
  let vars ← ((declarationTexts expression).mapM IntegerVariable.parseExpression).mapError
    (· ++ parseError)
  let clauses ← (parseConstraints expression vars).mapError (· ++ parseError)
  return ⟨vars, clauses⟩

end CSP

end Sato
