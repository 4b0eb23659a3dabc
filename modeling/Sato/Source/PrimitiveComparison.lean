import Mathlib.Data.Rat.Floor
import Sato.Foundation.Interval
import Sato.Source.ComparisonBase
import Sato.Source.IntegerVariable

/-! # `PrimitiveComparison`

A primitive comparison `x <= c`, positive or negative, and its boolean atom
`p<x>_<c>`. The order axioms of a variable stand here, after the class they use.
-/

namespace Sato

open Foundation

structure PrimitiveComparison extends ComparisonBase where
  «variable» : IntegerVariable
  deriving DecidableEq

namespace PrimitiveComparison

def inverseSign (p : PrimitiveComparison) : PrimitiveComparison :=
  { p with toComparisonBase := p.toComparisonBase.inverseSign }

/-- The text `p<name>_<const>`. -/
def booleanEquivalent (p : PrimitiveComparison) : Str :=
  'p' :: (p.variable.name ++ '_' :: intText p.const)

def coeffError : Str := "PrimitiveComparison object : coefficient cannot equal 0.\n".toList

/-- The quotient is the exact rational. -/
def hashTranslation (p : PrimitiveComparison) (coeff : ℤ) : Except Str PrimitiveComparison :=
  if coeff = 0 then .error coeffError
  else
    let q : ℚ := (p.const : ℚ) / (coeff : ℚ)
    if 0 < coeff then .ok { p with const := ⌊q⌋ }
    else .ok { p with const := ⌈q⌉ - 1, sign := false }

/-- The array `['name' => .., 'const' => ..]`. -/
structure Parsed where
  name : Str
  const : Str

/-- An offset that `preg_split` leaves undefined reads as the empty text. -/
def parseExpression (expression : Str) : Parsed :=
  let split := pregSplit (.cls (· == '_'))
    (pregReplace (.seq .bol (.lit ['p'])) [] expression)
  ⟨split.getD 0 [], split.getD 1 []⟩

def predicateEquivalent (p : PrimitiveComparison) : Str :=
  (if p.sign then [] else ['-']) ++ p.booleanEquivalent

end PrimitiveComparison

namespace IntegerVariable

/-- `if (!in_array($atom, $boolVars)) $boolVars[] = $atom`. -/
def register (boolVars : List Str) (atom : Str) : List Str :=
  if atom ∈ boolVars then boolVars else boolVars ++ [atom]

/-- The comparison of a variable with a constant. -/
def compare (x : IntegerVariable) (const : ℤ) (sign : Bool) : PrimitiveComparison :=
  { const, sign, «variable» := x }

def predicateBounds (x : IntegerVariable) (boolVars : List Str) : List (List Str) × List Str :=
  let lower := x.compare (x.domain.l - 1) false
  let upper := x.compare x.domain.u true
  let boolVars := register boolVars lower.booleanEquivalent
  let boolVars := register boolVars upper.booleanEquivalent
  ([[lower.predicateEquivalent], [upper.predicateEquivalent]], boolVars)

/-- One pass of the loop over the domain. -/
def orderStep (x : IntegerVariable) (acc : List (List Str) × List Str) (i : ℤ) :
    List (List Str) × List Str :=
  let lower := x.compare (i - 1) false
  let upper := x.compare i true
  let boolVars := register acc.2 lower.booleanEquivalent
  let boolVars := register boolVars upper.booleanEquivalent
  (acc.1 ++ [[lower.predicateEquivalent, upper.predicateEquivalent]], boolVars)

def predicateOrderRelation (x : IntegerVariable) (boolVars : List Str) :
    List (List Str) × List Str :=
  (loopRange x.domain.l x.domain.u).foldl x.orderStep ([], boolVars)

end IntegerVariable

end Sato
