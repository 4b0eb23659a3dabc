import Sato.Source.IntegerVariable

/-! # `LinearTerm`

A term `a.x`. The class asks for a nonzero coefficient but does not enforce it.
-/

namespace Sato

open Foundation

structure LinearTerm where
  var : IntegerVariable
  coeff : ℤ
  deriving DecidableEq

namespace LinearTerm

/-- The sum has any size here. -/
def addCoeff (t : LinearTerm) (value : ℤ) : LinearTerm := { t with coeff := t.coeff + value }

def getLowerBound (t : LinearTerm) : ℤ :=
  if 0 < t.coeff then t.coeff * t.var.getLowerBound else t.coeff * t.var.getUpperBound

def getUpperBound (t : LinearTerm) : ℤ :=
  if 0 < t.coeff then t.coeff * t.var.getUpperBound else t.coeff * t.var.getLowerBound

/-- The key of the first term over a variable. -/
def varExistsInArray (var : IntegerVariable) (terms : List LinearTerm) : Option ℕ :=
  terms.findIdx? fun t => t.var = var

end LinearTerm

end Sato
