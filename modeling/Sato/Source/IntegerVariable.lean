import Sato.Foundation.Regex

/-! # `IntegerVariable`

An integer variable has a name and a nonempty interval as its domain. The order
axioms of a variable are built from its primitive comparisons.
-/

namespace Sato

open Foundation

/-- The array `['l' => l, 'u' => u]`. The parser, which builds every variable,
refuses `u < l`. -/
structure Domain where
  l : ℤ
  u : ℤ
  l_le_u : l ≤ u
  deriving DecidableEq

structure IntegerVariable where
  name : Str
  domain : Domain
  deriving DecidableEq

namespace IntegerVariable

def getLowerBound (x : IntegerVariable) : ℤ := x.domain.l

def getUpperBound (x : IntegerVariable) : ℤ := x.domain.u

def parseError : Str := "IntegerVariable class : invalid expression given.\n".toList

/-- `/\s+/`, split without empty parts. -/
def words (s : Str) : List Str := pregSplitNoEmpty (.plus isSpace) s

def parseExpression (expression : Str) : Except Str IntegerVariable :=
  match words expression with
  | [name, l, u] =>
      if h : intval l ≤ intval u then .ok ⟨name, ⟨intval l, intval u, h⟩⟩
      else .error parseError
  | _ => .error parseError

def varExistsInArray (varName : Str) (vars : List IntegerVariable) : Option IntegerVariable :=
  vars.find? fun x => x.name = varName

theorem varExistsInArray_eq_some {varName : Str} {vars : List IntegerVariable}
    {x : IntegerVariable} (h : varExistsInArray varName vars = some x) :
    x ∈ vars ∧ x.name = varName :=
  ⟨List.mem_of_find?_eq_some h, by simpa using List.find?_some h⟩

end IntegerVariable

end Sato
