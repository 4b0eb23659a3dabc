import Mathlib.Data.Int.Notation
import Sato.Foundation.Cnf

/-! # `ComparisonBase`

What inequations and primitive comparisons share: a right-hand constant and a
sign, and the enumeration of the combinations of a list of lists.
-/

namespace Sato

open Foundation

/-- The sign is `true` for the positive form and `false` for the negative one. -/
structure ComparisonBase where
  const : ℤ
  sign : Bool := true
  deriving DecidableEq

namespace ComparisonBase

/-- An empty accumulator means that the enumeration has not started yet. -/
def computeCombinaisons {α : Type*} : List (List α) → List (List α) → List (List α)
  | [], combinaisons => combinaisons
  | values :: data, [] => computeCombinaisons data (values.map fun value => [value])
  | values :: data, combi :: combinaisons =>
      computeCombinaisons data
        (values.flatMap fun value => (combi :: combinaisons).map (· ++ [value]))

def inverseSign (c : ComparisonBase) : ComparisonBase := { c with sign := !c.sign }

end ComparisonBase

end Sato
