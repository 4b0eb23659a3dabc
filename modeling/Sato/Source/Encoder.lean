import Sato.Source.CSP
import Sato.Source.SAT

/-! # `Encoder` -/

namespace Sato

open Foundation

namespace Encoder

def encodeError : Str := "Encoder class : cannot encode CSP.\n".toList

def encode (csp : CSP) : Except Str SAT := do
  let (globalCNF, boolVars) ← (csp.computeGlobalCNF []).mapError (· ++ encodeError)
  let (orderRelations, boolVars) := csp.predicateOrderRelations boolVars
  return ⟨boolVars, globalCNF ++ orderRelations⟩

end Encoder

end Sato
