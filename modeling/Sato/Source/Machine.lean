import Sato.Foundation.Number
import Sato.Source.Encoder

/-! # Overflow

`LinearTerm`, the term loop and the loops over domains with the numbers of the
machine. The other modules compute with integers of any size; here a sum or a product
of more than 64 bits becomes a float, as it does in the source, and a loop over a
domain may not end.
-/

namespace Sato

open Foundation

namespace Machine

/-- A term whose coefficient is a number of the machine. -/
structure LinearTerm where
  var : IntegerVariable
  coeff : Number
  deriving DecidableEq

namespace LinearTerm

def addCoeff (t : LinearTerm) (value : ℤ) : LinearTerm := { t with coeff := t.coeff + .int value }

/-- The key of the first term over a variable. -/
def varExistsInArray (var : IntegerVariable) (terms : List LinearTerm) : Option ℕ :=
  terms.findIdx? fun t => t.var = var

end LinearTerm

/-! ## Parsing -/

structure TermState where
  terms : List LinearTerm
  const : Number

/-- One pass of the term loop. -/
def addTerm (vars : List IntegerVariable) (state : TermState) (term : Str) :
    Except Str TermState :=
  let (coeff, x) := Sato.Inequation.readCoeff term
  if x = [] then .ok { state with const := state.const + .ofInt (-1 * coeff) }
  else if coeff = 0 then .error Sato.Inequation.coeffError
  else
    match IntegerVariable.varExistsInArray x vars with
    | none => .error (Sato.Inequation.variableError x)
    | some var =>
        match LinearTerm.varExistsInArray var state.terms with
        | none => .ok { state with terms := state.terms ++ [⟨var, .int coeff⟩] }
        | some key => .ok { state with terms := state.terms.modify key (·.addCoeff coeff) }

/-- The constant is the one before its cast `(int)$split[1]`. -/
structure Inequation where
  terms : List LinearTerm
  const : Number
  sign : Bool
  deriving DecidableEq

def Inequation.parseExpression (expression : Str) (vars : List IntegerVariable) :
    Except Str Inequation := do
  let (splitTerms, right, sign) ← Sato.Inequation.splitExpression expression
  let state ← splitTerms.foldlM (addTerm vars) ⟨[], .int (intval right)⟩
  return { terms := state.terms, const := state.const, sign }

structure CSP where
  «variables» : List IntegerVariable
  constraints : List (List Inequation)
  deriving DecidableEq

namespace CSP

def parseConstraints (expression : Str) (vars : List IntegerVariable) :
    Except Str (List (List Inequation)) := do
  let constraints ← Sato.CSP.constraintTexts expression
  constraints.mapM fun clause =>
    clause.mapM fun ineqExpression => Inequation.parseExpression ineqExpression vars

def parseExpression (expression : Str) : Except Str CSP := do
  let vars ← ((Sato.CSP.declarationTexts expression).mapM
    IntegerVariable.parseExpression).mapError (· ++ Sato.CSP.parseError)
  let clauses ← (parseConstraints expression vars).mapError (· ++ Sato.CSP.parseError)
  return ⟨vars, clauses⟩

end CSP

/-! ## Encoding -/

/-- `getLowerBound` of a term with an integer coefficient. The bounds of a variable are
cast from text. -/
def getLowerBound (coeff : ℤ) (x : IntegerVariable) : Number :=
  .ofInt (coeff * saturate (if 0 < coeff then x.getLowerBound else x.getUpperBound))

def getUpperBound (coeff : ℤ) (x : IntegerVariable) : Number :=
  .ofInt (coeff * saturate (if 0 < coeff then x.getUpperBound else x.getLowerBound))

/-- The inner loop of `getTermsDomain`, if it ends. -/
def termDomain (coeff : ℤ) (x : IntegerVariable) : Option (List ℤ) :=
  Number.loop (getLowerBound coeff x + .int (-1)) (getUpperBound coeff x)

/-- The loop of `predicateOrderRelation`, if it ends. -/
def orderDomain (x : IntegerVariable) : Option (List ℤ) :=
  Number.loop (.int (saturate x.domain.l)) (.int (saturate x.domain.u))

/-- The same inequation with integers for its numbers. A float is cast to some constant,
but it is not the coefficient of a term. -/
structure Inequation.Describes (e : Inequation) (f : Sato.Inequation) : Prop where
  terms : List.Forall₂ (fun (t : LinearTerm) (u : Sato.LinearTerm) =>
    t.var = u.var ∧ t.coeff = .int u.coeff) e.terms f.terms
  const : e.const = .int f.const ∨ e.const = .float
  sign : e.sign = f.sign

namespace CSP

/-- The loops over the domains of all terms and of all variables end. -/
def LoopsEnd (csp : CSP) : Prop :=
  (∀ clause ∈ csp.constraints, ∀ e ∈ clause, ∀ t ∈ e.terms, ∀ c, t.coeff = .int c →
    (termDomain c t.var).isSome = true) ∧
  ∀ x ∈ csp.variables, (orderDomain x).isSome = true

/-- The same problem with integers for its numbers. -/
structure Describes (csp : CSP) (other : Sato.CSP) : Prop where
  vars : other.variables = csp.variables
  constraints : List.Forall₂ (List.Forall₂ Inequation.Describes) csp.constraints other.constraints

/-- The encoder returns: its loops end, and whatever the constants are it does not
throw. -/
def Encodes (csp : CSP) : Prop :=
  csp.LoopsEnd ∧ ∀ other, csp.Describes other → ∃ sat, Encoder.encode other = .ok sat

end CSP

end Machine

end Sato
