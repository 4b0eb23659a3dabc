import Mathlib.Algebra.Group.Basic
import Mathlib.Logic.Function.Basic

/-! # `Glucose::Solver`: its state and the operations on it

The bundled solver (`glucose-syrup/core/Solver.h`, `core/Solver.cc` and
`core/SolverTypes.h`) outside of its incremental and parallel modes, without
assumptions, so that there are no selectors, no unary watches and no imported
clauses. Activities, restart statistics and the memory of the clauses are left out;
what they decide is given to the search from outside.
-/

namespace Sato

namespace Glucose

/-! ## Types of the solver -/

abbrev Var := ℕ

/-- `sign` is `true` for the negative literal. -/
structure Lit where
  var : Var
  sign : Bool
  deriving DecidableEq

namespace Lit

/-- The literal `~p`. -/
instance : Neg Lit := ⟨fun p => ⟨p.var, !p.sign⟩⟩

/-- The integer `x`, by which literals are ordered. -/
def toInt (p : Lit) : ℕ := p.var + p.var + p.sign.toNat

@[simp] theorem var_neg (p : Lit) : (-p).var = p.var := rfl

@[simp] theorem sign_neg (p : Lit) : (-p).sign = !p.sign := rfl

instance : InvolutiveNeg Lit where
  neg_neg p := by
    cases p
    simp [Neg.neg]

end Lit

/-- A reference to a clause. -/
abbrev CRef := ℕ

structure Watcher where
  cref : CRef
  blocker : Lit
  deriving DecidableEq

structure VarData where
  reason : Option CRef
  level : ℕ
  deriving DecidableEq

/-- The state. `l_Undef` is `none`, as is `CRef_Undef`. The trail has its last
literal first. `mark` is `true` for a removed clause, whose watchers stay until
the lists are cleaned. A reference that is not yet allocated is at least `next`. -/
structure Solver where
  ok : Bool
  nVars : ℕ
  ca : CRef → List Lit
  mark : CRef → Bool
  next : CRef
  clauses : List CRef
  learnts : List CRef
  watches : Lit → List Watcher
  watchesBin : Lit → List Watcher
  assigns : Var → Option Bool
  vardata : Var → VarData
  trail : List Lit
  trailLim : List ℕ
  qhead : ℕ
  seen : Var → Bool
  decision : Var → Bool
  orderHeap : List Var

namespace Solver

def empty : Solver where
  ok := true
  nVars := 0
  ca _ := []
  mark _ := false
  next := 0
  clauses := []
  learnts := []
  watches _ := []
  watchesBin _ := []
  assigns _ := none
  vardata _ := ⟨none, 0⟩
  trail := []
  trailLim := []
  qhead := 0
  seen _ := false
  decision _ := false
  orderHeap := []

def decisionLevel (s : Solver) : ℕ := s.trailLim.length

def level (s : Solver) (x : Var) : ℕ := (s.vardata x).level

def reason (s : Solver) (x : Var) : Option CRef := (s.vardata x).reason

/-- `assigns[var(p)] ^ sign(p)`. -/
def value (s : Solver) (p : Lit) : Option Bool := (s.assigns p.var).map fun b => b ^^ p.sign

/-! ## Variables -/

def insertVarOrder (s : Solver) (x : Var) : Solver :=
  if x ∉ s.orderHeap ∧ s.decision x = true then { s with orderHeap := s.orderHeap ++ [x] } else s

def setDecisionVar (s : Solver) (x : Var) (b : Bool) : Solver :=
  insertVarOrder { s with decision := Function.update s.decision x b } x

def newVar (s : Solver) : Solver :=
  let v := s.nVars
  setDecisionVar
    { s with
      nVars := v + 1
      watches := Function.update (Function.update s.watches ⟨v, false⟩ []) ⟨v, true⟩ []
      watchesBin := Function.update (Function.update s.watchesBin ⟨v, false⟩ []) ⟨v, true⟩ []
      assigns := Function.update s.assigns v none
      vardata := Function.update s.vardata v ⟨none, 0⟩
      seen := Function.update s.seen v false
      decision := Function.update s.decision v false } v true

/-! ## The trail -/

def newDecisionLevel (s : Solver) : Solver := { s with trailLim := s.trailLim ++ [s.trail.length] }

def uncheckedEnqueue (s : Solver) (p : Lit) (reason : Option CRef) : Solver :=
  { s with
    assigns := Function.update s.assigns p.var (some !p.sign)
    vardata := Function.update s.vardata p.var ⟨reason, s.decisionLevel⟩
    trail := p :: s.trail }

/-- The loop over the literals taken back. -/
def unassign (s : Solver) (p : Lit) : Solver :=
  insertVarOrder { s with assigns := Function.update s.assigns p.var none } p.var

def cancelUntil (s : Solver) (level : ℕ) : Solver :=
  if level < s.decisionLevel then
    let size := s.trailLim.getD level 0
    let s := (s.trail.take (s.trail.length - size)).foldl unassign s
    { s with
      qhead := size
      trail := s.trail.drop (s.trail.length - size)
      trailLim := s.trailLim.take level }
  else s

/-! ## Clauses -/

def pushWatch (watches : Lit → List Watcher) (p : Lit) (w : Watcher) : Lit → List Watcher :=
  Function.update watches p (watches p ++ [w])

def attachClause (s : Solver) (cr : CRef) : Solver :=
  match s.ca cr with
  | [a, b] =>
      { s with watchesBin := pushWatch (pushWatch s.watchesBin (-a) ⟨cr, b⟩) (-b) ⟨cr, a⟩ }
  | a :: b :: _ =>
      { s with watches := pushWatch (pushWatch s.watches (-a) ⟨cr, b⟩) (-b) ⟨cr, a⟩ }
  | _ => s

/-- `ca.alloc(ps, learnt)`: the new clause has the reference `s.next`. -/
def alloc (s : Solver) (ps : List Lit) : Solver :=
  { s with
    ca := Function.update s.ca s.next ps
    mark := Function.update s.mark s.next false
    next := s.next + 1 }

def satisfied (s : Solver) (c : List Lit) : Bool := c.any fun p => s.value p == some true

/-- The literal is true because of the clause. -/
def isReasonOf (s : Solver) (cr : CRef) (p : Lit) : Bool :=
  s.value p == some true && s.reason p.var == some cr

def locked (s : Solver) (cr : CRef) : Bool :=
  match s.ca cr with
  | [a, b] => s.isReasonOf cr a || s.isReasonOf cr b
  | a :: _ => s.isReasonOf cr a
  | [] => false

/-- The watchers of a removed clause stay in their lists. The reason of the first
literal is taken back, although a binary clause may be the reason of its second. -/
def removeClause (s : Solver) (cr : CRef) : Solver :=
  let s := match s.ca cr with
    | a :: _ =>
        if s.locked cr then
          { s with vardata := Function.update s.vardata a.var ⟨none, s.level a.var⟩ }
        else s
    | [] => s
  { s with mark := Function.update s.mark cr true }

/-- The lists without the watchers of removed clauses. -/
def cleanAll (s : Solver) : Solver :=
  { s with
    watches := fun p => (s.watches p).filter fun w => !s.mark w.cref
    watchesBin := fun p => (s.watchesBin p).filter fun w => !s.mark w.cref }

end Solver

end Glucose

end Sato
