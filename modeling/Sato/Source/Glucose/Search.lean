import Mathlib.Data.List.Sort
import Sato.Source.Glucose.Analyze
import Sato.Source.Glucose.Propagate

/-! # `Solver::addClause_`, `Solver::search` and `Solver::solve_`

The heuristics decide when to restart and to simplify, which learnt clauses may be
removed, which variable is next and with which sign. They are given by a sequence of
choices, one for each pass of the loop. -/

namespace Sato

namespace Glucose

namespace Solver

/-! ## New clauses -/

/-- The sorted literals that are kept, after the literal kept last. A clause with a
true literal, or with a literal and its negation, is satisfied. -/
def removeFalse (s : Solver) : Option Lit → List Lit → Option (List Lit)
  | _, [] => some []
  | last, p :: ps =>
      if s.value p = some true ∨ last.map Neg.neg = some p then none
      else if s.value p ≠ some false ∧ last ≠ some p then
        (removeFalse s (some p) ps).map (p :: ·)
      else removeFalse s last ps

/-- The result is the new state, whose `ok` is what the source returns. -/
def addClause (s : Solver) (ps : List Lit) : Option Solver :=
  if s.ok = false then some s
  else
    match removeFalse s none (ps.insertionSort fun p q => p.toInt ≤ q.toInt) with
    | none => some s
    | some [] => some { s with ok := false }
    | some [p] =>
        (s.uncheckedEnqueue p none).propagate.map fun result =>
          { result.1 with ok := result.2.isNone }
    | some ps =>
        let cr := s.next
        let s := { s.alloc ps with clauses := s.clauses ++ [cr] }
        some (s.attachClause cr)

/-! ## Choices -/

/-- What the heuristics decide in one pass: whether the averages ask for a restart,
whether enough has been propagated since the last simplification, the learnt clauses
that may be removed if the database is reduced, the place of the least variable of the
heap, and the saved polarity. -/
structure Choices where
  restart : Bool
  simplify : Bool
  reduce : Option (CRef → Bool)
  least : List Var → ℕ
  polarity : Var → Bool

/-- The least variable of the heap, and the heap without it. -/
def removeMin (choices : Choices) (heap : List Var) : Option (Var × List Var) :=
  match heap[choices.least heap % heap.length]? with
  | some x => some (x, heap.eraseIdx (choices.least heap % heap.length))
  | none => none

/-- The loop of `pickBranchLit`, which takes a variable out of the heap in each pass. -/
def pickLoop (choices : Choices) : ℕ → Solver → Option Lit × Solver
  | 0, s => (none, s)
  | fuel + 1, s =>
      match removeMin choices s.orderHeap with
      | none => (none, s)
      | some (x, heap) =>
          let s := { s with orderHeap := heap }
          if s.assigns x = none ∧ s.decision x = true then (some ⟨x, choices.polarity x⟩, s)
          else pickLoop choices fuel s

def pickBranchLit (choices : Choices) (s : Solver) : Option Lit × Solver :=
  pickLoop choices s.orderHeap.length s

/-! ## Removal of clauses -/

/-- The loop of `removeSatisfied`: the clauses that stay, and the state. -/
def removeSatisfied : List CRef → Solver → List CRef × Solver
  | [], s => ([], s)
  | cr :: crs, s =>
      if s.satisfied (s.ca cr) = true then removeSatisfied crs (s.removeClause cr)
      else
        let (kept, s) := removeSatisfied crs s
        (cr :: kept, s)

/-- The loop of `reduceDB`: the learnt clauses that stay, and the state. -/
def reduceLoop (may : CRef → Bool) : List CRef → Solver → List CRef × Solver
  | [], s => ([], s)
  | cr :: crs, s =>
      if may cr = true ∧ 2 < (s.ca cr).length ∧ s.locked cr = false then
        reduceLoop may crs (s.removeClause cr)
      else
        let (kept, s) := reduceLoop may crs s
        (cr :: kept, s)

def reduceDB (may : CRef → Bool) (s : Solver) : Solver :=
  let (learnts, s) := reduceLoop may s.learnts s
  { s with learnts }

def rebuildOrderHeap (s : Solver) : Solver :=
  { s with orderHeap :=
      (List.range s.nVars).filter fun x => s.decision x && (s.assigns x).isNone }

/-- `simplify`, given whether satisfied clauses are looked for. -/
def simplify (s : Solver) (look removeClauses : Bool) : Option (Bool × Solver) :=
  if s.ok = false then some (false, s)
  else do
    let (s, confl) ← s.propagate
    if confl.isSome then return (false, { s with ok := false })
    else if look = false then return (true, s)
    else
      let (learnts, s) := removeSatisfied s.learnts s
      let s := { s with learnts }
      let (clauses, s) := if removeClauses then removeSatisfied s.clauses s else (s.clauses, s)
      return (true, rebuildOrderHeap { s with clauses })

/-! ## The search -/

/-- A pass of the loop ends the search with a status, or it goes on. The status is
`l_True`, `l_False` or, for a restart, `l_Undef`. -/
inductive Pass where
  | done (status : Option Bool) (s : Solver)
  | next (s : Solver)

/-- What follows a conflict: the clause learnt from it is added, and its first literal
is true at the level to go back to. -/
def resolveConflict (s : Solver) (confl : CRef) : Option Solver := do
  let (s, learnt, btlevel) ← s.analyze confl
  let s := s.cancelUntil btlevel
  match learnt with
  | [] => none
  | [p] => return s.uncheckedEnqueue p none
  | p :: _ =>
      let cr := s.next
      let s := { s.alloc learnt with learnts := s.learnts ++ [cr] }
      return (s.attachClause cr).uncheckedEnqueue p (some cr)

/-- A decision, or the end of the search when no variable is left. -/
def decide (choices : Choices) (s : Solver) : Pass :=
  match s.pickBranchLit choices with
  | (none, s) => .done (some true) s
  | (some p, s) => .next (s.newDecisionLevel.uncheckedEnqueue p none)

/-- The body of the loop of `search`. -/
def searchPass (choices : Choices) (s : Solver) : Option Pass := do
  let (s, confl) ← s.propagate
  match confl with
  | some confl =>
      if s.decisionLevel = 0 then return .done (some false) s
      else return .next (← s.resolveConflict confl)
  | none =>
      if choices.restart then return .done none (s.cancelUntil 0)
      else
        let (ok, s) ← if s.decisionLevel = 0 then s.simplify choices.simplify true
          else some (true, s)
        if ok = false then return .done (some false) s
        else
          let s := match choices.reduce with
            | some may => s.reduceDB may
            | none => s
          return decide choices s

/-- The loop of `search`. Without fuel left it has no result. -/
def search (choices : ℕ → Choices) : ℕ → Solver → Option (Option Bool × Solver)
  | 0, _ => none
  | fuel + 1, s => do
      match ← searchPass (choices 0) s with
      | .done status s => return (status, s)
      | .next s => search (fun k => choices (k + 1)) fuel s

/-- The loop of `solve_` over the restarts. The choices are those of each search. -/
def solveLoop (choices : ℕ → ℕ → Choices) (fuel : ℕ) :
    ℕ → Solver → Option (Bool × Solver)
  | 0, _ => none
  | restarts + 1, s => do
      let (status, s) ← search (choices 0) fuel s
      match status with
      | some verdict => return (verdict, s)
      | none => solveLoop (fun k => choices (k + 1)) fuel restarts s

/-- What `solve_` returns: the status, and `model` when the status is true. -/
structure Verdict where
  status : Bool
  model : List (Option Bool)
  solver : Solver

def solve (s : Solver) (choices : ℕ → ℕ → Choices) (restarts fuel : ℕ) : Option Verdict :=
  if s.ok = false then some ⟨false, [], s⟩
  else do
    let (status, s) ← solveLoop choices fuel restarts s
    if status then
      return ⟨true, (List.range s.nVars).map s.assigns, s.cancelUntil 0⟩
    else return ⟨false, [], { s with ok := false }.cancelUntil 0⟩

end Solver

end Glucose

end Sato
