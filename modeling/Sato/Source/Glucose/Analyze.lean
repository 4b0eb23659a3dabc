import Mathlib.Data.List.Dedup
import Sato.Source.Glucose.Solver

/-! # `Solver::analyze`

A conflict is resolved with the reasons of the literals of the last level until one
of them is left. The clause learnt is then made smaller, and the level to go back to
is read off it. -/

namespace Sato

namespace Glucose

namespace Solver

/-- The true literal of a binary clause comes first. -/
def trueFirst (s : Solver) (cr : CRef) : Solver :=
  match s.ca cr with
  | [a, b] =>
      if s.value a = some false then { s with ca := Function.update s.ca cr [b, a] } else s
  | _ => s

def setSeen (s : Solver) (x : Var) (b : Bool) : Solver :=
  { s with seen := Function.update s.seen x b }

/-! ## The first unique implication point -/

/-- What the loop updates: the state, `pathC`, and `out_learnt` after its first place. -/
structure Analysis where
  solver : Solver
  pathC : ℕ
  learnt : List Lit

/-- The body of the loop over a clause. -/
def visitLit (a : Analysis) (q : Lit) : Analysis :=
  if a.solver.seen q.var = true then a
  else if a.solver.level q.var = 0 then a
  else if a.solver.decisionLevel ≤ a.solver.level q.var then
    { a with solver := a.solver.setSeen q.var true, pathC := a.pathC + 1 }
  else { a with solver := a.solver.setSeen q.var true, learnt := a.learnt ++ [q] }

/-- The loop, from the selection of the next clause on, over the trail below `index`.
A literal without a reason is not to be resolved. -/
def analyzeLoop : List Lit → Analysis → Option (Lit × Analysis)
  | [], _ => none
  | p :: rest, a =>
      if a.solver.seen p.var = true then
        let a := { a with solver := a.solver.setSeen p.var false, pathC := a.pathC - 1 }
        if 0 < a.pathC then
          match a.solver.reason p.var with
          | none => none
          | some confl =>
              let s := a.solver.trueFirst confl
              analyzeLoop rest (((s.ca confl).drop 1).foldl visitLit { a with solver := s })
        else some (p, a)
      else analyzeLoop rest a

/-! ## Removal of redundant literals -/

/-- `1 << (level(x) & 31)`. -/
def abstractLevel (s : Solver) (x : Var) : BitVec 32 := 1#32 <<< (s.level x % 32)

/-- What the loop of `litRedundant` updates: the state, `analyze_stack`, and the part
of `analyze_toclear` that it adds. -/
structure Redundancy where
  solver : Solver
  stack : List Lit
  added : List Lit

/-- The body of the loop over the literals of a reason. -/
def pushReason (abstractLevels : BitVec 32) : List Lit → Redundancy → Redundancy × Bool
  | [], r => (r, true)
  | p :: ps, r =>
      if r.solver.seen p.var = true then pushReason abstractLevels ps r
      else if r.solver.level p.var = 0 then pushReason abstractLevels ps r
      else if r.solver.reason p.var ≠ none ∧
          r.solver.abstractLevel p.var &&& abstractLevels ≠ 0#32 then
        pushReason abstractLevels ps
          ⟨r.solver.setSeen p.var true, p :: r.stack, r.added ++ [p]⟩
      else (r, false)

/-- Clears the marks of some literals. -/
def clearSeen (s : Solver) (lits : List Lit) : Solver :=
  lits.foldl (fun s p => s.setSeen p.var false) s

/-- The loop of `litRedundant`. -/
def litRedundantLoop (abstractLevels : BitVec 32) :
    ℕ → Redundancy → Option (Bool × Solver × List Lit)
  | 0, _ => none
  | fuel + 1, r =>
      match r.stack with
      | [] => some (true, r.solver, r.added)
      | p :: stack =>
          match r.solver.reason p.var with
          | none => none
          | some cr =>
              let s := r.solver.trueFirst cr
              match pushReason abstractLevels ((s.ca cr).drop 1) ⟨s, stack, r.added⟩ with
              | (r, true) => litRedundantLoop abstractLevels fuel r
              | (r, false) => some (false, r.solver.clearSeen r.added, [])

/-- Every literal that is pushed has been marked for it. -/
def litRedundant (s : Solver) (p : Lit) (abstractLevels : BitVec 32) :
    Option (Bool × Solver × List Lit) :=
  litRedundantLoop abstractLevels (s.nVars + 1) ⟨s, [p], []⟩

/-- The loop over the literals of the clause after the first. It returns those that
are kept, the state, and what it adds to `analyze_toclear`. -/
def minimise (abstractLevels : BitVec 32) :
    List Lit → Solver → Option (List Lit × Solver × List Lit)
  | [], s => some ([], s, [])
  | q :: qs, s =>
      if s.reason q.var = none then do
        let (kept, s, toclear) ← minimise abstractLevels qs s
        return (q :: kept, s, toclear)
      else do
        let (redundant, s, added) ← s.litRedundant q abstractLevels
        let (kept, s, toclear) ← minimise abstractLevels qs s
        return (if redundant then kept else q :: kept, s, added ++ toclear)

/-! ## Resolution with binary clauses -/

/-- The number of levels of the literals. -/
def computeLBD (s : Solver) (lits : List Lit) : ℕ :=
  (lits.map fun p => s.level p.var).dedup.length

def lbSizeMinimizingClause : ℕ := 30

def lbLBDMinimizingClause : ℕ := 6

def swapAt (lits : List Lit) (i j : ℕ) : List Lit :=
  match lits[i]?, lits[j]? with
  | some p, some q => (lits.set i q).set j p
  | _, _ => lits

/-- The variables whose mark stays, and `nb`. The marks of the variables of the clause
are those with `permDiff` equal to `MYFLAG`. -/
def countImplied (s : Solver) : List Watcher → (Var → Bool) → ℕ → (Var → Bool) × ℕ
  | [], marked, nb => (marked, nb)
  | w :: ws, marked, nb =>
      if marked w.blocker.var = true ∧ s.value w.blocker = some true then
        countImplied s ws (Function.update marked w.blocker.var false) (nb + 1)
      else countImplied s ws marked nb

/-- The loop that moves the literals without a mark to the last `nb` places. -/
def moveUnmarked (marked : Var → Bool) (nb : ℕ) : ℕ → ℕ → ℕ → List Lit → List Lit
  | 0, _, _, lits => lits
  | fuel + 1, i, l, lits =>
      if i < lits.length - nb then
        match lits[i]? with
        | none => lits
        | some q =>
            if marked q.var = true then moveUnmarked marked nb fuel (i + 1) l lits
            else moveUnmarked marked nb fuel i (l - 1) (swapAt lits i l)
      else lits

def minimisationWithBinaryResolution (s : Solver) (learnt : List Lit) : List Lit :=
  match learnt with
  | [] => []
  | first :: rest =>
      if s.computeLBD learnt ≤ lbLBDMinimizingClause then
        let (marked, nb) := countImplied s (s.watchesBin (-first))
          (fun x => rest.any fun q => q.var == x) 0
        if 0 < nb then
          (moveUnmarked marked nb (2 * learnt.length) 1 (learnt.length - 1) learnt).take
            (learnt.length - nb)
        else learnt
      else learnt

/-! ## The level to go back to -/

def levelAt (s : Solver) (lits : List Lit) (i : ℕ) : ℕ :=
  match lits[i]? with
  | some p => s.level p.var
  | none => 0

/-- The first place after the first one with the greatest level. -/
def maxIndex (s : Solver) (lits : List Lit) : ℕ :=
  (List.range' 2 (lits.length - 2)).foldl
    (fun maxI i => if s.levelAt lits maxI < s.levelAt lits i then i else maxI) 1

/-- The clause with the literal of the greatest level second, and `out_btlevel`. -/
def backtrackLevel (s : Solver) (learnt : List Lit) : List Lit × ℕ :=
  if learnt.length = 1 then (learnt, 0)
  else
    let learnt := swapAt learnt (s.maxIndex learnt) 1
    (learnt, s.levelAt learnt 1)

/-- The clause learnt from a conflict and the level to go back to. -/
def analyze (s : Solver) (confl : CRef) : Option (Solver × List Lit × ℕ) := do
  let (p, a) ← analyzeLoop s.trail ((s.ca confl).foldl visitLit ⟨s, 0, []⟩)
  let toclear := -p :: a.learnt
  let abstractLevels := a.learnt.foldl
    (fun levels q => levels ||| a.solver.abstractLevel q.var) 0#32
  let (kept, s, added) ← minimise abstractLevels a.learnt a.solver
  let learnt := -p :: kept
  let learnt := if learnt.length ≤ lbSizeMinimizingClause then
    s.minimisationWithBinaryResolution learnt else learnt
  let (learnt, btlevel) := s.backtrackLevel learnt
  return (s.clearSeen (toclear ++ added), learnt, btlevel)

end Solver

end Glucose

end Sato
