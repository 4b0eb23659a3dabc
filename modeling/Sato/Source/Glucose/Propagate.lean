import Sato.Source.Glucose.Solver

/-! # `Solver::propagate`

Each literal of the queue is propagated through its binary clauses and then through
the clauses that watch its negation. -/

namespace Sato

namespace Glucose

namespace Solver

/-! ## Binary clauses -/

/-- The loop over the watchers of `watchesBin[p]`. -/
def propagateBinary : List Watcher → Solver → Solver × Option CRef
  | [], s => (s, none)
  | w :: ws, s =>
      match s.value w.blocker with
      | some false => (s, some w.cref)
      | none => propagateBinary ws (s.uncheckedEnqueue w.blocker (some w.cref))
      | some true => propagateBinary ws s

/-! ## Watched clauses -/

/-- The first literal that is not false, and the literals with the false one in its place. -/
def findWatch (s : Solver) (falseLit : Lit) : List Lit → Option (Lit × List Lit)
  | [] => none
  | q :: rest =>
      if s.value q ≠ some false then some (q, falseLit :: rest)
      else (findWatch s falseLit rest).map fun found => (found.1, q :: found.2)

/-- What becomes of a watcher: it stays, or its clause is now watched elsewhere, or
its clause is false. -/
inductive Visit where
  | keep (s : Solver) (w : Watcher)
  | move (s : Solver)
  | conflict (s : Solver) (w : Watcher)

/-- The body of the loop over the watchers of `watches[p]`. -/
def visit (s : Solver) (p : Lit) (w : Watcher) : Visit :=
  if s.value w.blocker = some true then .keep s w
  else
    match s.ca w.cref with
    | a :: b :: rest =>
        let falseLit := -p
        -- the false literal is put second
        let first := if a = falseLit then b else a
        let second := if a = falseLit then falseLit else b
        let s := { s with ca := Function.update s.ca w.cref (first :: second :: rest) }
        let w' : Watcher := ⟨w.cref, first⟩
        if first ≠ w.blocker ∧ s.value first = some true then .keep s w'
        else
          match findWatch s falseLit rest with
          | some (q, rest) =>
              .move { s with
                ca := Function.update s.ca w.cref (first :: q :: rest)
                watches := pushWatch s.watches (-q) w' }
          | none =>
              if s.value first = some false then
                .conflict { s with qhead := s.trail.length } w'
              else .keep (s.uncheckedEnqueue first (some w.cref)) w'
    | _ => .keep s w

/-- The loop over the watchers of `watches[p]`, with those that it has kept. -/
def propagateWatches (p : Lit) :
    List Watcher → List Watcher → Solver → Solver × Option CRef
  | [], kept, s => ({ s with watches := Function.update s.watches p kept }, none)
  | w :: ws, kept, s =>
      match s.visit p w with
      | .keep s w => propagateWatches p ws (kept ++ [w]) s
      | .move s => propagateWatches p ws kept s
      | .conflict s w =>
          ({ s with watches := Function.update s.watches p (kept ++ w :: ws) }, some w.cref)

/-! ## The queue -/

/-- `trail[qhead]`. -/
def queueHead (s : Solver) : Option Lit := s.trail.reverse[s.qhead]?

/-- The loop over the queue. A conflict ends it. -/
def propagateLoop : ℕ → Solver → Option (Solver × Option CRef)
  | 0, _ => none
  | fuel + 1, s =>
      match s.queueHead with
      | none => some (s, none)
      | some p =>
          let s := { s with qhead := s.qhead + 1 }
          match propagateBinary (s.watchesBin p) s with
          | (s, some confl) => some (s, some confl)
          | (s, none) =>
              match propagateWatches p (s.watches p) [] s with
              | (s, some confl) => some (s, some confl)
              | (s, none) => propagateLoop fuel s

/-- Every pass takes a literal of the trail, which has at most `nVars` of them. -/
def propagate (s : Solver) : Option (Solver × Option CRef) :=
  propagateLoop (s.nVars + 1) s.cleanAll

end Solver

end Glucose

end Sato
