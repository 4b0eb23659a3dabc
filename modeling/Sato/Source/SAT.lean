import Mathlib.Data.Int.Basic
import Sato.Foundation.Regex

/-! # `SAT`

A satisfiability problem over named boolean variables, and its export in the
DIMACS format, where a variable is the number of its place in the list.
-/

namespace Sato

open Foundation

structure SAT where
  «variables» : List Str
  clauses : List (List Str)
  deriving DecidableEq

namespace SAT

def numberError : Str := "SAT object : invalid number given.\n".toList

def variableError (var : Str) : Str :=
  "SAT object : boolean variable ".toList ++ var ++ " does not exist in set B.\n".toList

def exportError : Str := "SAT object : SAT problem cannot be exported.\n".toList

def literalFromNumber (sat : SAT) (number : ℤ) : Except Str Str :=
  let index : ℤ := number.natAbs - 1
  if 0 ≤ index then
    match sat.variables[index.toNat]? with
    | some var => .ok var
    | none => .error numberError
  else .error numberError

def varIndexNumber (sat : SAT) (var : Str) : Except Str ℕ :=
  match sat.variables.idxOf? var with
  | some key => .ok (key + 1)
  | none => .error (variableError var)

/-- The pattern `^-`. -/
def minusPattern : Regex := .seq .bol (.lit ['-'])

def literalToNumber (sat : SAT) (literal : Str) : Except Str ℤ := do
  let sign : Str := if pregTest minusPattern literal then ['-'] else []
  let number ← sat.varIndexNumber (pregReplace minusPattern [] literal)
  return intval (sign ++ natText number)

/-- The text of one clause. -/
def clauseLine (numbers : List ℤ) : Str :=
  (numbers.flatMap fun number => intText number ++ [' ']) ++ ['0', '\n']

/-- The lines before the header. A comment that converts to false is not written. -/
def preamble (comment : Str) : Str :=
  "c Created from SAT object\n".toList ++
    (if comment = [] ∨ comment = ['0'] then [] else "c ".toList ++ comment ++ ['\n']) ++
    "c\n".toList

def header (vars clauses : ℕ) : Str :=
  "p cnf ".toList ++ natText vars ++ [' '] ++ natText clauses ++ ['\n']

/-- The numbers of all literals, clause by clause. -/
def numbers (sat : SAT) : Except Str (List (List ℤ)) :=
  sat.clauses.mapM fun clause => clause.mapM sat.literalToNumber

/-- The text written to the file. -/
def exportToDimacs (sat : SAT) (comment : Str) : Except Str Str := do
  let numbers ← sat.numbers.mapError (· ++ exportError)
  return preamble comment ++ header sat.variables.length sat.clauses.length ++
    numbers.flatMap clauseLine

end SAT

end Sato
