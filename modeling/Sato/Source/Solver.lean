import Sato.Foundation.Compare
import Sato.Foundation.Grouping
import Sato.Foundation.Text
import Sato.Source.PrimitiveComparison
import Sato.Source.SAT

/-! # `Solver`

The loop around the boolean solver. It reads and writes two files: the problem
and the solver's result. The solver itself is a function from the text of the
problem to the text of the result; it may answer differently at every call. What it
prints, which `-v` displays, is another such function.
-/

namespace Sato

open Foundation

/-- The texts of `$inputFile` and `$outputFile`. -/
structure Files where
  input : Str
  output : Str
  deriving DecidableEq

/-- The array that `interprete` returns: names with the texts of their values. -/
abbrev Interpretation := List (Str × Str)

namespace Solver

/-! ## Decoding of a result -/

def interpreteError : Str := "Solver class : cannot interprete the result.\n".toList

/-- `min` of texts. -/
def minText : List Str → Str
  | [] => []
  | first :: values =>
      values.foldl (fun least value =>
        if compareText least value = .gt then value else least) first

/-- One pass of the loop over the numbers of the result. -/
def interpreteStep (sat : SAT) (interpretation : Groups Str Str) (value : Str) :
    Except Str (Groups Str Str) := do
  let booleanVar ← sat.literalFromNumber (intval value)
  if pregTest (.seq .bol (.lit ['q'])) booleanVar then return interpretation
  else if intval value < 0 then return interpretation
  else
    let parse := PrimitiveComparison.parseExpression booleanVar
    return interpretation.push parse.name parse.const

/-- The array of a result, or `NULL` for a result without numbers. -/
def interprete (sat : SAT) (output : Str) : Except Str (Option Interpretation) := do
  let content := (explode ' ' output).dropLast
  if content.isEmpty then return none
  else
    let interpretation ← (content.foldlM (interpreteStep sat) []).mapError (· ++ interpreteError)
    return some (interpretation.map fun entry => (entry.1, minText entry.2))

/-- `^UNSAT`. -/
def isSatisfiable (output : Str) : Bool := !pregTest (.seq .bol (.lit "UNSAT".toList)) output

/-! ## Blocking of a result -/

/-- `p\scnf\s\d+\s`. -/
def headerStart : Regex :=
  .seq (.lit ['p']) (.seq (.cls isSpace) (.seq (.lit "cnf".toList) (.seq (.cls isSpace)
    (.seq (.plus isDigit) (.cls isSpace)))))

/-- `/(p\scnf\s\d+\s)(\d+)\s/`. -/
def headerPattern : Regex :=
  .seq (.group headerStart) (.seq (.group (.plus isDigit)) (.cls isSpace))

/-- `/p\scnf\s\d+\s(\d+)/`. -/
def countPattern : Regex := .seq headerStart (.group (.plus isDigit))

/-- The problem with the opposite of a result as one more clause. Offsets of
`$header` that are not set read as the empty text. -/
def addResultInDimacs (files : Files) : Str :=
  let split := (explode ' ' files.output).map fun value => intText (-1 * intval value)
  let header := match pregMatch headerPattern files.input with
    | some m => m.groups
    | none => []
  let replacement := header.getD 0 [] ++ intText (intval (header.getD 1 []) + 1)
  pregReplace countPattern replacement files.input ++ implode ' ' split ++ ['\n']

/-! ## The loop -/

/-- The files, `$solutions` and the number of calls of the solver. -/
structure Search where
  files : Files
  solutions : List (Option Interpretation)
  calls : ℕ

/-- The boolean solver: the text of the result for each call and problem. -/
abbrev Execute := ℕ → Str → Str

/-- What the boolean solver prints, for each call and problem. -/
abbrev Display := ℕ → Str → Str

def prepareError : Str := "Solver object : cannot prepare the DIMACS file.\n".toList

/-- The text of the problem file. -/
def prepare (sat : SAT) (comment : Str) : Except Str Str :=
  (sat.exportToDimacs comment).mapError (· ++ prepareError)

/-- The head of `solve`: the problem is written and solved once. -/
def firstCall (sat : SAT) (execute : Execute) : Except Str Search := do
  let input ← prepare sat []
  return ⟨⟨input, execute 0 input⟩, [], 1⟩

/-- The body of the loop. -/
def searchStep (sat : SAT) (execute : Execute) (search : Search) : Except Str Search := do
  let solution ← interprete sat search.files.output
  let input := addResultInDimacs search.files
  return ⟨⟨input, execute search.calls input⟩, search.solutions ++ [solution], search.calls + 1⟩

/-- The loop, which runs while the last result is not `UNSAT`. Without fuel left
it has no result. -/
def searchLoop (sat : SAT) (execute : Execute) : ℕ → Search → Except Str (Option Search)
  | 0, _ => return none
  | fuel + 1, search =>
      if isSatisfiable search.files.output then do
        searchLoop sat execute fuel (← searchStep sat execute search)
      else return some search

/-- `==` between two arrays: the same keys with values that are loosely equal. -/
def looseEq : Option Interpretation → Option Interpretation → Bool
  | none, none => true
  | some first, some second =>
      first.length == second.length && first.all fun entry =>
        second.any fun other => entry.1 == other.1 && compareText entry.2 other.2 == .eq
  | _, _ => false

/-- `array_unique` with `SORT_REGULAR`, whose sort brings equal arrays together. -/
def arrayUnique (solutions : List (Option Interpretation)) : List (Option Interpretation) :=
  solutions.eraseDupsBy looseEq

def findAllSolutions (sat : SAT) (execute : Execute) (fuel : ℕ) (search : Search) :
    Except Str (Option (List (Option Interpretation))) := do
  let final ← (searchLoop sat execute fuel search).mapError (· ++ interpreteError)
  return final.map fun search => arrayUnique search.solutions

/-! ## The verdict -/

def unsatisfiableText : Str := "--> The SAT problem is unsatisfiable.\n".toList

def satisfiableText : Str := "--> The SAT problem is satisfiable.\n".toList

def solveError : Str := "Solver object : cannot solve the SAT problem.\n".toList

/-- The line of a solution. -/
def solutionLine (solution : Option Interpretation) : Str :=
  ((solution.getD []).flatMap fun entry =>
    '\t' :: (entry.1 ++ " = ".toList ++ entry.2 ++ [' '])) ++ ['\n']

def solutionsText (solutions : List (Option Interpretation)) : Str :=
  "\nThere are ".toList ++ natText solutions.length ++ " solution(s) :\n".toList ++
    solutions.flatMap solutionLine

/-- What `solve` prints, and the message of the exception that ends it, if any. -/
structure Result where
  printed : Str
  thrown : Option Str
  deriving DecidableEq

/-- What the first call displays. The calls of the loop display nothing. -/
def displayed (display : Display) (verbose : Bool) (input : Str) : Str :=
  if verbose then display 0 input ++ ['\n'] else []

def solve (sat : SAT) (execute : Execute) (display : Display) (fuel : ℕ)
    (verbose interprete : Bool) : Option Result :=
  match firstCall sat execute with
  | .error message => some ⟨[], some message⟩
  | .ok search =>
      let head := displayed display verbose search.files.input
      if isSatisfiable search.files.output then
        if interprete then
          match findAllSolutions sat execute fuel search with
          | .error message => some ⟨head ++ satisfiableText, some (message ++ solveError)⟩
          | .ok none => none
          | .ok (some solutions) =>
              some ⟨head ++ satisfiableText ++ solutionsText solutions, none⟩
        else some ⟨head ++ satisfiableText, none⟩
      else some ⟨head ++ unsatisfiableText, none⟩

end Solver

end Sato
