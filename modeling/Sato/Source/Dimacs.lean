import Sato.Foundation.Regex
import Sato.Foundation.Text

/-! # The files of the bundled solver

How the bundled solver reads a DIMACS file (`glucose-syrup/core/Dimacs.h` with
`glucose-syrup/utils/ParseUtils.h`), where a parse error ends the program, and
what it writes to the result file (`glucose-syrup/simp/Main.cc`).
-/

namespace Sato

open Foundation

/-- The numbers of the header and the clauses read. -/
structure Dimacs where
  vars : ℤ
  count : ℤ
  clauses : List (List ℤ)
  deriving DecidableEq

namespace Dimacs

def skipWhitespace (s : Str) : Str := s.dropWhile isSpace

def skipLine (s : Str) : Str := (s.dropWhile (· != '\n')).drop 1

/-- The digits after the sign, and the text after them. -/
def parseDigits (s : Str) : Option (ℕ × Str) :=
  if (s.takeWhile isDigit).isEmpty then none
  else some (digitsValue (s.takeWhile isDigit), s.dropWhile isDigit)

/-- The numbers of a file are taken to fit in the 32 bits of the reader's `int`. -/
def parseInt (s : Str) : Option (ℤ × Str) :=
  match skipWhitespace s with
  | '-' :: s => (parseDigits s).map fun read => (-(read.1 : ℤ), read.2)
  | '+' :: s => (parseDigits s).map fun read => ((read.1 : ℤ), read.2)
  | s => (parseDigits s).map fun read => ((read.1 : ℤ), read.2)

/-- The literals up to a zero. Each pass reads at least one character. -/
def readClause : ℕ → Str → Option (List ℤ × Str)
  | 0, _ => none
  | fuel + 1, s => do
      let (lit, s) ← parseInt s
      if lit = 0 then return ([], s)
      else
        let (lits, s) ← readClause fuel s
        return (lit :: lits, s)

/-- The main loop. A later header overrides an earlier one. -/
def parseMain : ℕ → Dimacs → Str → Option Dimacs
  | 0, _, _ => none
  | fuel + 1, read, s =>
      match skipWhitespace s with
      | [] => some read
      | 'p' :: s =>
          if " cnf".toList.isPrefixOf s then do
            let (vars, s) ← parseInt (s.drop 4)
            let (count, s) ← parseInt s
            parseMain fuel { read with vars, count } s
          else none
      | 'c' :: s => parseMain fuel read (skipLine s)
      | s => do
          let (clause, s) ← readClause (s.length + 1) s
          parseMain fuel { read with clauses := read.clauses ++ [clause] } s

def parse (s : Str) : Option Dimacs := parseMain (s.length + 1) ⟨0, 0, []⟩ s

/-- The result file of a satisfiable problem. -/
def resultText (row : List ℤ) : Str := implode ' ' (row.map intText) ++ " 0\n".toList

/-- The result file of an unsatisfiable problem. -/
def unsatText : Str := "UNSAT\n".toList

end Dimacs

end Sato
