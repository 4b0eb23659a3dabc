import Sato.Source.Encoder
import Sato.Source.Solver

/-! # `sato`

The script: its options, and the path from its arguments to what it prints. Its
banner, and the displays of the parsed problem, of its formulas and of the encoded
problem, are left out of what is printed.
-/

namespace Sato

open Foundation

/-- `" ".implode("  ", $argv)." "`. -/
def joinArguments (argv : List Str) : Str := ' ' :: ([' ', ' '].intercalate argv ++ [' '])

namespace Script

/-! ## Options -/

/-- `$argv`: the arguments, each with its key. -/
abbrev Argv := List (Str × ℕ)

def inArray (word : Str) (argv : Argv) : Bool := argv.any fun entry => entry.1 == word

/-- The key of the first entry that is the word. -/
def arraySearch (word : Str) (argv : Argv) : Option ℕ :=
  (argv.find? fun entry => entry.1 == word).map Prod.snd

/-- The entry of a key, if it is set. -/
def entryAt (argv : Argv) (key : ℕ) : Option Str :=
  (argv.find? fun entry => entry.2 == key).map Prod.fst

def unset (argv : Argv) (key : ℕ) : Argv := argv.filter fun entry => entry.2 != key

/-- `/\.dimacs$/`. -/
def dimacsPattern : Regex := .seq (.lit ".dimacs".toList) .eol

def fileError : Str := "Invalid argument for -f ! Print help -h.\n".toList

/-- The option `-i`. Only its first occurrence is taken out. -/
def readInterprete (argv : Argv) : Bool × Argv :=
  match arraySearch "-i".toList argv with
  | none => (false, argv)
  | some key => (true, unset argv key)

/-- The option `-f`, with `$dimacsFilePath` and `$comment`. -/
def readFile (argv : Argv) : Except Str (Option (Str × Str) × Argv) :=
  match arraySearch "-f".toList argv with
  | none => .ok (none, argv)
  | some key =>
      let argv := unset argv key
      match entryAt argv (key + 1) with
      | none => .error fileError
      | some path =>
          if pregTest dimacsPattern path then
            let argv := unset argv (key + 1)
            match entryAt argv (key + 2) with
            | none => .ok (some (path, []), argv)
            | some comment => .ok (some (path, comment), unset argv (key + 2))
          else .error fileError

structure Options where
  verbose : Bool
  interprete : Bool
  dimacsFile : Option (Str × Str)
  deriving DecidableEq

/-- The options, and the arguments that are left. `-v` is not taken out. -/
def readOptions (argv : Argv) : Except Str (Options × List Str) := do
  let verbose := inArray "-v".toList argv
  let (interprete, argv) := readInterprete argv
  let (dimacsFile, argv) ← readFile argv
  return (⟨verbose, interprete, dimacsFile⟩, argv.map Prod.fst)

/-! ## The script -/

/-- How the script ends: with its documentation, or with a text and perhaps the
file that `-f` asks for. -/
inductive Outcome where
  | help
  | exit (printed : Str) (file : Option (Str × Str))
  deriving DecidableEq

def createdText (path : Str) : Str :=
  "--> ".toList ++ path ++ " file is created !\n\n".toList

/-- What the script does with the encoded problem. Without fuel left for the search
of all solutions it has no outcome. -/
def finish (execute : Solver.Execute) (display : Solver.Display) (fuel : ℕ)
    (options : Options) : Except Str SAT → Option Outcome
  | .error message => some (.exit (message ++ ['\n']) none)
  | .ok sat =>
      match options.dimacsFile with
      | some (path, comment) =>
          match Solver.prepare sat comment with
          | .error message => some (.exit (message ++ ['\n']) none)
          | .ok content => some (.exit (createdText path) (some (path, content)))
      | none =>
          (Solver.solve sat execute display fuel options.verbose options.interprete).map
            fun result =>
              match result.thrown with
              | some message => .exit (result.printed ++ message ++ ['\n']) none
              | none => .exit (result.printed ++ ['\n']) none

/-- The part of the script in its `try` block. -/
def run (execute : Solver.Execute) (display : Solver.Display) (fuel : ℕ) (options : Options)
    (argv : List Str) : Option Outcome :=
  finish execute display fuel options
    (CSP.parseExpression (joinArguments argv) >>= Encoder.encode)

/-- The script, given the arguments after its own name. -/
def main (execute : Solver.Execute) (display : Solver.Display) (fuel : ℕ) (args : List Str) :
    Option Outcome :=
  let argv : Argv := args.zipIdx 1
  if inArray "-h".toList argv || inArray "--help".toList argv then some .help
  else
    match readOptions argv with
    | .error message => some (.exit message none)
    | .ok (options, argv) => run execute display fuel options argv

end Script

end Sato
