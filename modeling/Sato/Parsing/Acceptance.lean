import Sato.Parsing.CommandLine
import Sato.Parsing.Grammar

/-! # What the parser accepts

The literals that are read without an error, told apart from those of the
grammar. The parser drops empty parts and reads a sign alone as one, and it does
not read a zero whose sign, as it is passed to the term loop, is a minus, nor a
number of more than 64 bits.
-/

namespace Sato

open Foundation

/-! ## One summand -/

namespace Inequation

end Inequation

namespace Summand

/-! ## Readable summands and terms -/

variable {x : Summand}

end Summand

/-! ## One side and its bound -/

section Accepted

variable {vars : List IntegerVariable} (hvars : Declared vars)
include hvars

section Sides

variable (left right : Str)

end Sides

/-! ## The texts of a literal -/

section Texts

variable {left right : Str}

end Texts

end Accepted

/-! ## Where the parser and the grammar differ -/

section Sides

variable {vars : List IntegerVariable} {left right : Str} {op : Op}

theorem IsExpression.notMem {s : Str} (h : IsExpression vars s) : '!' ∉ s := by
  obtain ⟨e, -, rfl⟩ := h
  exact e.not_mem_text (by decide) (by decide) rfl

section Expressions

variable (hvars : Declared vars)
include hvars

end Expressions

end Sides

namespace CSP

end CSP

end Sato
