import Sato.Parsing.CommandLine

/-! # Cancelled coefficients

The coefficient of a parsed term is the sum of those written before its name, with
the opposite signs on the right. They may cancel out.
-/

namespace Sato

open Foundation

namespace Summand

theorem writtenCoeffs_flip (name : Str) (xs : List Summand) :
    writtenCoeffs name (xs.map flip) = (writtenCoeffs name xs).map Neg.neg := by
  have hcoeff : coeff ∘ flip = Neg.neg ∘ coeff := funext flip_coeff
  unfold writtenCoeffs
  rw [List.filter_map, List.map_map, List.map_map, hcoeff]
  rfl

/-- Summands without a text have no name. -/
theorem writtenCoeffs_filter {name : Str} (hname : name ≠ []) (xs : List Summand) :
    writtenCoeffs name (xs.filter fun x => !x.text.isEmpty) = writtenCoeffs name xs := by
  unfold writtenCoeffs
  rw [List.filter_filter]
  congr 1
  refine List.filter_congr fun x _ => ?_
  by_cases hx : x.name = name
  · have htext := text_ne_nil_of_name (x := x) (hx ▸ hname)
    simp [hx, htext]
  · simp [hx]

end Summand

/-! ## What is written before a name -/

/-- The coefficients written on the left and the opposites of those on the right, which
is left out when it is taken for the text `"0"`. -/
def literalCoeffs (name left right : Str) : List ℤ :=
  Summand.writtenCoeffs name (summands isPlus (ltrim left)) ++
    if looseEqZero right then []
    else (Summand.writtenCoeffs name (summands isMovedPlus right)).map Neg.neg

/-- Their sum. -/
def literalCoeff (name left right : Str) : ℤ := (literalCoeffs name left right).sum

def NameWritten (name left right : Str) : Prop :=
  (∃ x ∈ summands isPlus (ltrim left), x.name = name) ∨
    (looseEqZero right = false ∧ ∃ x ∈ summands isMovedPlus right, x.name = name)

/-- No name of the literal has coefficients that cancel out. -/
def NoCancellation (literal : Str) : Prop :=
  ∀ left op right, SplitsAt literal left op right → ∀ name ≠ [],
    NameWritten name left right → literalCoeff name left right ≠ 0

theorem writtenCoeffs_literalSummands {name : Str} (hname : name ≠ []) (left right : Str) :
    Summand.writtenCoeffs name (literalSummands (ltrim left) right) =
      literalCoeffs name left right := by
  rw [literalSummands, Summand.writtenCoeffs_filter hname, Summand.writtenCoeffs_append,
    literalCoeffs]
  split
  · rfl
  · rw [Summand.writtenCoeffs_flip]

theorem writtenCoeff_literalSummands {name : Str} (hname : name ≠ []) (left right : Str) :
    Summand.writtenCoeff name (literalSummands (ltrim left) right) =
      literalCoeff name left right :=
  congrArg List.sum (writtenCoeffs_literalSummands hname left right)

theorem exists_mem_literalSummands {name : Str} (hname : name ≠ []) (left right : Str) :
    (∃ x ∈ literalSummands (ltrim left) right, x.name = name) ↔ NameWritten name left right := by
  have hfilter : ∀ xs : List Summand, (∃ x ∈ xs.filter fun x => !x.text.isEmpty, x.name = name) ↔
      ∃ x ∈ xs, x.name = name := by
    intro xs
    refine exists_congr fun x => and_congr_left fun hx => ?_
    have htext := Summand.text_ne_nil_of_name (x := x) (hx ▸ hname)
    simp [List.mem_filter, htext]
  rw [literalSummands, hfilter, NameWritten]
  cases hzero : looseEqZero right with
  | true => simp
  | false => simp [or_and_right, exists_or]

end Sato
