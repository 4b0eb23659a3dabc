import Mathlib.Data.List.DropRight
import Mathlib.Data.Nat.Basic
import Sato.Foundation.Regex

/-! # Text functions of the scripting language

Splitting and joining at a separator, trimming, and the loose comparison of a
text with `"0"`. That comparison is numeric: it reads integers, decimals and
exponents, and rounds to a double before it compares.
-/

namespace Foundation

def explode (sep : Char) (s : Str) : List Str := s.splitOn sep

def implode (sep : Char) (parts : List Str) : Str := [sep].intercalate parts

theorem explode_implode {sep : Char} {parts : List Str} (hne : parts ≠ [])
    (hsep : ∀ part ∈ parts, sep ∉ part) : explode sep (implode sep parts) = parts :=
  List.splitOn_intercalate sep hsep hne

theorem implode_concat (sep : Char) (parts : List Str) (last : Str) :
    implode sep (parts ++ [last]) = parts.flatMap (· ++ [sep]) ++ last := by
  induction parts with
  | nil => exact List.intercalate_singleton
  | cons part parts ih =>
      rw [implode, List.cons_append, List.intercalate_cons_of_ne_nil (by simp)]
      rw [implode] at ih
      simp [ih]

theorem implode_append_cons {parts : List Str} (hne : parts ≠ []) (sep : Char) (last : Str) :
    implode sep parts ++ sep :: last = implode sep (parts ++ [last]) := by
  obtain ⟨before, part, rfl⟩ := parts.eq_nil_or_concat'.resolve_left hne
  rw [implode_concat, implode_concat]
  simp

/-- Lines that each end in the separator are split with an empty last part. -/
theorem explode_flatMap {sep : Char} {parts : List Str} (hsep : ∀ part ∈ parts, sep ∉ part) :
    explode sep (parts.flatMap (· ++ [sep])) = parts ++ [[]] := by
  rw [← List.append_nil (parts.flatMap _), ← implode_concat]
  refine explode_implode (by simp) fun part hpart => ?_
  rcases List.mem_append.mp hpart with hpart | hpart
  · exact hsep part hpart
  · simp [List.mem_singleton.mp hpart]

/-- A text determines what stands before and after its first separator. -/
theorem append_cons_inj_of_notMem_left {c : Char} {a b s t : Str} (ha : c ∉ a) (hb : c ∉ b) :
    a ++ c :: s = b ++ c :: t ↔ a = b ∧ s = t := by
  induction a generalizing b with
  | nil =>
      cases b with
      | nil => simp
      | cons d b => simp_all
  | cons d a ih =>
      simp only [List.mem_cons, not_or] at ha
      cases b with
      | nil => simp [Ne.symm ha.1]
      | cons e b =>
          simp only [List.mem_cons, not_or] at hb
          simp [ih ha.2 hb.2, and_assoc]

/-! ## Trimming -/

/-- The characters `trim` removes. -/
def isTrimmed (c : Char) : Bool :=
  c == ' ' || c == '\t' || c == '\n' || c == '\r' || c == '\x00' || c == '\x0b'

def ltrim (s : Str) : Str := s.dropWhile isTrimmed

def trim (s : Str) : Str := (ltrim s).rdropWhile isTrimmed

theorem isTrimmed_of_isWord {c : Char} (hc : isWord c = true) : isTrimmed c = false := by
  refine Bool.eq_false_iff.mpr fun htrimmed => ?_
  simp only [isTrimmed, Bool.or_eq_true, beq_iff_eq] at htrimmed
  rcases htrimmed with ((((rfl | rfl) | rfl) | rfl) | rfl) | rfl <;>
    simp [isWord, isLetter, isDigit] at hc

theorem ltrim_append_cons (s : Str) {c : Char} (hc : isTrimmed c = false) (t : Str) :
    ltrim (s ++ c :: t) = ltrim s ++ c :: t := by
  unfold ltrim
  induction s with
  | nil => simp [hc]
  | cons d s ih =>
      rw [List.cons_append, List.dropWhile_cons, List.dropWhile_cons]
      split
      · exact ih
      · rfl

/-- Trimming a text that ends in a character it keeps acts on the left alone. -/
theorem trim_append_singleton {s : Str} {c : Char} (hc : isTrimmed c = false) :
    trim (s ++ [c]) = ltrim s ++ [c] := by
  rw [trim, ltrim_append_cons s hc [], List.rdropWhile_concat]
  simp [hc]

theorem ltrim_eq_self {s : Str} (hs : ∀ c ∈ s.head?, isTrimmed c = false) : ltrim s = s := by
  cases s with
  | nil => rfl
  | cons c s => simp [ltrim, hs c (by simp)]

/-! ## Comparison with zero -/

def isExponentMark (c : Char) : Bool := c == 'e' || c == 'E'

def isSign (c : Char) : Bool := c == '-' || c == '+'

def dropSign : Str → Str
  | c :: s => if isSign c then s else c :: s
  | [] => []

/-- Whether `mantissa * 10 ^ exponent` rounds to the double zero: it is at most
half of the least positive double, `2 ^ (-1074)`. -/
def roundsToZero (mantissa : ℕ) (exponent : ℤ) : Bool :=
  if 0 ≤ exponent then mantissa = 0 else mantissa * 2 ^ 1075 ≤ 10 ^ exponent.natAbs

/-- `$s == "0"`: the text is a numeric string, with an optional sign, fraction and
exponent and perhaps white space around it, whose value is zero. -/
def looseEqZero (s : Str) : Bool :=
  let number := dropSign ((s.dropWhile isSpace).rdropWhile isSpace)
  let whole := number.takeWhile isDigit
  let afterWhole := number.dropWhile isDigit
  let fraction := match afterWhole with
    | '.' :: rest => rest.takeWhile isDigit
    | _ => []
  let afterFraction := match afterWhole with
    | '.' :: rest => rest.dropWhile isDigit
    | _ => afterWhole
  let mantissa := whole ++ fraction
  match mantissa, afterFraction with
  | [], _ => false
  | _ :: _, [] => roundsToZero (digitsValue mantissa) (-(fraction.length : ℤ))
  | _ :: _, mark :: exponent =>
      let digits := dropSign exponent
      isExponentMark mark && !digits.isEmpty && digits.all isDigit &&
        roundsToZero (digitsValue mantissa)
          ((if exponent.head? = some '-' then -1 else 1) * (digitsValue digits : ℤ) -
            fraction.length)

/-- What may follow the digits of a numeric string whose value is zero. -/
def EndsZero (mantissa : ℕ) : Str → Prop
  | [] => mantissa = 0
  | mark :: exponent =>
      isExponentMark mark = true ∧ dropSign exponent ≠ [] ∧
        (∀ c ∈ dropSign exponent, isDigit c = true) ∧
        roundsToZero mantissa
          ((if exponent.head? = some '-' then -1 else 1) * digitsValue (dropSign exponent)) = true

theorem roundsToZero_natCast (mantissa exponent : ℕ) :
    roundsToZero mantissa exponent = true ↔ mantissa = 0 := by
  simp [roundsToZero]

theorem dropSign_eq_self {s : Str} (hs : ∀ c ∈ s.head?, isSign c = false) : dropSign s = s := by
  cases s with
  | nil => rfl
  | cons c s => simp [dropSign, hs c (by simp)]

theorem isSign_of_isWord {c : Char} (hc : isWord c = true) : isSign c = false := by
  have hminus : c ≠ '-' := ne_of_isWord hc rfl
  have hplus : c ≠ '+' := ne_of_isWord hc rfl
  simp [isSign, hminus, hplus]

theorem isDigit_of_isSign {c : Char} (hc : isSign c = true) : isDigit c = false ∧ c ≠ '.' := by
  simp only [isSign, Bool.or_eq_true, beq_iff_eq] at hc
  rcases hc with rfl | rfl <;> decide

/-- A text is compared by its digits and what follows them. -/
theorem looseEqZero_iff_endsZero {s digits rest : Str}
    (hs : dropSign ((s.dropWhile isSpace).rdropWhile isSpace) = digits ++ rest)
    (hdigits : ∀ c ∈ digits, isDigit c = true)
    (hrest : ∀ c ∈ rest.head?, isDigit c = false ∧ c ≠ '.') :
    looseEqZero s = true ↔ digits ≠ [] ∧ EndsZero (digitsValue digits) rest := by
  have htake := takeWhile_append_of_head hdigits fun c hc => (hrest c hc).1
  have hdrop := dropWhile_append_of_head hdigits fun c hc => (hrest c hc).1
  unfold looseEqZero
  simp only [hs, htake, hdrop]
  cases rest with
  | nil =>
      cases digits with
      | nil => simp
      | cons c digits => simp [EndsZero, roundsToZero]
  | cons mark exponent =>
      have hpoint : mark ≠ '.' := (hrest mark (by simp)).2
      cases digits with
      | nil => simp [hpoint]
      | cons c digits => simp [EndsZero, hpoint, and_assoc]

end Foundation
