import Sato.Foundation.Decimal
import Sato.Foundation.Text

/-! # Comparison of texts

`<` and `==` between two texts compare numeric strings as numbers and all others byte
by byte. The texts are words and those of integers: they have no blanks, no point and
no sign in an exponent. Integers are compared exactly, whatever their size.
-/

namespace Foundation

/-- The double nearest to a number, the even one where there are two. The infinite
double stands as `2 ^ 1024`. -/
def roundDouble (n : ℕ) : ℕ :=
  let unit := 2 ^ (n.log2 - 52)
  let below := n / unit
  let rest := 2 * (n % unit)
  let nearest := if unit < rest ∨ (rest = unit ∧ below % 2 = 1) then below + 1 else below
  min (nearest * unit) (2 ^ 1024)

/-- The exact value of a numeric string, and whether it has an exponent. -/
structure Numeric where
  value : ℤ
  hasExponent : Bool

namespace Numeric

def double (n : Numeric) : ℤ := n.value.sign * roundDouble n.value.natAbs

def isInfinite (n : Numeric) : Bool := n.double.natAbs = 2 ^ 1024

end Numeric

/-- The number of a numeric string. -/
def readNumeric (s : Str) : Option Numeric :=
  let number := dropSign s
  let sign : ℤ := if s.head? = some '-' then -1 else 1
  match number.takeWhile isDigit, number.dropWhile isDigit with
  | [], _ => none
  | digits, [] => some ⟨sign * digitsValue digits, false⟩
  | digits, mark :: exponent =>
      if isExponentMark mark && !exponent.isEmpty && exponent.all isDigit then
        some ⟨sign * (digitsValue digits * 10 ^ digitsValue exponent : ℕ), true⟩
      else none

/-- Doubles are compared where one of two numbers has an exponent. -/
def compareText (s t : Str) : Ordering :=
  match readNumeric s, readNumeric t with
  | some m, some n =>
      if m.hasExponent || n.hasExponent then
        if m.double = n.double ∧ m.isInfinite then compare s t else compare m.double n.double
      else compare m.value n.value
  | _, _ => compare s t

theorem readNumeric_of_dropSign {s : Str} {n : ℕ} (hs : dropSign s = natText n) :
    readNumeric s = some ⟨(if s.head? = some '-' then -1 else 1) * n, false⟩ := by
  have hnil : ∀ c ∈ ([] : Str).head?, isDigit c = false := by simp
  have htake := takeWhile_isDigit_natText n hnil
  have hdrop := dropWhile_isDigit_natText n hnil
  rw [List.append_nil] at htake hdrop
  obtain ⟨c, t, heq⟩ := List.exists_cons_of_ne_nil (natText_ne_nil n)
  have hvalue := digitsValue_natText n
  unfold readNumeric
  simp only [hs, htake, hdrop]
  rw [heq] at hvalue ⊢
  simp only [hvalue]

theorem readNumeric_intText (z : ℤ) : readNumeric (intText z) = some ⟨z, false⟩ := by
  cases z with
  | ofNat n =>
      obtain ⟨c, s, heq, hc⟩ := exists_natText_eq_cons n
      have hminus : c ≠ '-' := ne_of_isDigit hc rfl
      have hsign : dropSign (natText n) = natText n :=
        dropSign_eq_self (by simp [heq, isSign_of_isWord (isWord_of_isDigit hc)])
      have hhead : (natText n).head? ≠ some '-' := by simpa [heq] using hminus
      change readNumeric (natText n) = _
      rw [readNumeric_of_dropSign hsign, if_neg hhead, one_mul]
      rfl
  | negSucc n =>
      have hsign : dropSign ('-' :: natText (n + 1)) = natText (n + 1) := rfl
      change readNumeric ('-' :: natText (n + 1)) = _
      rw [readNumeric_of_dropSign hsign, List.head?_cons, if_pos rfl, neg_one_mul]
      rfl

@[simp] theorem compareText_intText (a b : ℤ) :
    compareText (intText a) (intText b) = compare a b := by
  unfold compareText
  rw [readNumeric_intText, readNumeric_intText]
  rfl

end Foundation
