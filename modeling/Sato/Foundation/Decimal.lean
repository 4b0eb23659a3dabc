import Mathlib.Data.Int.Basic
import Mathlib.Data.Nat.Digits.Defs
import Mathlib.Data.List.Basic
import Mathlib.Tactic.IntervalCases
import Mathlib.Tactic.Positivity
import Mathlib.Tactic.Ring

/-! # Decimal numerals as text

Byte strings are lists of characters. Integers are written in base ten with an
optional minus sign and no leading zero; `intval` is the converse cast, which
reads the longest numeral at the head of a text and ignores what follows it.
-/

namespace Foundation

/-- A byte string. -/
abbrev Str := List Char

def isDigit (c : Char) : Bool := '0' ≤ c ∧ c ≤ '9'

theorem isDigit_eq (c : Char) : isDigit c = c.isDigit := by
  simp [isDigit, Char.isDigit, Char.le_def, UInt32.le_iff_toNat_le]

/-- The decimal text of a natural number. -/
def natText (n : ℕ) : Str := Nat.toDigits 10 n

/-- The decimal text of an integer. -/
def intText : ℤ → Str
  | .ofNat n => natText n
  | .negSucc n => '-' :: natText (n + 1)

/-- The number a list of decimal digits denotes. -/
def digitsValue (s : Str) : ℕ := Nat.ofDigitChars 10 s 0

/-- White space, the class `\s`. -/
def isSpace (c : Char) : Bool :=
  c == ' ' || c == '\t' || c == '\n' || c == '\x0b' || c == '\x0c' || c == '\r'

theorem forall_isSpace_eq_false {s : Str} (h : s.any isSpace = false) :
    ∀ c ∈ s, isSpace c = false := by
  simpa using h

/-- The integer at the head of a text, after white space; zero when there is none. It
has any size: where the source casts a longer one than fits, `saturate` is applied. -/
def intval (s : Str) : ℤ :=
  match s.dropWhile isSpace with
  | '-' :: s => -(digitsValue (s.takeWhile isDigit) : ℤ)
  | '+' :: s => digitsValue (s.takeWhile isDigit)
  | s => digitsValue (s.takeWhile isDigit)

/-! ## Digits -/

theorem isDigit_of_mem_natText {n : ℕ} {c : Char} (hc : c ∈ natText n) : isDigit c = true := by
  rw [isDigit_eq]
  exact Nat.isDigit_of_mem_toDigits (by decide) (by decide) hc

@[simp] theorem natText_ne_nil (n : ℕ) : natText n ≠ [] := Nat.toDigits_ne_nil

@[simp] theorem digitsValue_natText (n : ℕ) : digitsValue (natText n) = n :=
  Nat.ofDigitChars_ten_toDigits

theorem natText_injective : Function.Injective natText := by
  intro m n heq
  simpa using congrArg digitsValue heq

theorem natText_of_lt {n : ℕ} (hn : n < 10) : natText n = [n.digitChar] :=
  Nat.toDigits_of_lt_base hn

theorem natText_of_le {n : ℕ} (hn : 10 ≤ n) :
    natText n = natText (n / 10) ++ [(n % 10).digitChar] :=
  Nat.toDigits_of_base_le (by decide) hn

theorem digitChar_ne_zero {n : ℕ} (hpos : 0 < n) (hn : n < 10) : n.digitChar ≠ '0' := by
  interval_cases n <;> decide

/-- A positive number's text does not begin with a zero. -/
theorem head?_natText_ne_zero {n : ℕ} (hn : 0 < n) : (natText n).head? ≠ some '0' := by
  induction n using Nat.strong_induction_on with
  | h n ih =>
      by_cases hlt : n < 10
      · rw [natText_of_lt hlt]
        simpa using digitChar_ne_zero hn hlt
      · rw [natText_of_le (by omega), List.head?_append_of_ne_nil _ (natText_ne_nil _)]
        exact ih (n / 10) (by omega) (by omega)

theorem digitsValue_cons (c : Char) (s : Str) :
    digitsValue (c :: s) = 10 ^ s.length * (c.toNat - 48) + digitsValue s := by
  rw [digitsValue, Nat.ofDigitChars_cons, Nat.ofDigitChars_eq_ofDigitChars_zero, mul_zero,
    zero_add]
  rfl

theorem digitChar_toNat_sub {c : Char} (hc : isDigit c = true) :
    (c.toNat - 48).digitChar = c ∧ c.toNat - 48 < 10 := by
  simp only [isDigit, decide_eq_true_eq, Char.le_def, UInt32.le_iff_toNat_le] at hc
  have hlow : 48 ≤ c.toNat := hc.1
  have hhigh : c.toNat ≤ 57 := hc.2
  refine ⟨?_, by omega⟩
  have hchar : c = Char.ofNat c.toNat := (Char.ofNat_toNat c).symm
  generalize c.toNat = n at *
  subst hchar
  interval_cases n <;> decide

/-- Appending a digit to a positive number's text multiplies it by ten. -/
theorem natText_append_digit {n : ℕ} (hn : 0 < n) {c : Char} (hc : isDigit c = true) :
    natText n ++ [c] = natText (10 * n + (c.toNat - 48)) := by
  obtain ⟨hchar, hlt⟩ := digitChar_toNat_sub hc
  rw [natText, natText, ← Nat.toDigits_append_toDigits (by decide) hn hlt,
    Nat.toDigits_of_lt_base hlt, hchar]

theorem natText_append_digits {n : ℕ} (hn : 0 < n) {s : Str}
    (hs : ∀ c ∈ s, isDigit c = true) :
    natText n ++ s = natText (n * 10 ^ s.length + digitsValue s) := by
  induction s generalizing n with
  | nil => simp [digitsValue]
  | cons c s ih =>
      have hc := hs c List.mem_cons_self
      have hrest := fun d hd => hs d (List.mem_cons_of_mem c hd)
      rw [List.append_cons, natText_append_digit hn hc, ih (by omega) hrest, digitsValue_cons]
      congr 1
      rw [List.length_cons, pow_succ]
      ring

/-- Digits without a leading zero are the text of the number they denote. -/
theorem natText_digitsValue {s : Str} (hs : ∀ c ∈ s, isDigit c = true)
    (hne : s ≠ []) (hhead : s.head? ≠ some '0') : natText (digitsValue s) = s := by
  cases s with
  | nil => exact absurd rfl hne
  | cons c s =>
      have hc := hs c List.mem_cons_self
      obtain ⟨hchar, hlt⟩ := digitChar_toNat_sub hc
      have hpos : 0 < c.toNat - 48 := by
        rcases Nat.eq_zero_or_pos (c.toNat - 48) with hzero | hpos
        · rw [hzero] at hchar
          exact absurd (by simp [← hchar]) hhead
        · exact hpos
      have htext := natText_append_digits hpos (fun d hd => hs d (List.mem_cons_of_mem c hd))
      rw [natText_of_lt hlt, hchar] at htext
      rw [digitsValue_cons, mul_comm]
      exact htext.symm

/-- Digits without a leading zero, or a zero alone. -/
def Canonical (digits : Str) : Prop := digits = ['0'] ∨ digits.head? ≠ some '0'

instance (digits : Str) : Decidable (Canonical digits) :=
  inferInstanceAs (Decidable (digits = ['0'] ∨ digits.head? ≠ some '0'))

/-- The number of decimal digits. -/
def numDigits (n : ℕ) : ℕ := (natText n).length

theorem numDigits_le_iff {n k : ℕ} (hk : 0 < k) : numDigits n ≤ k ↔ n < 10 ^ k :=
  Nat.length_toDigits_le_iff (by decide) hk

theorem numDigits_eq_iff {n k : ℕ} (hn : 0 < n) :
    numDigits n = k ↔ 0 < k ∧ 10 ^ (k - 1) ≤ n ∧ n < 10 ^ k := by
  have hpos : 0 < numDigits n := List.length_pos_iff.mpr (natText_ne_nil n)
  rcases Nat.lt_or_ge 1 k with hk | hk
  · have hupper := numDigits_le_iff (n := n) (k := k) (by omega)
    have hlower := numDigits_le_iff (n := n) (k := k - 1) (by omega)
    omega
  · have hone := numDigits_le_iff (n := n) (k := 1) one_pos
    rcases Nat.lt_or_ge 0 k with hk' | hk'
    · obtain rfl : k = 1 := by omega
      simp only [Nat.sub_self, pow_zero]
      omega
    · omega

theorem natText_append_natText {m : ℕ} (hm : 0 < m) (n : ℕ) :
    natText m ++ natText n = natText (m * 10 ^ numDigits n + n) := by
  rw [natText_append_digits hm fun _ hc => isDigit_of_mem_natText hc, digitsValue_natText]
  rfl

/-- The number `i` is followed by the digits of a number `w` in `i'`, and these
digits begin `j` and are followed by `j'` in it. -/
def Shifted (i j i' j' : ℕ) : Prop :=
  ∃ w k, 0 < i ∧ 0 < k ∧ 10 ^ (k - 1) ≤ w ∧ w < 10 ^ k ∧
    i' = i * 10 ^ k + w ∧ j = w * 10 ^ numDigits j' + j'

theorem Shifted.append_eq {i j i' j' : ℕ} (h : Shifted i j i' j') :
    natText i ++ natText j = natText i' ++ natText j' := by
  obtain ⟨w, k, hi, hk, hlow, hhigh, rfl, rfl⟩ := h
  have hw : 0 < w := lt_of_lt_of_le (by positivity) hlow
  obtain rfl : numDigits w = k := (numDigits_eq_iff hw).mpr ⟨hk, hlow, hhigh⟩
  rw [← natText_append_natText hi, ← natText_append_natText hw, List.append_assoc]

theorem Shifted.ne {i j i' j' : ℕ} (h : Shifted i j i' j') : i < i' := by
  obtain ⟨w, k, hi, hk, hlow, -, rfl, -⟩ := h
  have hw : 0 < w := lt_of_lt_of_le (by positivity) hlow
  have := Nat.le_mul_of_pos_right i (show 0 < 10 ^ k by positivity)
  omega

theorem Shifted.ten_le {i j i' j' : ℕ} (h : Shifted i j i' j') : 10 ≤ i' := by
  obtain ⟨w, k, hi, hk, -, -, rfl, -⟩ := h
  calc 10 = 1 * 10 ^ 1 := rfl
    _ ≤ i * 10 ^ k := Nat.mul_le_mul hi (Nat.pow_le_pow_right (by decide) hk)
    _ ≤ i * 10 ^ k + w := Nat.le_add_right _ _

theorem eq_zero_of_head?_natText {n : ℕ} (hhead : (natText n).head? = some '0') : n = 0 := by
  by_contra hne
  exact head?_natText_ne_zero (Nat.pos_of_ne_zero hne) hhead

/-- Two pairs of numbers with the same digits in a row differ by a shift. -/
theorem shifted_of_append_eq {i j i' j' : ℕ} {t : Str} (ht : t ≠ [])
    (hi : natText i' = natText i ++ t) (hj : natText j = t ++ natText j') :
    Shifted i j i' j' := by
  have hdigits : ∀ c ∈ t, isDigit c = true := fun c hc =>
    isDigit_of_mem_natText (n := j) (by simp [hj, hc])
  have hipos : 0 < i := by
    by_contra hzero
    obtain rfl : i = 0 := by omega
    have hi' : i' = 0 := eq_zero_of_head?_natText (by rw [hi]; rfl)
    rw [hi'] at hi
    exact ht (List.append_right_eq_self.mp hi.symm)
  -- a number that begins with a zero is zero, and `j` has at least two digits
  have hhead : t.head? ≠ some '0' := by
    intro hzero
    have hj0 : j = 0 := eq_zero_of_head?_natText
      (by rw [hj, List.head?_append_of_ne_nil _ ht, hzero])
    have hlen := congrArg List.length hj
    rw [hj0, List.length_append] at hlen
    have hone : (natText 0).length = 1 := rfl
    have hpos := List.length_pos_iff.mpr ht
    have hpos' := List.length_pos_iff.mpr (natText_ne_nil j')
    omega
  have htext := natText_digitsValue hdigits ht hhead
  have hw : 0 < digitsValue t := by
    by_contra hzero
    have hzero : digitsValue t = 0 := by omega
    rw [hzero] at htext
    exact hhead (by rw [← htext]; rfl)
  obtain ⟨hk, hlow, hhigh⟩ := (numDigits_eq_iff hw).mp rfl
  refine ⟨digitsValue t, numDigits (digitsValue t), hipos, hk, hlow, hhigh, ?_, ?_⟩
  · apply natText_injective
    rw [← natText_append_natText hipos, htext, hi]
  · apply natText_injective
    rw [← natText_append_natText hw, htext, hj]

theorem natText_append_eq_iff {i j i' j' : ℕ} :
    natText i ++ natText j = natText i' ++ natText j' ↔
      (i = i' ∧ j = j') ∨ Shifted i j i' j' ∨ Shifted i' j' i j := by
  constructor
  · intro heq
    rcases List.append_eq_append_iff.mp heq with ⟨t, hi, hj⟩ | ⟨t, hi, hj⟩
    · by_cases ht : t = []
      · subst ht
        exact Or.inl ⟨natText_injective (by simpa using hi.symm),
          natText_injective (by simpa using hj)⟩
      · exact Or.inr (Or.inl (shifted_of_append_eq ht hi hj))
    · by_cases ht : t = []
      · subst ht
        exact Or.inl ⟨natText_injective (by simpa using hi),
          natText_injective (by simpa using hj.symm)⟩
      · exact Or.inr (Or.inr (shifted_of_append_eq ht hi hj))
  · rintro (⟨rfl, rfl⟩ | h | h)
    · rfl
    · exact h.append_eq
    · exact h.append_eq.symm

/-! ## Integers -/

@[simp] theorem intText_natCast (n : ℕ) : intText n = natText n := rfl

theorem intText_neg {n : ℕ} (hn : 0 < n) : intText (-(n : ℤ)) = '-' :: natText n := by
  obtain ⟨m, rfl⟩ := Nat.exists_eq_succ_of_ne_zero hn.ne'
  rfl

/-- The characters of an integer's text. -/
theorem mem_intText {z : ℤ} {c : Char} (hc : c ∈ intText z) : c = '-' ∨ isDigit c = true := by
  cases z with
  | ofNat n => exact Or.inr (isDigit_of_mem_natText hc)
  | negSucc n =>
      rcases List.mem_cons.mp hc with rfl | hmem
      · exact Or.inl rfl
      · exact Or.inr (isDigit_of_mem_natText hmem)

theorem not_mem_intText {z : ℤ} {c : Char} (hminus : c ≠ '-') (hdigit : isDigit c = false) :
    c ∉ intText z := by
  intro hmem
  rcases mem_intText hmem with heq | heq
  · exact hminus heq
  · rw [hdigit] at heq
    contradiction

@[simp] theorem intText_ne_nil (z : ℤ) : intText z ≠ [] := by
  cases z with
  | ofNat n => exact natText_ne_nil n
  | negSucc n => exact List.cons_ne_nil _ _

theorem takeWhile_append_of_head {p : Char → Bool} {s rest : Str} (hs : ∀ c ∈ s, p c = true)
    (hrest : ∀ c ∈ rest.head?, p c = false) : (s ++ rest).takeWhile p = s := by
  rw [List.takeWhile_append_of_pos hs]
  cases rest with
  | nil => simp
  | cons c rest => simp [hrest c (by simp)]

theorem dropWhile_append_of_head {p : Char → Bool} {s rest : Str} (hs : ∀ c ∈ s, p c = true)
    (hrest : ∀ c ∈ rest.head?, p c = false) : (s ++ rest).dropWhile p = rest := by
  rw [List.dropWhile_append_of_pos hs]
  cases rest with
  | nil => simp
  | cons c rest => simp [hrest c (by simp)]

theorem takeWhile_isDigit_natText (n : ℕ) {rest : Str}
    (hrest : ∀ c ∈ rest.head?, isDigit c = false) :
    (natText n ++ rest).takeWhile isDigit = natText n :=
  takeWhile_append_of_head (fun _ hc => isDigit_of_mem_natText hc) hrest

theorem dropWhile_isDigit_natText (n : ℕ) {rest : Str}
    (hrest : ∀ c ∈ rest.head?, isDigit c = false) :
    (natText n ++ rest).dropWhile isDigit = rest :=
  dropWhile_append_of_head (fun _ hc => isDigit_of_mem_natText hc) hrest

theorem ne_of_isDigit {c d : Char} (hc : isDigit c = true) (hd : isDigit d = false) : c ≠ d := by
  rintro rfl
  rw [hd] at hc
  contradiction

theorem isSpace_of_isDigit {c : Char} (hc : isDigit c = true) : isSpace c = false := by
  refine Bool.eq_false_iff.mpr fun hspace => ?_
  simp only [isSpace, Bool.or_eq_true, beq_iff_eq] at hspace
  rcases hspace with ((((rfl | rfl) | rfl) | rfl) | rfl) | rfl <;> simp [isDigit] at hc

theorem exists_natText_eq_cons (n : ℕ) : ∃ c s, natText n = c :: s ∧ isDigit c = true := by
  obtain ⟨c, s, heq⟩ := List.exists_cons_of_ne_nil (natText_ne_nil n)
  exact ⟨c, s, heq, isDigit_of_mem_natText (n := n) (by simp [heq])⟩

theorem intval_digit {c : Char} (hc : isDigit c = true) (s : Str) :
    intval (c :: s) = digitsValue ((c :: s).takeWhile isDigit) := by
  have hdrop : (c :: s).dropWhile isSpace = c :: s := by simp [isSpace_of_isDigit hc]
  have hminus : c ≠ '-' := ne_of_isDigit hc rfl
  have hplus : c ≠ '+' := ne_of_isDigit hc rfl
  unfold intval
  rw [hdrop]
  split
  next heq => exact absurd (List.cons.inj heq).1 hminus
  next heq => exact absurd (List.cons.inj heq).1 hplus
  next => rfl

@[simp] theorem intval_minus (s : Str) :
    intval ('-' :: s) = -(digitsValue (s.takeWhile isDigit) : ℤ) := rfl

/-- The cast reads back a written integer, whatever non-digit text follows. -/
theorem intval_intText_append (z : ℤ) {rest : Str}
    (hrest : ∀ c ∈ rest.head?, isDigit c = false) : intval (intText z ++ rest) = z := by
  cases z with
  | ofNat n =>
      obtain ⟨c, s, heq, hc⟩ := exists_natText_eq_cons n
      have hread : intval (natText n ++ rest) =
          digitsValue ((natText n ++ rest).takeWhile isDigit) := by
        rw [heq, List.cons_append]
        exact intval_digit hc (s ++ rest)
      change intval (natText n ++ rest) = n
      rw [hread, takeWhile_isDigit_natText n hrest, digitsValue_natText]
  | negSucc n =>
      change intval ('-' :: (natText (n + 1) ++ rest)) = _
      rw [intval_minus, takeWhile_isDigit_natText _ hrest, digitsValue_natText]
      rfl

@[simp] theorem intval_intText (z : ℤ) : intval (intText z) = z := by
  have hread : intval (intText z ++ []) = z := intval_intText_append z (by simp)
  simpa using hread

theorem intText_injective : Function.Injective intText := by
  intro m n heq
  simpa using congrArg intval heq

end Foundation
