import Sato.Parsing.Meaning

/-! # Right sides that compare equal to zero

A right side is taken for the text `"0"` when it is a number of zeros, perhaps with
an exponent. An exponent is a name of one letter and a number after a sign, or a
name of a letter and digits. Only the first of these need not have the value zero.
-/

namespace Sato

open Foundation

namespace LinearExpression

/-- The name is the mark of an exponent. -/
def IsMark (name : Str) : Prop := name = ['e'] ∨ name = ['E']

/-- The first term and the later terms make a numeric string whose value is zero. -/
def ReadsZero : Term → List (Bool × Term) → Prop
  | .number size, [] => digitsValue size.digits = 0
  | .scaled size x, [] =>
      (∃ mark exponent, x.text = mark :: exponent ∧ IsMark [mark] ∧ exponent ≠ [] ∧
        ∀ c ∈ exponent, isDigit c = true) ∧ digitsValue size.digits = 0
  | .scaled size x, [(positive, .number exponent)] =>
      IsMark x.text ∧ roundsToZero (digitsValue size.digits)
        (if positive then digitsValue exponent.digits else -digitsValue exponent.digits) = true
  | _, _ => False

theorem isMark_singleton {c : Char} : IsMark [c] ↔ isExponentMark c = true := by
  simp [IsMark, isExponentMark]

theorem isSpace_of_mem_text {e : LinearExpression} {c : Char} (hc : c ∈ e.text) :
    isSpace c = false := by
  rcases mem_text hc with rfl | rfl | hword
  · rfl
  · rfl
  · exact isSpace_of_isWord hword

/-- The text after its first sign. -/
theorem dropSign_text (e : LinearExpression) :
    dropSign ((e.text.dropWhile isSpace).rdropWhile isSpace) =
      e.first.text ++ e.rest.flatMap laterText := by
  have hleft : e.text.dropWhile isSpace = e.text :=
    List.dropWhile_eq_self_iff.mpr fun hpos => by
      simp [isSpace_of_mem_text (List.getElem_mem hpos)]
  have hright : e.text.rdropWhile isSpace = e.text :=
    List.rdropWhile_eq_self_iff.mpr fun hne => by
      simp [isSpace_of_mem_text (List.getLast_mem hne)]
  rw [hleft, hright, text]
  cases e.negative with
  | true => rfl
  | false =>
      obtain ⟨c, s, heq⟩ := List.exists_cons_of_ne_nil e.first.text_ne_nil
      have hword : isWord c = true := Term.isWord_of_mem (t := e.first) (by simp [heq])
      exact dropSign_eq_self (by simp [heq, isSign_of_isWord hword])

/-- Later terms begin with a sign. -/
theorem isSign_of_head?_later {rest : List (Bool × Term)} :
    ∀ c ∈ (rest.flatMap laterText).head?, isSign c = true := by
  cases rest with
  | nil => simp
  | cons term rest => cases h : term.1 <;> simp [laterText, isSign, h]

theorem not_endsZero_of_isSign {mantissa : ℕ} {c : Char} {s : Str} (hc : isSign c = true) :
    ¬ EndsZero mantissa (c :: s) := by
  rintro ⟨hmark, -⟩
  simp only [isExponentMark, isSign, Bool.or_eq_true, beq_iff_eq] at hmark hc
  rcases hmark with rfl | rfl <;> simp at hc

theorem forall_isDigit_text {t : Term} :
    (∀ c ∈ t.text, isDigit c = true) ↔ ∃ size, t = .number size := by
  constructor
  · intro h
    cases t with
    | number size => exact ⟨size, rfl⟩
    | name x =>
        obtain ⟨c, s, hname, hletter, -⟩ := x.isName
        have hdigit := h c (by simp [Term.text, hname])
        rw [isDigit_of_isLetter hletter] at hdigit
        contradiction
    | scaled size x =>
        obtain ⟨c, s, hname, hletter, -⟩ := x.isName
        have hdigit := h c (by simp [Term.text, hname])
        rw [isDigit_of_isLetter hletter] at hdigit
        contradiction
  · rintro ⟨size, rfl⟩
    exact size.isDigit_of_mem

/-- A name ends a numeric string alone when digits follow its mark. -/
theorem endsZero_name {mantissa : ℕ} {x : VarName} :
    EndsZero mantissa x.text ↔
      (∃ mark exponent, x.text = mark :: exponent ∧ IsMark [mark] ∧ exponent ≠ [] ∧
        ∀ c ∈ exponent, isDigit c = true) ∧ mantissa = 0 := by
  obtain ⟨mark, exponent, hname, -, hword⟩ := x.isName
  have hsign : dropSign exponent = exponent := dropSign_eq_self fun c hc =>
    isSign_of_isWord (hword c (List.mem_of_mem_head? hc))
  have hhead : exponent.head? ≠ some '-' := fun hhead =>
    ne_of_isWord (hword '-' (List.mem_of_mem_head? hhead)) rfl rfl
  rw [hname, EndsZero, hsign, if_neg hhead, one_mul, roundsToZero_natCast, ← isMark_singleton]
  simp [and_assoc]

/-- A name of more than one letter and a sign do not make an exponent. -/
theorem not_endsZero_of_isWord {mantissa : ℕ} {mark sign : Char} {name s : Str}
    (hne : name ≠ []) (hname : ∀ c ∈ name, isWord c = true) (hsign : isSign sign = true) :
    ¬ EndsZero mantissa (mark :: (name ++ sign :: s)) := by
  rintro ⟨-, -, hdigits, -⟩
  obtain ⟨c, name, rfl⟩ := List.exists_cons_of_ne_nil hne
  rw [dropSign_eq_self (by simp [isSign_of_isWord (hname c List.mem_cons_self)])] at hdigits
  have hdigit := hdigits sign (by simp)
  rw [(isDigit_of_isSign hsign).1] at hdigit
  contradiction

/-- A mark and a later term end a numeric string when the term is a number. -/
theorem endsZero_mark {mantissa : ℕ} {mark : Char} {positive : Bool} {s : Str} :
    EndsZero mantissa (mark :: (if positive then '+' else '-') :: s) ↔
      IsMark [mark] ∧ s ≠ [] ∧ (∀ c ∈ s, isDigit c = true) ∧
        roundsToZero mantissa (if positive then digitsValue s else -digitsValue s) = true := by
  rw [EndsZero, ← isMark_singleton]
  cases positive <;> simp [dropSign, isSign]

/-- A name and later terms end a numeric string when there is one number after a mark. -/
theorem endsZero_later {size : Numeral} {x : VarName} {term : Bool × Term}
    {rest : List (Bool × Term)} :
    EndsZero (digitsValue size.digits) (x.text ++ (term :: rest).flatMap laterText) ↔
      ReadsZero (.scaled size x) (term :: rest) := by
  obtain ⟨positive, t⟩ := term
  obtain ⟨mark, name, hname, -, hword⟩ := x.isName
  have hsign : isSign (if positive then '+' else '-') = true := by cases positive <;> rfl
  rw [List.flatMap_cons, laterText, List.cons_append, hname, List.cons_append]
  by_cases hnil : name = []
  · rw [hnil, List.nil_append, endsZero_mark]
    rw [hnil] at hname
    cases rest with
    | nil =>
        rw [List.flatMap_nil, List.append_nil, forall_isDigit_text]
        cases t with
        | number exponent => simp [ReadsZero, Term.text, hname, exponent.ne_nil]
        | name y => simp [ReadsZero]
        | scaled other y => simp [ReadsZero]
    | cons next rest =>
        have hnot : ¬ ReadsZero (.scaled size x) ((positive, t) :: next :: rest) := by
          simp [ReadsZero]
        refine iff_of_false (fun h => ?_) hnot
        -- the sign of the next term is no digit
        have hdigit := h.2.2.1 (if next.1 then '+' else '-') (by simp [laterText])
        rw [(isDigit_of_isSign (by cases next.1 <;> rfl)).1] at hdigit
        contradiction
  · refine iff_of_false (not_endsZero_of_isWord hnil hword hsign) fun h => ?_
    have hmark : IsMark x.text := by
      cases t with
      | number exponent =>
          cases rest with
          | nil => exact h.1
          | cons next rest => exact h.elim
      | name y => exact h.elim
      | scaled other y => exact h.elim
    rw [hname] at hmark
    simp [IsMark, hnil] at hmark

theorem looseEqZero_text (e : LinearExpression) :
    looseEqZero e.text = true ↔ ReadsZero e.first e.rest := by
  have htext := e.dropSign_text
  have hlater : ∀ c ∈ (e.rest.flatMap laterText).head?, isDigit c = false ∧ c ≠ '.' :=
    fun c hc => isDigit_of_isSign (isSign_of_head?_later c hc)
  cases hfirst : e.first with
  | number size =>
      rw [hfirst, Term.text] at htext
      rw [looseEqZero_iff_endsZero htext size.isDigit_of_mem hlater, and_iff_right size.ne_nil]
      cases e.rest with
      | nil => rfl
      | cons term rest =>
          have hsign : isSign (if term.1 then '+' else '-') = true := by cases term.1 <;> rfl
          exact iff_of_false (not_endsZero_of_isSign hsign) id
  | name x =>
      obtain ⟨c, s, hname, hletter, -⟩ := x.isName
      rw [hfirst, Term.text, hname, ← List.nil_append (_ ++ _)] at htext
      have hhead : isDigit c = false ∧ c ≠ '.' :=
        ⟨isDigit_of_isLetter hletter, ne_of_isWord (isWord_of_isLetter hletter) rfl⟩
      rw [looseEqZero_iff_endsZero htext (by simp) (by simpa using hhead)]
      simp [ReadsZero]
  | scaled size x =>
      obtain ⟨c, s, hname, hletter, -⟩ := x.isName
      have hhead : isDigit c = false ∧ c ≠ '.' :=
        ⟨isDigit_of_isLetter hletter, ne_of_isWord (isWord_of_isLetter hletter) rfl⟩
      rw [hfirst, Term.text, List.append_assoc] at htext
      rw [looseEqZero_iff_endsZero htext size.isDigit_of_mem (by simpa [hname] using hhead),
        and_iff_right size.ne_nil]
      cases e.rest with
      | nil => rw [List.flatMap_nil, List.append_nil, endsZero_name, ReadsZero]
      | cons term rest => exact endsZero_later

end LinearExpression

namespace Constraint

/-- A right side that is taken for the text `"0"` is zero unless it is a number before the mark
of an exponent, a sign and a number, and these are not both zero. -/
theorem zeroReadsZero_iff (c : Constraint) :
    c.ZeroReadsZero ↔ ∀ size x positive exponent, c.right.first = .scaled size x →
      c.right.rest = [(positive, .number exponent)] → LinearExpression.IsMark x.text →
      roundsToZero (digitsValue size.digits)
        (if positive then digitsValue exponent.digits else -digitsValue exponent.digits) = true →
      digitsValue size.digits = 0 ∧ digitsValue exponent.digits = 0 := by
  rw [ZeroReadsZero, LinearExpression.looseEqZero_text]
  constructor
  · intro h size x positive exponent hfirst hrest hmark hrounds
    rw [hfirst, hrest] at h
    have hvalue : ∀ σ, c.right.value σ = 0 := h ⟨hmark, hrounds⟩
    simp only [LinearExpression.value, hfirst, hrest] at hvalue
    -- the constant is the value at zero, and the coefficient the rest of the value at one
    have hzero := hvalue fun _ => 0
    have hone := hvalue fun _ => 1
    simp only [LinearExpression.signedValue, Term.value, List.map_cons, List.map_nil,
      List.sum_cons, List.sum_nil] at hzero hone
    split at hzero <;> split at hone <;> omega
  · intro h hreads σ
    rw [LinearExpression.value]
    cases hfirst : c.right.first with
    | name x => simp [hfirst, LinearExpression.ReadsZero] at hreads
    | number size =>
        cases hrest : c.right.rest with
        | nil =>
            rw [hfirst, hrest] at hreads
            have hsize : digitsValue size.digits = 0 := hreads
            simp [LinearExpression.signedValue, Term.value, hsize]
        | cons term rest => simp [hfirst, hrest, LinearExpression.ReadsZero] at hreads
    | scaled size x =>
        cases hrest : c.right.rest with
        | nil =>
            rw [hfirst, hrest] at hreads
            simp [LinearExpression.signedValue, Term.value, hreads.2]
        | cons term rest =>
            rw [hfirst, hrest] at hreads
            obtain ⟨positive, t⟩ := term
            cases t with
            | number exponent =>
                cases rest with
                | nil =>
                    have hboth := h size x positive exponent hfirst hrest hreads.1 hreads.2
                    simp [LinearExpression.signedValue, Term.value, hboth]
                | cons next rest => exact hreads.elim
            | name y => exact hreads.elim
            | scaled other y => exact hreads.elim

end Constraint

end Sato
