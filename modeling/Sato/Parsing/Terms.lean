import Sato.Foundation.Result
import Sato.Parsing.Summands
import Sato.Semantics

/-! # The term loop

A pass of the term loop either throws or reads a summand as it is written: its
number goes to the constant, or its coefficient to the term of its variable. A
number with a leading zero, one of more than 64 bits, and a zero after a minus sign
are never accepted.
-/

namespace Sato

open Foundation

/-- The names that a declaration can have. -/
def IsName (s : Str) : Prop :=
  ∃ c t, s = c :: t ∧ isLetter c = true ∧ ∀ d ∈ t, isWord d = true

theorem IsName.isWord_of_mem {s : Str} (h : IsName s) {c : Char} (hc : c ∈ s) :
    isWord c = true := by
  obtain ⟨d, t, rfl, hd, ht⟩ := h
  rcases List.mem_cons.mp hc with rfl | hc
  · exact isWord_of_isLetter hd
  · exact ht c hc

theorem IsName.head?_not_isDigit {s : Str} (h : IsName s) :
    ∀ c ∈ s.head?, isDigit c = false := by
  obtain ⟨d, t, rfl, hd, -⟩ := h
  intro c hc
  rw [← Option.some.inj hc]
  exact isDigit_of_isLetter hd

/-- All variables have such names. -/
def Declared (vars : List IntegerVariable) : Prop := ∀ v ∈ vars, IsName v.name

theorem Declared.isName {vars : List IntegerVariable} (h : Declared vars) {name : Str}
    {var : IntegerVariable} (hvar : IntegerVariable.varExistsInArray name vars = some var) :
    IsName name := by
  obtain ⟨hmem, rfl⟩ := IntegerVariable.varExistsInArray_eq_some hvar
  exact h var hmem

namespace Summand

def sign (x : Summand) : Str := if x.positive then [] else ['-']

def digits (x : Summand) : Str := x.body.takeWhile isDigit

theorem text_eq (x : Summand) : x.text = x.sign ++ (x.digits ++ x.name) := by
  rw [digits, name, List.takeWhile_append_dropWhile, text, sign]
  cases x.positive <;> rfl

theorem text_ne_nil_of_name {x : Summand} (hname : x.name ≠ []) : x.text ≠ [] := by
  rw [text_eq]
  exact List.append_ne_nil_of_right_ne_nil _ (List.append_ne_nil_of_right_ne_nil _ hname)

theorem isDigit_of_mem_digits {x : Summand} {c : Char} (hc : c ∈ x.digits) : isDigit c = true :=
  List.mem_takeWhile_imp hc

theorem head?_name (x : Summand) : ∀ c ∈ x.name.head?, isDigit c = false := by
  intro c hc
  have hhead := List.head?_dropWhile_not isDigit x.body
  rw [name, Option.mem_def] at hc
  rwa [hc] at hhead

theorem digits_eq_nil_iff {x : Summand} : x.digits = [] ↔ x.name = x.body := by
  have hsplit := List.takeWhile_append_dropWhile (p := isDigit) (l := x.body)
  rw [digits, name]
  constructor
  · intro hnil
    rwa [hnil, List.nil_append] at hsplit
  · intro hname
    rw [hname] at hsplit
    exact List.append_left_eq_self.mp hsplit

theorem size_of_digits_eq_nil {x : Summand} (hdigits : x.digits = []) : x.size = 1 :=
  if_pos hdigits

/-- The number is cast to an integer whose text it is. -/
def WrittenBack (x : Summand) : Prop :=
  x.digits = [] ∨ intText (saturate x.coeff) = x.sign ++ x.digits

end Summand

namespace Inequation

/-! ## The coefficient -/

section Coefficient

variable {x : Summand}

theorem pregMatch_coeffPattern_of_digits (hdigits : x.digits ≠ []) :
    pregMatch coeffPattern x.text = some ⟨x.sign ++ x.digits, []⟩ := by
  have hopt : ((Regex.opt (· == '-')).run true (x.sign ++ (x.digits ++ x.name))).head? =
      some (⟨x.sign, []⟩, x.digits ++ x.name) := by
    obtain ⟨c, s, heq⟩ := List.exists_cons_of_ne_nil hdigits
    have hc : (c == '-') = false := by
      rw [beq_eq_false_iff_ne]
      apply ne_of_isDigit _ rfl
      exact Summand.isDigit_of_mem_digits (x := x) (by simp [heq])
    rw [Summand.sign, heq]
    cases x.positive <;> simp [Regex.run, hc]
  have hplus : ∀ start, ((Regex.plus isDigit).run start (x.digits ++ x.name)).head? =
      some (⟨x.digits, []⟩, x.name) := fun start =>
    Regex.head?_run_plus_append start hdigits (fun _ hc => Summand.isDigit_of_mem_digits hc)
      x.head?_name
  rw [coeffPattern, pregMatch_bol, Summand.text_eq]
  exact Regex.headMatch_of_head? (Regex.head?_run_seq hopt (hplus _))
    (List.append_ne_nil_of_right_ne_nil _ hdigits)

/-- The optional sign leaves the body, or the whole text when it is given back. -/
theorem rest_of_optional_minus (hminus : '-' ∉ x.body) {found : Match × Str}
    (hfound : found ∈ (Regex.opt (· == '-')).run true x.text) :
    found.2 = x.body ∨ found.2 = '-' :: x.body := by
  rw [Summand.text] at hfound
  cases hpositive : x.positive with
  | true =>
      simp only [hpositive, if_true] at hfound
      cases hcons : x.body with
      | nil =>
          rw [hcons, Regex.run, List.mem_singleton] at hfound
          exact Or.inl (by rw [hfound])
      | cons c s =>
          have hc : ¬ (c == '-') = true := by
            rw [beq_iff_eq]
            rintro rfl
            exact hminus (by simp [hcons])
          rw [hcons, Regex.run, if_neg hc, List.mem_singleton] at hfound
          exact Or.inl (by rw [hfound])
  | false =>
      simp only [hpositive, Bool.false_eq_true, if_false, Regex.run, beq_self_eq_true,
        if_true] at hfound
      rcases List.mem_pair.mp hfound with rfl | rfl
      · exact Or.inl rfl
      · exact Or.inr rfl

theorem pregMatch_coeffPattern_of_no_digits (hminus : '-' ∉ x.body) (hdigits : x.digits = []) :
    pregMatch coeffPattern x.text = none := by
  have hbody : ∀ c ∈ x.body.head?, isDigit c = false := by
    rw [← Summand.digits_eq_nil_iff.mp hdigits]
    exact x.head?_name
  rw [coeffPattern, pregMatch_bol]
  apply Regex.headMatch_eq_none_of_run
  apply Regex.run_seq_eq_nil
  intro found hfound
  apply Regex.run_plus_eq_nil
  rcases rest_of_optional_minus hminus hfound with hrest | hrest
  · rwa [hrest]
  · rw [hrest]
    rintro c hc
    obtain rfl := Option.some.inj hc
    rfl

theorem intval_digits (hdigits : x.digits ≠ []) : intval (x.sign ++ x.digits) = x.coeff := by
  have htake : x.digits.takeWhile isDigit = x.digits :=
    List.takeWhile_eq_self_iff.mpr fun _ hc => Summand.isDigit_of_mem_digits hc
  have hsize : x.size = digitsValue x.digits := if_neg hdigits
  obtain ⟨c, s, heq⟩ := List.exists_cons_of_ne_nil hdigits
  have hc : isDigit c = true := Summand.isDigit_of_mem_digits (x := x) (by simp [heq])
  rw [Summand.coeff, hsize, Summand.sign]
  cases x.positive with
  | true =>
      have hread := intval_digit hc s
      rw [← heq, htake] at hread
      simpa using hread
  | false =>
      have hread := intval_minus x.digits
      rw [htake] at hread
      simpa using hread

/-- The part of a numeral that a shorter numeral leaves begins with a digit. -/
theorem head_of_natText_append {k : ℕ} {rest : Str} (hne : natText k ≠ x.digits)
    (happend : natText k ++ rest = x.digits ++ x.name) :
    ∃ c t, rest = c :: t ∧ isDigit c = true := by
  rcases List.append_eq_append_iff.mp happend with ⟨u, hdigits, hrest⟩ | ⟨u, htext, hname⟩
  · cases u with
    | nil => exact absurd (by simpa using hdigits.symm) hne
    | cons c u =>
        have hc : c ∈ x.digits := by simp [hdigits]
        exact ⟨c, u ++ x.name, hrest, Summand.isDigit_of_mem_digits hc⟩
  · cases u with
    | nil => exact absurd (by simpa using htext) hne
    | cons c u =>
        have hdigit : isDigit c = true := isDigit_of_mem_natText (n := k) (by simp [htext])
        have hfalse := x.head?_name c (by simp [hname])
        rw [hdigit] at hfalse
        contradiction

/-- The same for an integer and the part of a summand after its coefficient. -/
theorem head_of_intText_append {k : ℤ} {rest : Str} (hdigits : x.digits ≠ [])
    (hne : intText k ≠ x.sign ++ x.digits) (happend : intText k ++ rest = x.text) :
    ∃ c t, rest = c :: t ∧ isDigit c = true := by
  obtain ⟨d, s, heq⟩ := List.exists_cons_of_ne_nil hdigits
  have hd : isDigit d = true := Summand.isDigit_of_mem_digits (x := x) (by simp [heq])
  rw [Summand.text_eq] at happend
  rw [Summand.sign] at happend hne
  cases hpositive : x.positive with
  | true =>
      simp only [hpositive, if_true, List.nil_append] at happend hne
      cases k with
      | ofNat n => exact head_of_natText_append hne happend
      | negSucc n =>
          rw [heq] at happend
          exact absurd (List.cons.inj happend).1.symm (ne_of_isDigit hd rfl)
  | false =>
      simp only [hpositive, Bool.false_eq_true, if_false] at happend hne
      cases k with
      | ofNat n =>
          obtain ⟨c, t, hn, hc⟩ := exists_natText_eq_cons n
          rw [Int.ofNat_eq_natCast, intText_natCast, hn] at happend
          exact absurd (List.cons.inj happend).1 (ne_of_isDigit hc rfl)
      | negSucc n =>
          refine head_of_natText_append (fun heq => hne ?_) (List.cons.inj happend).2
          rw [intText, heq]
          rfl

theorem head_of_not_cut {k : ℤ} (hdigits : x.digits ≠ [])
    (hne : intText k ≠ x.sign ++ x.digits) :
    ∃ c rest, pregReplace (.seq .bol (.lit (intText k))) [] x.text = c :: rest ∧
      isLetter c = false := by
  have hletter : ∀ {c : Char}, isDigit c = true → isLetter c = false := by
    intro c hc
    by_contra h
    rw [isDigit_of_isLetter (by simpa using h)] at hc
    contradiction
  -- the cast text is cut off the head, or nothing is
  by_cases hstarts : intText k <+: x.text
  · obtain ⟨rest, htext⟩ := hstarts
    obtain ⟨c, t, rfl, hc⟩ := head_of_intText_append hdigits hne htext
    refine ⟨c, t, ?_, hletter hc⟩
    rw [← htext, pregReplace_bol_lit (intText_ne_nil _), List.nil_append]
  · rw [pregReplace_bol_lit_of_not_starts [] hstarts, Summand.text_eq]
    obtain ⟨c, s, heq⟩ := List.exists_cons_of_ne_nil hdigits
    rw [Summand.sign, heq]
    cases x.positive with
    | true =>
        refine ⟨c, s ++ x.name, rfl, hletter ?_⟩
        exact Summand.isDigit_of_mem_digits (x := x) (by simp [heq])
    | false => exact ⟨'-', c :: s ++ x.name, rfl, rfl⟩

theorem readCoeff_of_digits (hdigits : x.digits ≠ []) :
    readCoeff x.text = (saturate x.coeff,
      pregReplace (.seq .bol (.lit (intText (saturate x.coeff)))) [] x.text) := by
  unfold readCoeff
  rw [pregMatch_coeffPattern_of_digits hdigits]
  simp only [intval_digits hdigits]

/-- A number is written back as it was if the unbounded cast does so and it fits. -/
theorem writtenBack_iff :
    x.WrittenBack ↔ (x.digits = [] ∨ intText x.coeff = x.sign ++ x.digits) ∧ Fits x.coeff := by
  by_cases hdigits : x.digits = []
  · have hfits : Fits x.coeff := by
      rw [Summand.coeff, Summand.size_of_digits_eq_nil hdigits]
      cases x.positive <;> decide
    simp [Summand.WrittenBack, hdigits, hfits]
  · rw [Summand.WrittenBack, or_iff_right hdigits, or_iff_right hdigits]
    constructor
    · intro htext
      have hcoeff : saturate x.coeff = x.coeff := by
        rw [← intval_digits hdigits, ← htext, intval_intText]
        exact saturate_eq_self_iff.mpr (fits_saturate _)
      exact ⟨hcoeff ▸ htext, saturate_eq_self_iff.mp hcoeff⟩
    · rintro ⟨htext, hfits⟩
      rwa [saturate_eq_self_iff.mpr hfits]

/-- A coefficient is cut off whole when the cast writes it back as it was. -/
theorem readCoeff_of_writtenBack (hminus : '-' ∉ x.body) (hback : x.WrittenBack) :
    readCoeff x.text = (x.coeff, x.name) := by
  by_cases hdigits : x.digits = []
  · have hname : x.name = x.body := Summand.digits_eq_nil_iff.mp hdigits
    have hsize : x.size = 1 := Summand.size_of_digits_eq_nil hdigits
    unfold readCoeff
    rw [pregMatch_coeffPattern_of_no_digits hminus hdigits, Summand.coeff, hsize, hname,
      Summand.text]
    cases x.positive with
    | true =>
        have htest : pregTest (.seq .bol (.lit ['-'])) x.body = false := by
          rw [Bool.eq_false_iff, Ne, pregTest_bol_lit (List.cons_ne_nil _ _)]
          rintro ⟨rest, hrest⟩
          exact hminus (by simp [← hrest])
        simp [htest]
    | false =>
        have htest : pregTest (.seq .bol (.lit ['-'])) ('-' :: x.body) = true := by
          rw [pregTest_bol_lit (List.cons_ne_nil _ _)]
          exact ⟨x.body, rfl⟩
        have hcut : pregReplace (.seq .bol (.lit ['-'])) [] ('-' :: x.body) = x.body :=
          pregReplace_bol_lit (List.cons_ne_nil _ _) [] x.body
        simp [htest, hcut]
  · have hfits := (writtenBack_iff.mp hback).2
    have hback := hback.resolve_left hdigits
    have hcut := pregReplace_bol_lit (intText_ne_nil (saturate x.coeff)) [] x.name
    rw [hback, List.append_assoc, ← Summand.text_eq] at hcut
    rw [readCoeff_of_digits hdigits, hback, hcut, saturate_eq_self_iff.mpr hfits]
    rfl

/-- Otherwise what is left begins with a digit or a minus sign. -/
theorem readCoeff_of_not_writtenBack (hback : ¬ x.WrittenBack) :
    ∃ c rest, (readCoeff x.text).2 = c :: rest ∧ isLetter c = false := by
  rw [Summand.WrittenBack, not_or] at hback
  rw [readCoeff_of_digits hback.1]
  exact head_of_not_cut hback.1 hback.2

end Coefficient

/-! ## One pass -/

/-- The terms after a coefficient was added to that of a variable. -/
def merge (terms : List LinearTerm) (var : IntegerVariable) (coeff : ℤ) : List LinearTerm :=
  match LinearTerm.varExistsInArray var terms with
  | none => terms ++ [⟨var, coeff⟩]
  | some key => terms.modify key (·.addCoeff coeff)

theorem merge_nil (var : IntegerVariable) (coeff : ℤ) : merge [] var coeff = [⟨var, coeff⟩] := rfl

theorem merge_cons (t : LinearTerm) (terms : List LinearTerm) (var : IntegerVariable)
    (coeff : ℤ) :
    merge (t :: terms) var coeff =
      if t.var = var then t.addCoeff coeff :: terms else t :: merge terms var coeff := by
  rw [merge, LinearTerm.varExistsInArray, List.findIdx?_cons, merge, LinearTerm.varExistsInArray]
  by_cases hvar : t.var = var
  · simp [hvar]
  · simp only [hvar, decide_false, Bool.false_eq_true, if_false]
    cases terms.findIdx? fun t => t.var = var <;> rfl

/-- The sum of the terms under any weights grows by the new coefficient. -/
theorem sum_merge (weight : IntegerVariable → ℤ) (terms : List LinearTerm)
    (var : IntegerVariable) (coeff : ℤ) :
    ((merge terms var coeff).map fun t => t.coeff * weight t.var).sum =
      (terms.map fun t => t.coeff * weight t.var).sum + coeff * weight var := by
  induction terms with
  | nil => simp [merge_nil]
  | cons t terms ih =>
      rw [merge_cons]
      split
      next hvar =>
        simp only [List.map_cons, List.sum_cons, LinearTerm.addCoeff, hvar]
        ring
      next =>
        simp only [List.map_cons, List.sum_cons, ih]
        ring

theorem mem_vars_merge {terms : List LinearTerm} {var : IntegerVariable} {coeff : ℤ}
    {x : IntegerVariable} :
    x ∈ (merge terms var coeff).map LinearTerm.var ↔ x ∈ terms.map LinearTerm.var ∨ x = var := by
  induction terms with
  | nil => simp [merge_nil]
  | cons t terms ih =>
      rw [merge_cons]
      split
      next hvar =>
        simp only [List.map_cons, List.mem_cons, LinearTerm.addCoeff, hvar]
        tauto
      next => simp only [List.map_cons, List.mem_cons, ih, or_assoc]

theorem exists_name_merge {terms : List LinearTerm} {var : IntegerVariable} {coeff : ℤ}
    {name : Str} :
    (∃ t ∈ merge terms var coeff, t.var.name = name) ↔
      (∃ t ∈ terms, t.var.name = name) ∨ var.name = name := by
  have hmap : ∀ ts : List LinearTerm, (∃ t ∈ ts, t.var.name = name) ↔
      ∃ v ∈ ts.map LinearTerm.var, v.name = name := fun ts =>
    (exists_mem_map (f := LinearTerm.var) (P := fun v => v.name = name)).symm
  rw [hmap, hmap]
  simp only [mem_vars_merge, or_and_right, exists_or, exists_eq_left]

theorem nodup_vars_merge {terms : List LinearTerm} (hnodup : (terms.map LinearTerm.var).Nodup)
    (var : IntegerVariable) (coeff : ℤ) : ((merge terms var coeff).map LinearTerm.var).Nodup := by
  induction terms with
  | nil => simp [merge_nil]
  | cons t terms ih =>
      rw [List.map_cons, List.nodup_cons] at hnodup
      rw [merge_cons]
      split
      · exact List.nodup_cons.mpr hnodup
      next hvar =>
        refine List.nodup_cons.mpr ⟨fun hmem => ?_, ih hnodup.2⟩
        rcases mem_vars_merge.mp hmem with hmem | heq
        · exact hnodup.1 hmem
        · exact hvar heq

/-- No declared name begins like a coefficient that was not cut off. -/
theorem addTerm_ne_ok {vars : List IntegerVariable} (hvars : Declared vars) {x : Summand}
    (hback : ¬ x.WrittenBack) (state next : TermState) : addTerm vars state x.text ≠ .ok next := by
  intro hok
  obtain ⟨c, rest, hread, hc⟩ := readCoeff_of_not_writtenBack hback
  have hpair : readCoeff x.text = ((readCoeff x.text).1, c :: rest) := by rw [← hread]
  unfold addTerm at hok
  rw [hpair] at hok
  simp only [List.cons_ne_nil, if_false] at hok
  split at hok
  · contradiction
  · split at hok
    next => contradiction
    next var hvar =>
      obtain ⟨d, t, hname, hd, -⟩ := hvars.isName hvar
      rw [(List.cons.inj hname).1, hd] at hc
      contradiction

theorem readCoeff_of_addTerm {vars : List IntegerVariable} (hvars : Declared vars) {x : Summand}
    (hminus : '-' ∉ x.body) {state next : TermState} (hok : addTerm vars state x.text = .ok next) :
    readCoeff x.text = (x.coeff, x.name) ∧ Fits x.coeff := by
  have hback : x.WrittenBack := by
    by_contra hback
    exact addTerm_ne_ok hvars hback state next hok
  exact ⟨readCoeff_of_writtenBack hminus hback, (writtenBack_iff.mp hback).2⟩

/-- What an accepted summand does to the state of the loop. -/
theorem addTerm_eq_ok {vars : List IntegerVariable} (hvars : Declared vars) {x : Summand}
    (hminus : '-' ∉ x.body) {state next : TermState} (hok : addTerm vars state x.text = .ok next) :
    (x.name = [] ∧ next = { state with const := state.const - x.coeff }) ∨
      (x.name ≠ [] ∧ x.coeff ≠ 0 ∧ ∃ var, IntegerVariable.varExistsInArray x.name vars = some var ∧
        next = { state with terms := merge state.terms var x.coeff }) := by
  have hread := (readCoeff_of_addTerm hvars hminus hok).1
  unfold addTerm at hok
  rw [hread] at hok
  simp only at hok
  by_cases hname : x.name = []
  · rw [if_pos hname] at hok
    refine Or.inl ⟨hname, ?_⟩
    rw [← Except.ok.inj hok, neg_one_mul, sub_eq_add_neg]
  · rw [if_neg hname] at hok
    refine Or.inr ⟨hname, ?_⟩
    split at hok
    next => contradiction
    next hcoeff =>
      split at hok
      next => contradiction
      next var hvar =>
        refine ⟨hcoeff, var, hvar, ?_⟩
        cases hkey : LinearTerm.varExistsInArray var state.terms with
        | none =>
            simp only [hkey] at hok
            rw [← Except.ok.inj hok, merge, hkey]
        | some key =>
            simp only [hkey] at hok
            rw [← Except.ok.inj hok, merge, hkey]

end Inequation

/-! ## The whole loop -/

namespace Summand

/-- The number a summand adds to the side, when it has no name. -/
def number (x : Summand) : ℤ := if x.name = [] then x.coeff else 0

/-- What a summand with a name adds to the side, for weights of the names. -/
def weigh (weight : Str → ℤ) (x : Summand) : ℤ :=
  if x.name = [] then 0 else x.coeff * weight x.name

/-- The value of a summand under an assignment. -/
def value (σ : Assignment) (x : Summand) : ℤ := x.number + x.weigh σ

theorem flip_value (σ : Assignment) (x : Summand) : x.flip.value σ = -x.value σ := by
  simp only [value, number, weigh, flip_name, flip_coeff]
  split <;> ring

/-- The coefficients written before a name. -/
def writtenCoeffs (name : Str) (xs : List Summand) : List ℤ :=
  (xs.filter fun x => x.name = name).map coeff

theorem writtenCoeffs_append (name : Str) (xs ys : List Summand) :
    writtenCoeffs name (xs ++ ys) = writtenCoeffs name xs ++ writtenCoeffs name ys := by
  simp [writtenCoeffs]

/-- Their sum. -/
def writtenCoeff (name : Str) (xs : List Summand) : ℤ := (writtenCoeffs name xs).sum

/-- The written coefficient of a name is the weight of that name alone. -/
theorem sum_weigh_eq_writtenCoeff {name : Str} (hname : name ≠ []) (xs : List Summand) :
    (xs.map (weigh fun other => if other = name then 1 else 0)).sum = writtenCoeff name xs := by
  unfold writtenCoeff writtenCoeffs
  induction xs with
  | nil => rfl
  | cons x xs ih =>
      rw [List.map_cons, List.sum_cons, ih, weigh]
      by_cases hx : x.name = name
      · simp [hx, hname]
      · simp [hx]

end Summand

namespace Inequation

theorem sum_indicator {terms : List LinearTerm} (hnodup : (terms.map fun t => t.var.name).Nodup)
    {t : LinearTerm} (ht : t ∈ terms) :
    (terms.map fun u => u.coeff * if u.var.name = t.var.name then 1 else 0).sum = t.coeff := by
  induction terms with
  | nil => simp at ht
  | cons u terms ih =>
      rw [List.map_cons, List.nodup_cons] at hnodup
      rw [List.map_cons, List.sum_cons]
      rcases List.mem_cons.mp ht with rfl | ht
      · have hzero : (terms.map fun u => u.coeff * if u.var.name = t.var.name then 1 else 0) =
            terms.map fun _ => 0 := by
          refine List.map_congr_left fun u hu => ?_
          rw [if_neg, mul_zero]
          exact fun heq => hnodup.1 (heq ▸ List.mem_map_of_mem hu)
        rw [hzero]
        simp
      · have hne : u.var.name ≠ t.var.name := fun heq =>
          hnodup.1 (heq ▸ List.mem_map_of_mem (f := fun t : LinearTerm => t.var.name) ht)
        rw [if_neg hne, mul_zero, zero_add, ih hnodup.2 ht]

/-- What the state of the loop says of the summands it has passed. -/
structure Reading (vars : List IntegerVariable) (bound : ℤ) (xs : List Summand)
    (state : TermState) : Prop where
  known : ∀ t ∈ state.terms, IntegerVariable.varExistsInArray t.var.name vars = some t.var
  nodup : (state.terms.map LinearTerm.var).Nodup
  const : state.const = bound - (xs.map Summand.number).sum
  weights : ∀ weight : Str → ℤ, (state.terms.map fun t => t.coeff * weight t.var.name).sum =
    (xs.map (Summand.weigh weight)).sum
  names : ∀ name, (∃ t ∈ state.terms, t.var.name = name) ↔
    name ≠ [] ∧ ∃ x ∈ xs, x.name = name

namespace Reading

variable {vars : List IntegerVariable} {bound : ℤ} {xs : List Summand} {state next : TermState}

theorem start : Reading vars bound [] ⟨[], bound⟩ where
  known := by simp
  nodup := List.nodup_nil
  const := by simp
  weights := by simp
  names := by simp

theorem step (hvars : Declared vars) {x : Summand} (hminus : '-' ∉ x.body)
    (h : Reading vars bound xs state) (hok : addTerm vars state x.text = .ok next) :
    Reading vars bound (xs ++ [x]) next := by
  rcases addTerm_eq_ok hvars hminus hok with ⟨hname, rfl⟩ | ⟨hname, -, var, hvar, rfl⟩
  · refine ⟨h.known, h.nodup, ?_, fun weight => ?_, fun name => ?_⟩
    · simp [h.const, Summand.number, hname]
      ring
    · simp [h.weights, Summand.weigh, hname]
    · simp only [h.names, List.mem_append, List.mem_singleton, or_and_right, exists_or,
        exists_eq_left, hname]
      refine and_congr_right fun hne => ?_
      rw [or_iff_left (Ne.symm hne)]
  · have hvarname := (IntegerVariable.varExistsInArray_eq_some hvar).2
    refine ⟨fun t ht => ?_, nodup_vars_merge h.nodup var x.coeff, ?_, fun weight => ?_,
      fun name => ?_⟩
    · rcases mem_vars_merge.mp (List.mem_map_of_mem ht) with hmem | heq
      · obtain ⟨u, hu, heq⟩ := List.mem_map.mp hmem
        rw [← heq]
        exact h.known u hu
      · rw [heq, hvarname]
        exact hvar
    · simp [h.const, Summand.number, hname]
    · rw [sum_merge fun v => weight v.name, h.weights]
      simp [Summand.weigh, hname, hvarname]
    · rw [exists_name_merge, h.names, hvarname]
      simp only [List.mem_append, List.mem_singleton, or_and_right, exists_or, exists_eq_left,
        and_or_left]
      refine or_congr_right ⟨?_, And.right⟩
      rintro rfl
      exact ⟨hname, rfl⟩

/-- The invariant holds after every run of the loop. -/
theorem of_foldlM (hvars : Declared vars) (hminus : ∀ x ∈ xs, '-' ∉ x.body)
    (hok : (xs.map Summand.text).foldlM (addTerm vars) ⟨[], bound⟩ = .ok state) :
    Reading vars bound xs state := by
  rw [List.foldlM_map] at hok
  refine foldlM_induction (Reading vars bound) hok start
    fun before x middle next hstarts hreading hnext => ?_
  exact hreading.step hvars (hminus x (hstarts.subset (by simp))) hnext

theorem names_nodup (h : Reading vars bound xs state) :
    (state.terms.map fun t => t.var.name).Nodup := by
  have hnodup : ((state.terms.map LinearTerm.var).map IntegerVariable.name).Nodup := by
    refine h.nodup.map_on fun x hx y hy heq => ?_
    obtain ⟨t, ht, rfl⟩ := List.mem_map.mp hx
    obtain ⟨u, hu, rfl⟩ := List.mem_map.mp hy
    have hsome := h.known t ht
    rw [heq, h.known u hu] at hsome
    exact (Option.some.inj hsome).symm
  rwa [List.map_map] at hnodup

/-- Each term has the written coefficient of its name. -/
theorem coeff_eq (h : Reading vars bound xs state) {t : LinearTerm} (ht : t ∈ state.terms) :
    t.coeff = Summand.writtenCoeff t.var.name xs := by
  have hname : t.var.name ≠ [] := ((h.names t.var.name).mp ⟨t, ht, rfl⟩).1
  rw [← Summand.sum_weigh_eq_writtenCoeff hname, ← h.weights]
  exact (sum_indicator h.names_nodup ht).symm

/-- The terms and the constant have the value of the summands and the bound. -/
theorem sum_eq (h : Reading vars bound xs state) (σ : Assignment) :
    (state.terms.map (LinearTerm.value σ)).sum - state.const =
      (xs.map (Summand.value σ)).sum - bound := by
  have hvalue : (xs.map (Summand.value σ)).sum =
      (xs.map Summand.number).sum + (xs.map (Summand.weigh σ)).sum :=
    List.sum_map_add
  have hterms : (state.terms.map (LinearTerm.value σ)).sum = (xs.map (Summand.weigh σ)).sum :=
    h.weights σ
  rw [hvalue, hterms, h.const]
  ring

end Reading

/-! ## A side and its bound -/

theorem readLeft_eq_ok {vars : List IntegerVariable} {bound : ℤ} {sign : Bool} {left : Str}
    {e : Inequation} :
    readLeft vars bound sign left = .ok e ↔
      ∃ state, (splitTerms left).foldlM (addTerm vars) ⟨[], bound⟩ = .ok state ∧
        e = { terms := state.terms, «variables» := vars, const := state.const, sign } := by
  rw [readLeft, bind_eq_ok]
  refine exists_congr fun state => and_congr_right fun _ => ?_
  rw [pure_eq_ok, eq_comm]

/-- The prefix `1+` takes one from the bound. -/
theorem readLeft_shifted (vars : List IntegerVariable) (bound : ℤ) (sign : Bool) (left : Str) :
    readLeft vars bound sign ('1' :: '+' :: left) = readLeft vars (bound - 1) sign left := by
  have hone : readCoeff ['1'] = (1, []) := by decide
  have hterm : addTerm vars ⟨[], bound⟩ ['1'] = .ok ⟨[], bound - 1⟩ := by
    unfold addTerm
    rw [hone]
    simp [sub_eq_add_neg]
  rw [readLeft, splitTerms_shifted, List.foldlM_cons, hterm]
  rfl

end Inequation

end Sato
