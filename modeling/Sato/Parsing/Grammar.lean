import Sato.Parsing.Expression

/-! # The grammar of constraints

The constraints that the help describes: two linear expressions and a relation
sign. A text is an expression of the grammar when every part cut from it at the
signs is a term.
-/

namespace Sato

open Foundation

/-! ## Terms and expressions -/

def IsDeclared (vars : List IntegerVariable) (name : Str) : Prop := ∃ v ∈ vars, v.name = name

/-- A number without leading zeros, a declared name, or one such number other
than zero before the name. -/
def Term.Admitted (vars : List IntegerVariable) : Term → Prop
  | number size => Canonical size.digits
  | name x => IsDeclared vars x.text
  | scaled size x => Canonical size.digits ∧ size.digits ≠ ['0'] ∧ IsDeclared vars x.text

def LinearExpression.Admitted (vars : List IntegerVariable) (e : LinearExpression) : Prop :=
  e.first.Admitted vars ∧ ∀ term ∈ e.rest, term.2.Admitted vars

def IsExpression (vars : List IntegerVariable) (s : Str) : Prop :=
  ∃ e : LinearExpression, e.Admitted vars ∧ e.text = s

/-- The constraints of the grammar over declared variables. -/
def Grammatical (vars : List IntegerVariable) (s : Str) : Prop :=
  ∃ (left : LinearExpression) (op : Op) (right : LinearExpression),
    left.Admitted vars ∧ right.Admitted vars ∧ s = constraintText left op right

/-! ## The text of a term -/

theorem IsDeclared.isName {vars : List IntegerVariable} (hvars : Declared vars) {name : Str}
    (h : IsDeclared vars name) : IsName name := by
  obtain ⟨v, hv, rfl⟩ := h
  exact hvars v hv

/-- The parts cut at the signs, each put after its sign, are the text. -/
theorem cut_text (s : Str) :
    (cut isPlus s).1 ++ (cut isPlus s).2.flatMap
      (fun x => (if x.positive then '+' else '-') :: x.body) = s := by
  induction s with
  | nil => rfl
  | cons c s ih =>
      rw [cut]
      split
      next hminus =>
        subst hminus
        simpa using ih
      next hminus =>
        split
        next hplus =>
          obtain rfl : c = '+' := by simpa [isPlus] using hplus
          simpa using ih
        next hplus => simpa using ih

section Expressions

variable {vars : List IntegerVariable} (hvars : Declared vars)
include hvars

end Expressions

/-! ## The two sides of a constraint -/

theorem Op.text_injective : Function.Injective Op.text := by
  intro op other heq
  cases op <;> cases other <;> first | rfl | simp [Op.text] at heq

/-- A literal determines its sides and its relation sign. -/
theorem SplitsAt.unique {literal left left' right right' : Str} {op op' : Op}
    (h : SplitsAt literal left op right) (h' : SplitsAt literal left' op' right') :
    left = left' ∧ op = op' ∧ right = right' := by
  -- the sides are those that the parser splits the literal into
  have hsides : [left, right] = [left', right'] := h.pregSplit_eq.symm.trans h'.pregSplit_eq
  obtain ⟨rfl, hright⟩ := List.cons.inj hsides
  obtain rfl := (List.cons.inj hright).1
  refine ⟨rfl, Op.text_injective ?_, rfl⟩
  have htext := h.text.symm.trans h'.text
  rwa [List.append_cancel_left_eq, List.append_cancel_right_eq] at htext

theorem Grammatical.exists_splitsAt {vars : List IntegerVariable} {s : Str}
    (h : Grammatical vars s) : ∃ left op right, SplitsAt s left op right := by
  obtain ⟨left, op, right, -, -, rfl⟩ := h
  exact ⟨_, op, _, splitsAt_constraintText left op right⟩

end Sato
