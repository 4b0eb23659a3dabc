import Mathlib.Algebra.BigOperators.Group.List.Basic
import Sato.Source.Encoder

/-! # Meaning of constraints and of clauses

Integer assignments give the meaning of comparisons, inequations and problems;
boolean valuations give the meaning of literals. A literal is an atom, or an
atom after a minus sign.
-/

namespace Sato

open Foundation

/-- An integer for every variable name. -/
abbrev Assignment := Str → ℤ

/-- A truth value for every atom. -/
abbrev Valuation := Str → Prop

namespace PrimitiveComparison

def Holds (σ : Assignment) (p : PrimitiveComparison) : Prop :=
  if p.sign then σ p.variable.name ≤ p.const else p.const < σ p.variable.name

instance (σ : Assignment) (p : PrimitiveComparison) : Decidable (p.Holds σ) :=
  inferInstanceAs (Decidable (if p.sign then _ else _))

@[simp] theorem inverseSign_variable (p : PrimitiveComparison) :
    p.inverseSign.variable = p.variable := rfl

@[simp] theorem inverseSign_const (p : PrimitiveComparison) : p.inverseSign.const = p.const := rfl

@[simp] theorem inverseSign_sign (p : PrimitiveComparison) : p.inverseSign.sign = !p.sign := rfl

theorem holds_inverseSign (σ : Assignment) (p : PrimitiveComparison) :
    p.inverseSign.Holds σ ↔ ¬ p.Holds σ := by
  unfold Holds
  rw [inverseSign_sign, inverseSign_variable, inverseSign_const]
  cases p.sign <;> simp

end PrimitiveComparison

def LinearTerm.value (σ : Assignment) (t : LinearTerm) : ℤ := t.coeff * σ t.var.name

namespace Inequation

/-- The value of the left-hand side. -/
def sum (σ : Assignment) (e : Inequation) : ℤ := (e.terms.map (LinearTerm.value σ)).sum

def Holds (σ : Assignment) (e : Inequation) : Prop :=
  if e.sign then e.sum σ ≤ e.const else e.const < e.sum σ

instance (σ : Assignment) (e : Inequation) : Decidable (e.Holds σ) :=
  inferInstanceAs (Decidable (if e.sign then _ else _))

end Inequation

/-- The value of every listed variable lies in its domain. -/
def InDomains (σ : Assignment) (vars : List IntegerVariable) : Prop :=
  ∀ x ∈ vars, x.domain.l ≤ σ x.name ∧ σ x.name ≤ x.domain.u

namespace CSP

/-- Every clause has an inequation that holds. -/
def Satisfied (σ : Assignment) (csp : CSP) : Prop :=
  CnfTrue (Inequation.Holds σ) csp.constraints

/-- The variables have distinct names, and the inequations are over them. -/
structure WellFormed (csp : CSP) : Prop where
  names_nodup : (csp.variables.map IntegerVariable.name).Nodup
  terms_mem : ∀ clause ∈ csp.constraints, ∀ e ∈ clause, ∀ t ∈ e.terms, t.var ∈ csp.variables

end CSP

/-! ## Literals -/

def LiteralTrue (v : Valuation) : Str → Prop
  | '-' :: atom => ¬ v atom
  | atom => v atom

instance (v : Valuation) [DecidablePred v] : DecidablePred (LiteralTrue v)
  | [] => inferInstanceAs (Decidable (v []))
  | c :: atom =>
      if h : c = '-' then
        decidable_of_iff (¬ v atom) (by subst h; rfl)
      else
        decidable_of_iff (v (c :: atom)) (by unfold LiteralTrue; split <;> simp_all)

/-- The atom `p<x>_<c>`. -/
def IntegerVariable.atom (x : IntegerVariable) (c : ℤ) : Str :=
  'p' :: (x.name ++ '_' :: intText c)

namespace PrimitiveComparison

theorem booleanEquivalent_eq (p : PrimitiveComparison) :
    p.booleanEquivalent = p.variable.atom p.const := rfl

theorem literalTrue_predicateEquivalent (v : Valuation) (p : PrimitiveComparison) :
    LiteralTrue v p.predicateEquivalent ↔
      if p.sign then v (p.variable.atom p.const) else ¬ v (p.variable.atom p.const) := by
  unfold predicateEquivalent
  rw [booleanEquivalent_eq]
  cases p.sign <;> rfl

/-- A literal agrees with its comparison where its atom agrees with `x ≤ c`. -/
theorem literalTrue_iff_holds {v : Valuation} {σ : Assignment} {p : PrimitiveComparison}
    (hatom : v (p.variable.atom p.const) ↔ σ p.variable.name ≤ p.const) :
    LiteralTrue v p.predicateEquivalent ↔ p.Holds σ := by
  rw [literalTrue_predicateEquivalent, Holds]
  cases p.sign <;> simp [hatom]

end PrimitiveComparison

/-- Atoms of distinct names or constants are distinct: the constant has no
underscore, so it is what follows the last one. -/
theorem IntegerVariable.atom_inj {x y : IntegerVariable} {c d : ℤ} :
    x.atom c = y.atom d ↔ x.name = y.name ∧ c = d := by
  constructor
  · intro heq
    have hsplit : x.name ++ '_' :: intText c = y.name ++ '_' :: intText d :=
      (List.cons.inj heq).2
    have hreverse := congrArg List.reverse hsplit
    simp only [List.reverse_append, List.reverse_cons, List.append_assoc,
      List.singleton_append] at hreverse
    have hunder : ∀ z : ℤ, '_' ∉ (intText z).reverse := fun z hmem =>
      not_mem_intText (by decide) (by decide) (List.mem_reverse.mp hmem)
    obtain ⟨hconst, hname⟩ :=
      (append_cons_inj_of_notMem_left (hunder c) (hunder d)).mp hreverse
    exact ⟨List.reverse_injective hname,
      intText_injective (List.reverse_injective hconst)⟩
  · rintro ⟨hname, rfl⟩
    simp [atom, hname]

end Sato
