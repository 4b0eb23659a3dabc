import Sato.Encoding.Correctness
import Sato.Parsing.Cancellation
import Sato.Source.Machine

/-! # Overflow of coefficients

The term loop with numbers of 64 bits runs in step with the one over integers: it
accepts the same texts, and its coefficients are the sums of the written ones, added
up one after another. An accepted problem can be encoded when these sums and their
products with the bounds of the domains stay integers and no sum is zero.
-/

namespace Sato

open Foundation

namespace Machine

/-! ## One pass -/

/-- What a term needs for a pass of the loop, whatever the numbers are. -/
def Passes (vars : List IntegerVariable) (term : Str) : Prop :=
  (Sato.Inequation.readCoeff term).2 = [] ∨ (Sato.Inequation.readCoeff term).1 ≠ 0 ∧
    ∃ var, IntegerVariable.varExistsInArray (Sato.Inequation.readCoeff term).2 vars = some var

theorem exists_addTerm_iff_passes {vars : List IntegerVariable} {state : Sato.Inequation.TermState}
    {term : Str} :
    (∃ next, Sato.Inequation.addTerm vars state term = .ok next) ↔ Passes vars term := by
  unfold Sato.Inequation.addTerm Passes
  generalize Sato.Inequation.readCoeff term = read
  obtain ⟨coeff, x⟩ := read
  simp only
  by_cases hx : x = []
  · simp [hx]
  · by_cases hcoeff : coeff = 0
    · simp [hx, hcoeff]
    · cases hvar : IntegerVariable.varExistsInArray x vars with
      | none => simp [hx, hcoeff]
      | some var => cases hkey : Sato.LinearTerm.varExistsInArray var state.terms <;>
          simp [hx, hcoeff, hkey]

theorem exists_machineTerm_iff_passes {vars : List IntegerVariable} {state : TermState}
    {term : Str} : (∃ next, addTerm vars state term = .ok next) ↔ Passes vars term := by
  unfold addTerm Passes
  generalize Sato.Inequation.readCoeff term = read
  obtain ⟨coeff, x⟩ := read
  simp only
  by_cases hx : x = []
  · simp [hx]
  · by_cases hcoeff : coeff = 0
    · simp [hx, hcoeff]
    · cases hvar : IntegerVariable.varExistsInArray x vars with
      | none => simp [hx, hcoeff]
      | some var => cases hkey : LinearTerm.varExistsInArray var state.terms <;>
          simp [hx, hcoeff, hkey]

/-- The terms after a coefficient was added to that of a variable. -/
def merge (terms : List LinearTerm) (var : IntegerVariable) (coeff : ℤ) : List LinearTerm :=
  match LinearTerm.varExistsInArray var terms with
  | none => terms ++ [⟨var, .int coeff⟩]
  | some key => terms.modify key (·.addCoeff coeff)

theorem merge_cons (t : LinearTerm) (terms : List LinearTerm) (var : IntegerVariable)
    (coeff : ℤ) :
    merge (t :: terms) var coeff =
      if t.var = var then t.addCoeff coeff :: terms else t :: merge terms var coeff := by
  rw [merge, LinearTerm.varExistsInArray, List.findIdx?_cons, merge, LinearTerm.varExistsInArray]
  by_cases hvar : t.var = var
  · simp [hvar]
  · simp only [hvar, decide_false, Bool.false_eq_true, if_false]
    cases terms.findIdx? fun t => t.var = var <;> rfl

/-- Both loops add a coefficient to terms over the same variables, or both append one. -/
theorem forall₂_merge {R S : LinearTerm → Sato.LinearTerm → Prop} {terms : List LinearTerm}
    {others : List Sato.LinearTerm} (h : List.Forall₂ R terms others)
    (hnodup : (others.map Sato.LinearTerm.var).Nodup) {var : IntegerVariable} {coeff : ℤ}
    (hvar : ∀ t u, R t u → t.var = u.var) (hkeep : ∀ t u, R t u → u.var ≠ var → S t u)
    (hadd : ∀ t u, R t u → u.var = var → S (t.addCoeff coeff) (u.addCoeff coeff))
    (hnew : var ∉ others.map Sato.LinearTerm.var → S ⟨var, .int coeff⟩ ⟨var, coeff⟩) :
    List.Forall₂ S (merge terms var coeff) (Sato.Inequation.merge others var coeff) := by
  induction h with
  | nil => exact .cons (hnew List.not_mem_nil) .nil
  | @cons t u terms others hhead htail ih =>
      rw [List.map_cons, List.nodup_cons] at hnodup
      rw [merge_cons, Sato.Inequation.merge_cons, hvar t u hhead]
      split
      next heq =>
        refine .cons (hadd t u hhead heq) ?_
        -- the variable of the first term is not that of a later one
        refine forall₂_imp_of_mem htail fun t' u' hu' hR => hkeep t' u' hR ?_
        rintro rfl
        exact hnodup.1 (heq ▸ List.mem_map_of_mem hu')
      next hne =>
        refine .cons (hkeep t u hhead hne) (ih hnodup.2 fun hmem => hnew ?_)
        rw [List.map_cons, List.mem_cons, not_or]
        exact ⟨Ne.symm hne, hmem⟩

/-! ## The whole loop -/

/-- The numbers of the machine beside the integers, once some summands have passed: a
coefficient is the sum of those written, and the constant is exact unless it is a
float. -/
structure Lockstep (xs : List Summand) (state : TermState) (exact : Sato.Inequation.TermState) :
    Prop where
  terms : List.Forall₂ (fun (t : LinearTerm) (u : Sato.LinearTerm) => t.var = u.var ∧
    t.coeff = Number.addAll (.int 0) (Summand.writtenCoeffs u.var.name xs)) state.terms exact.terms
  const : state.const = .int exact.const ∨ state.const = .float

namespace Lockstep

variable {vars : List IntegerVariable} {bound : ℤ} {xs : List Summand} {state : TermState}
  {exact next : Sato.Inequation.TermState}

theorem start (bound : ℤ) : Lockstep [] ⟨[], .int bound⟩ ⟨[], bound⟩ := ⟨.nil, Or.inl rfl⟩

/-- A summand that is accepted over integers passes over the machine's numbers. -/
theorem step (hvars : Declared vars) {x : Summand} (hminus : '-' ∉ x.body)
    (hread : Sato.Inequation.Reading vars bound xs exact) (h : Lockstep xs state exact)
    (hok : Sato.Inequation.addTerm vars exact x.text = .ok next) :
    ∃ later, addTerm vars state x.text = .ok later ∧ Lockstep (xs ++ [x]) later next := by
  obtain ⟨hcoeff, hfits⟩ := Sato.Inequation.readCoeff_of_addTerm hvars hminus hok
  have hwritten : ∀ name, name ≠ x.name →
      Summand.writtenCoeffs name (xs ++ [x]) = Summand.writtenCoeffs name xs := by
    intro name hname
    simp [Summand.writtenCoeffs, Ne.symm hname]
  have hlast : Summand.writtenCoeffs x.name (xs ++ [x]) =
      Summand.writtenCoeffs x.name xs ++ [x.coeff] := by
    simp [Summand.writtenCoeffs]
  rcases Sato.Inequation.addTerm_eq_ok hvars hminus hok with
    ⟨hname, rfl⟩ | ⟨hname, hne, var, hvar, rfl⟩
  · refine ⟨{ state with const := state.const + .ofInt (-1 * x.coeff) }, ?_, ?_, ?_⟩
    · unfold addTerm
      rw [hcoeff]
      exact if_pos hname
    · refine forall₂_imp_of_mem h.terms fun t u hu ht => ⟨ht.1, ?_⟩
      have hother := ((hread.names u.var.name).mp ⟨u, hu, rfl⟩).1
      rw [hwritten _ (hname ▸ hother)]
      exact ht.2
    · rcases h.const with hconst | hconst
      · rw [hconst]
        by_cases hopposite : Fits (-1 * x.coeff)
        · rw [Number.ofInt, if_pos hopposite, Number.int_add_int, Number.ofInt]
          split
          · exact Or.inl (by rw [neg_one_mul, sub_eq_add_neg])
          · exact Or.inr rfl
        · rw [Number.ofInt, if_neg hopposite]
          exact Or.inr rfl
      · rw [hconst]
        exact Or.inr rfl
  · have hvarname := (IntegerVariable.varExistsInArray_eq_some hvar).2
    refine ⟨{ state with terms := merge state.terms var x.coeff }, ?_, ?_, h.const⟩
    · unfold addTerm merge
      rw [hcoeff]
      simp only [hname, hne, if_false, hvar]
      cases LinearTerm.varExistsInArray var state.terms <;> rfl
    · refine forall₂_merge (R := fun t u => u ∈ exact.terms ∧ t.var = u.var ∧ t.coeff =
        Number.addAll (.int 0) (Summand.writtenCoeffs u.var.name xs))
        (forall₂_imp_of_mem h.terms fun _ _ hu ht => ⟨hu, ht⟩) hread.nodup
        (fun _ _ hR => hR.2.1) ?_ ?_ ?_
      · rintro t u ⟨hu, htvar, ht⟩ hother
        refine ⟨htvar, ?_⟩
        rw [hwritten, ht]
        -- a known variable is determined by its name
        intro heq
        have hknown := hread.known u hu
        rw [heq, hvar] at hknown
        exact hother (Option.some.inj hknown).symm
      · rintro t u ⟨-, htvar, ht⟩ rfl
        refine ⟨htvar, ?_⟩
        have hsum := Number.addAll_append (.int 0) (Summand.writtenCoeffs x.name xs) x.coeff
        rw [LinearTerm.addCoeff, ht, Sato.LinearTerm.addCoeff, hvarname, hlast, hsum]
      · intro hfresh
        refine ⟨rfl, ?_⟩
        have hnone : Summand.writtenCoeffs x.name xs = [] := by
          rw [Summand.writtenCoeffs, List.map_eq_nil_iff, List.filter_eq_nil_iff]
          intro y hy hyname
          obtain ⟨t, ht, heq⟩ := (hread.names x.name).mpr
            ⟨hname, y, hy, by simpa using hyname⟩
          have hknown := hread.known t ht
          rw [heq, hvar] at hknown
          exact hfresh (Option.some.inj hknown ▸ List.mem_map_of_mem ht)
        simp only [hvarname, hlast, hnone, List.nil_append]
        rw [Number.addAll, List.foldl_cons, List.foldl_nil, Number.int_add_int, zero_add,
          Number.ofInt, if_pos hfits]

/-- The machine's loop ends beside the one over integers. -/
theorem of_foldlM (hvars : Declared vars) (hminus : ∀ x ∈ xs, '-' ∉ x.body)
    (hok : (xs.map Summand.text).foldlM (Sato.Inequation.addTerm vars) ⟨[], bound⟩ = .ok exact) :
    Sato.Inequation.Reading vars bound xs exact ∧ ∃ state,
      (xs.map Summand.text).foldlM (addTerm vars) ⟨[], .int bound⟩ = .ok state ∧
        Lockstep xs state exact := by
  rw [List.foldlM_map] at hok
  simp only [List.foldlM_map]
  refine foldlM_induction (fun before exact => Sato.Inequation.Reading vars bound before exact ∧
    ∃ state, before.foldlM (fun state x => addTerm vars state (Summand.text x))
      ⟨[], .int bound⟩ = .ok state ∧ Lockstep before state exact) hok
    ⟨Sato.Inequation.Reading.start, _, rfl, start bound⟩ ?_
  rintro before x exact next hstarts ⟨hread, state, hrun, hlockstep⟩ hnext
  have hbody := hminus x (hstarts.subset (by simp))
  obtain ⟨later, hlater, hnew⟩ := hlockstep.step hvars hbody hread hnext
  refine ⟨hread.step hvars hbody hnext, later, ?_, hnew⟩
  rw [List.foldlM_append, hrun]
  exact bind_eq_ok.mpr ⟨state, rfl, bind_eq_ok.mpr ⟨later, hlater, rfl⟩⟩

end Lockstep

/-! ## Inequations -/

namespace Inequation

/-- The inequation over the machine's numbers beside the one over integers. -/
structure Tracks (left right : Str) (e : Inequation) (f : Sato.Inequation) : Prop where
  terms : List.Forall₂ (fun (t : LinearTerm) (u : Sato.LinearTerm) => t.var = u.var ∧
    t.coeff = Number.addAll (.int 0) (literalCoeffs u.var.name left right)) e.terms f.terms
  const : e.const = .int f.const ∨ e.const = .float
  sign : e.sign = f.sign

theorem Tracks.map_var {left right : Str} {e : Inequation} {f : Sato.Inequation}
    (h : Tracks left right e f) :
    e.terms.map LinearTerm.var = f.terms.map Sato.LinearTerm.var := by
  rw [← List.forall₂_eq_eq_eq, List.forall₂_map_left_iff, List.forall₂_map_right_iff]
  exact h.terms.imp fun _ _ ht => ht.1

/-- Overflow does not make the parser throw, nor keep it from throwing. -/
theorem exists_parseExpression_iff {text : Str} {vars : List IntegerVariable} :
    (∃ e, parseExpression text vars = .ok e) ↔
      ∃ f, Sato.Inequation.parseExpression text vars = .ok f := by
  unfold parseExpression Sato.Inequation.parseExpression
  cases Sato.Inequation.splitExpression text with
  | error message => exact iff_of_false (fun ⟨_, h⟩ => nomatch h) fun ⟨_, h⟩ => nomatch h
  | ok split =>
      obtain ⟨terms, right, sign⟩ := split
      have hmachine := exists_foldlM_eq_ok
        (fun (term : Str) (_ : term ∈ terms) state =>
          @exists_machineTerm_iff_passes vars state term) ⟨[], .int (intval right)⟩
      have hexact := exists_foldlM_eq_ok
        (fun (term : Str) (_ : term ∈ terms) state =>
          @exists_addTerm_iff_passes vars state term) ⟨[], intval right⟩
      have hiff := hmachine.trans hexact.symm
      simp only [bind_eq_ok]
      constructor
      · rintro ⟨_, _, hsplit, state, hrun, -⟩
        obtain rfl := Except.ok.inj hsplit
        obtain ⟨exact, hexact⟩ := hiff.mp ⟨state, hrun⟩
        exact ⟨_, _, rfl, exact, hexact, rfl⟩
      · rintro ⟨_, _, hsplit, state, hrun, -⟩
        obtain rfl := Except.ok.inj hsplit
        obtain ⟨machine, hmachine⟩ := hiff.mpr ⟨state, hrun⟩
        exact ⟨_, _, rfl, machine, hmachine, rfl⟩

/-- An inequation of a literal is read as its summands, with numbers beside. -/
theorem exists_tracks {vars : List IntegerVariable} (hvars : Declared vars)
    {literal text left right : Str} {op : Op} (hmade : Sato.CSP.MadeFrom literal text)
    (hsplit : SplitsAt literal left op right) (hline : '\n' ∉ literal) {e : Inequation}
    (hok : parseExpression text vars = .ok e) :
    ∃ f form, Sato.Inequation.parseExpression text vars = .ok f ∧
      Sato.Inequation.ReadAs vars (literalSummands (ltrim left) right) f form ∧
        Tracks left right e f := by
  obtain ⟨f, hexact⟩ := exists_parseExpression_iff.mp ⟨e, hok⟩
  obtain ⟨form, -, hread⟩ := hmade.readAs hvars hsplit hline hexact
  refine ⟨f, form, hexact, hread, ?_⟩
  obtain ⟨ones, ⟨bound, sign⟩, hones, hterms⟩ :=
    Sato.Inequation.splitExpression_of_parseExpression hvars hsplit hline
      (hmade.mem_constraints hsplit) hexact
  have hminus : ∀ x ∈ ones ++ literalSummands (ltrim left) right, '-' ∉ x.body := by
    rw [List.forall_mem_append]
    refine ⟨fun x hx => ?_, fun _ => notMem_literalSummands⟩
    rcases hones with rfl | rfl
    · exact absurd hx List.not_mem_nil
    · rw [List.mem_singleton.mp hx]
      decide
  unfold Sato.Inequation.parseExpression at hexact
  unfold parseExpression at hok
  obtain ⟨_, hfirst, hrest⟩ := bind_eq_ok.mp hexact
  obtain rfl := Except.ok.inj (hterms.symm.trans hfirst)
  obtain ⟨_, hsecond, hrest'⟩ := bind_eq_ok.mp hok
  obtain rfl := Except.ok.inj (hterms.symm.trans hsecond)
  obtain ⟨exact, hloop, hf⟩ := bind_eq_ok.mp hrest
  obtain ⟨state, hloop', he⟩ := bind_eq_ok.mp hrest'
  obtain rfl := pure_eq_ok.mp hf
  obtain rfl := pure_eq_ok.mp he
  obtain ⟨hreading, machine, hmachine, hlockstep⟩ := Lockstep.of_foldlM hvars hminus hloop
  obtain rfl : machine = state := Except.ok.inj (hmachine.symm.trans hloop')
  refine ⟨forall₂_imp_of_mem hlockstep.terms fun t u hu ht => ⟨ht.1, ?_⟩, hlockstep.const, rfl⟩
  -- the `1` put before the summands has no name
  have hname := ((hreading.names u.var.name).mp ⟨u, hu, rfl⟩).1
  have hnone : Summand.writtenCoeffs u.var.name ones = [] := by
    rcases hones with rfl | rfl
    · rfl
    · have hone : (⟨true, ['1']⟩ : Summand).name ≠ u.var.name := fun heq => hname heq.symm
      simp [Summand.writtenCoeffs, hone]
  rw [ht.2, Summand.writtenCoeffs_append, hnone, List.nil_append,
    writtenCoeffs_literalSummands hname]

end Inequation

/-! ## Loops over domains -/

theorem isSome_termDomain_iff {coeff : ℤ} {x : IntegerVariable} :
    (termDomain coeff x).isSome = true ↔
      ∀ bound ∈ [x.getLowerBound, x.getUpperBound],
        minInt < coeff * saturate bound ∧ coeff * saturate bound < maxInt := by
  have hbounds : saturate x.getLowerBound ≤ saturate x.getUpperBound :=
    saturate_mono x.domain.l_le_u
  simp only [List.forall_mem_cons, List.not_mem_nil, IsEmpty.forall_iff, implies_true, and_true]
  unfold termDomain getLowerBound getUpperBound
  by_cases hpos : 0 < coeff
  · have hle := mul_le_mul_of_nonneg_left hbounds hpos.le
    simp only [if_pos hpos]
    rw [Number.isSome_loop_pred_iff hle]
    omega
  · have hle := mul_le_mul_of_nonpos_left hbounds (not_lt.mp hpos)
    simp only [if_neg hpos]
    rw [Number.isSome_loop_pred_iff hle]
    omega

theorem isSome_orderDomain_iff {x : IntegerVariable} :
    (orderDomain x).isSome = true ↔ x.getUpperBound < maxInt := by
  rw [orderDomain, Number.isSome_loop_iff]
  simp only [Number.int.injEq, exists_eq', true_and, exists_eq_left']
  unfold IntegerVariable.getUpperBound
  simp only [saturate, minInt, maxInt]
  omega

/-! ## Encoding of accepted problems -/

/-- What is written keeps the coefficients and the bounds of the terms integers of 64
bits: the sums of the coefficients of a name on the way to their total, and the
products of the total with the bounds of its variable. -/
def StaysInt (vars : List IntegerVariable) (literal : Str) : Prop :=
  ∀ left op right, SplitsAt literal left op right → ∀ name ≠ [],
    NameWritten name left right →
      (∀ front, front <+: literalCoeffs name left right → Fits front.sum) ∧
      ∀ x, IntegerVariable.varExistsInArray name vars = some x →
        ∀ bound ∈ [x.getLowerBound, x.getUpperBound],
          minInt < literalCoeff name left right * saturate bound ∧
            literalCoeff name left right * saturate bound < maxInt

namespace CSP

/-- The terms of an inequation are over distinct variables, and each is what the class
asks for: its coefficient is an integer other than zero. -/
def NonzeroTerms (csp : CSP) : Prop :=
  ∀ clause ∈ csp.constraints, ∀ e ∈ clause, (e.terms.map LinearTerm.var).Nodup ∧
    ∀ t ∈ e.terms, ∃ c ≠ 0, t.coeff = .int c

theorem parseExpression_eq_ok {line : Str} {csp : CSP} :
    parseExpression line = .ok csp ↔
      (Sato.CSP.declarationTexts line).mapM IntegerVariable.parseExpression = .ok csp.variables ∧
        parseConstraints line csp.variables = .ok csp.constraints := by
  unfold parseExpression
  rw [bind_eq_ok]
  simp only [mapError_eq_ok, bind_eq_ok, pure_eq_ok]
  constructor
  · rintro ⟨vars, hvars, clauses, hclauses, rfl⟩
    exact ⟨hvars, hclauses⟩
  · rintro ⟨hvars, hclauses⟩
    exact ⟨_, hvars, _, hclauses, rfl⟩

theorem Describes.exists_encode {csp : CSP} (hnonzero : csp.NonzeroTerms) {other : Sato.CSP}
    (h : csp.Describes other) : ∃ sat, Encoder.encode other = .ok sat := by
  refine Encoder.exists_encode fun clause hclause e he t ht => ?_
  obtain ⟨clause', hclause', hes⟩ := forall₂_exists_left h.constraints hclause
  obtain ⟨e', he', hterms, -⟩ := forall₂_exists_left hes he
  obtain ⟨t', ht', -, hcoeff⟩ := forall₂_exists_left hterms ht
  obtain ⟨c, hc, heq⟩ := (hnonzero clause' hclause' e' he').2 t' ht'
  rw [hcoeff] at heq
  rwa [Number.int.inj heq]

section Accepted

variable {line : Str} {csp : CSP} (hok : parseExpression line = .ok csp)
include hok

/-- Every inequation is that of a literal, read over integers as well. -/
theorem exists_tracks_of_mem {clause : List Inequation} (hclause : clause ∈ csp.constraints)
    {e : Inequation} (he : e ∈ clause) :
    ∃ literals ∈ Sato.CSP.clauseLiterals line, ∃ literal ∈ literals, ∃ left op right f form,
      SplitsAt literal left op right ∧ Sato.Inequation.ReadAs csp.variables
        (literalSummands (ltrim left) right) f form ∧ Inequation.Tracks left right e f := by
  obtain ⟨hdeclarations, hconstraints⟩ := parseExpression_eq_ok.mp hok
  obtain ⟨literals, hliterals, literal, hliteral, text, hmade, hparse⟩ :=
    Sato.CSP.exists_text_of_mem hconstraints hclause he
  obtain ⟨left, op, right, hsplit⟩ := hmade.exists_splitsAt
  obtain ⟨f, form, -, hread, htracks⟩ := Inequation.exists_tracks
    (declared_of_declarationTexts hdeclarations) hmade hsplit
    (Sato.CSP.notMem_of_mem_clauseLiterals hliterals hliteral) hparse
  exact ⟨literals, hliterals, literal, hliteral, left, op, right, f, form, hsplit, hread, htracks⟩

/-- The coefficient of a term is the sum of those written before its name. -/
theorem coeff_eq_of_mem {clause : List Inequation} (hclause : clause ∈ csp.constraints)
    {e : Inequation} (he : e ∈ clause) {t : LinearTerm} (ht : t ∈ e.terms) :
    ∃ literals ∈ Sato.CSP.clauseLiterals line, ∃ literal ∈ literals, ∃ left op right,
      SplitsAt literal left op right ∧ t.var.name ≠ [] ∧ NameWritten t.var.name left right ∧
        IntegerVariable.varExistsInArray t.var.name csp.variables = some t.var ∧
          t.coeff = Number.addAll (.int 0) (literalCoeffs t.var.name left right) := by
  obtain ⟨literals, hliterals, literal, hliteral, left, op, right, f, form, hsplit, hread,
    htracks⟩ := exists_tracks_of_mem hok hclause he
  obtain ⟨u, hu, hvar, hcoeff⟩ := forall₂_exists_right htracks.terms ht
  obtain ⟨hname, hmem⟩ := (hread.reading.names u.var.name).mp ⟨u, hu, rfl⟩
  rw [hvar]
  exact ⟨literals, hliterals, literal, hliteral, left, op, right, hsplit, hname,
    (exists_mem_literalSummands hname left right).mp hmem, hread.reading.known u hu, hcoeff⟩

/-- Every name that is written is that of a term. -/
theorem exists_mem_of_nameWritten {literals : List Str}
    (hliterals : literals ∈ Sato.CSP.clauseLiterals line) {literal : Str}
    (hliteral : literal ∈ literals) {left right : Str} {op : Op}
    (hsplit : SplitsAt literal left op right) {name : Str} (hname : name ≠ [])
    (hwritten : NameWritten name left right) :
    ∃ clause ∈ csp.constraints, ∃ e ∈ clause, ∃ t ∈ e.terms,
      IntegerVariable.varExistsInArray name csp.variables = some t.var ∧
        t.coeff = Number.addAll (.int 0) (literalCoeffs name left right) := by
  obtain ⟨hdeclarations, hconstraints⟩ := parseExpression_eq_ok.mp hok
  obtain ⟨text, hmade⟩ := Sato.CSP.exists_madeFrom hsplit
  obtain ⟨clause, hclause, e, he, hparse⟩ :=
    Sato.CSP.exists_mem_of_text hconstraints hliterals hliteral hmade
  obtain ⟨f, form, -, hread, htracks⟩ := Inequation.exists_tracks
    (declared_of_declarationTexts hdeclarations) hmade hsplit
    (Sato.CSP.notMem_of_mem_clauseLiterals hliterals hliteral) hparse
  obtain ⟨u, hu, rfl⟩ := (hread.reading.names name).mpr
    ⟨hname, (exists_mem_literalSummands hname left right).mpr hwritten⟩
  obtain ⟨t, ht, hvar, hcoeff⟩ := forall₂_exists_left htracks.terms hu
  exact ⟨clause, hclause, e, he, t, ht, hvar ▸ hread.reading.known u hu, hcoeff⟩

/-- Where the coefficients stay integers, the problem over integers is the same one. -/
theorem exists_describes
    (hstays : ∀ literals ∈ Sato.CSP.clauseLiterals line, ∀ literal ∈ literals,
      StaysInt csp.variables literal) :
    ∃ other, Sato.CSP.parseExpression line = .ok other ∧ csp.Describes other := by
  obtain ⟨hdeclarations, hconstraints⟩ := parseExpression_eq_ok.mp hok
  have hvars := declared_of_declarationTexts hdeclarations
  obtain ⟨texts, htexts, hparse⟩ := bind_eq_ok.mp hconstraints
  have hall : List.Forall₂ (fun clause inequations => ∃ others,
      List.Forall₂ (fun text f => Sato.Inequation.parseExpression text csp.variables = .ok f)
        clause others ∧ List.Forall₂ (fun f e => Inequation.Describes e f) others inequations)
      texts csp.constraints := by
    refine forall₂_imp_of_mem_left (mapM_eq_ok.mp hparse) fun clause hclause inequations hread => ?_
    refine exists_forall₂_comp (forall₂_imp_of_mem_left (mapM_eq_ok.mp hread) ?_)
    intro text htext e hparse
    obtain ⟨literals, hliterals, literal, hliteral, hmade⟩ :=
      (Sato.CSP.mem_flatten_constraintTexts htexts).mp
        (List.mem_flatten.mpr ⟨clause, hclause, htext⟩)
    obtain ⟨left, op, right, hsplit⟩ := hmade.exists_splitsAt
    obtain ⟨f, form, hexact, hread, htracks⟩ := Inequation.exists_tracks hvars hmade hsplit
      (Sato.CSP.notMem_of_mem_clauseLiterals hliterals hliteral) hparse
    refine ⟨f, hexact, forall₂_imp_of_mem htracks.terms fun t u hu ht => ⟨ht.1, ?_⟩,
      htracks.const, htracks.sign⟩
    obtain ⟨hname, hmem⟩ := (hread.reading.names u.var.name).mp ⟨u, hu, rfl⟩
    have hfits := (hstays literals hliterals literal hliteral left op right hsplit _ hname
      ((exists_mem_literalSummands hname left right).mp hmem)).1
    rw [ht.2, hread.reading.coeff_eq hu, writtenCoeff_literalSummands hname,
      Number.addAll_int_eq_int_iff (by decide)]
    simp only [zero_add]
    exact ⟨hfits, rfl⟩
  obtain ⟨others, hexact, hdescribes⟩ := exists_forall₂_comp hall
  refine ⟨⟨csp.variables, others⟩, Sato.CSP.parseExpression_eq_ok.mpr ⟨hdeclarations, ?_⟩, rfl,
    hdescribes.flip.imp fun _ _ => List.Forall₂.flip⟩
  exact bind_eq_ok.mpr ⟨texts, htexts, mapM_eq_ok.mpr (hexact.imp fun _ _ => mapM_eq_ok.mpr)⟩

/-- An accepted problem has proper terms and is encoded exactly when the greatest integer
is no upper bound, and the coefficients of every literal stay integers and do not
cancel out. -/
theorem encodable_iff_noCancellation :
    (csp.NonzeroTerms ∧ csp.Encodes) ↔
      (∀ x ∈ csp.variables, x.getUpperBound < maxInt) ∧
        ∀ literals ∈ Sato.CSP.clauseLiterals line, ∀ literal ∈ literals,
          NoCancellation literal ∧ StaysInt csp.variables literal := by
  constructor
  · rintro ⟨hnonzero, hloops, -⟩
    refine ⟨fun x hx => isSome_orderDomain_iff.mp (hloops.2 x hx),
      fun literals hliterals literal hliteral => ⟨?_, ?_⟩⟩
    all_goals
      intro left op right hsplit name hname hwritten
      obtain ⟨clause, hclause, e, he, t, ht, hvar, hsum⟩ :=
        exists_mem_of_nameWritten hok hliterals hliteral hsplit hname hwritten
      obtain ⟨c, hc, heq⟩ := (hnonzero clause hclause e he).2 t ht
      have hfits := (Number.addAll_int_eq_int_iff (by decide)).mp (hsum.symm.trans heq)
      simp only [zero_add] at hfits
      have hdomain := hloops.1 clause hclause e he t ht c heq
      obtain ⟨hfits, rfl⟩ := hfits
    · exact hc
    · refine ⟨hfits, fun x hx => ?_⟩
      obtain rfl : t.var = x := Option.some.inj (hvar.symm.trans hx)
      exact isSome_termDomain_iff.mp hdomain
  · rintro ⟨hupper, hliterals⟩
    have hterm : ∀ clause ∈ csp.constraints, ∀ e ∈ clause, ∀ t ∈ e.terms,
        ∃ c ≠ 0, t.coeff = .int c ∧ (termDomain c t.var).isSome = true := by
      intro clause hclause e he t ht
      obtain ⟨literals, hmem, literal, hliteral, left, op, right, hsplit, hname, hwritten, hknown,
        hsum⟩ := coeff_eq_of_mem hok hclause he ht
      obtain ⟨hcancel, hstays⟩ := hliterals literals hmem literal hliteral
      obtain ⟨hfits, hproducts⟩ := hstays left op right hsplit _ hname hwritten
      refine ⟨_, hcancel left op right hsplit _ hname hwritten, ?_,
        isSome_termDomain_iff.mpr (hproducts _ hknown)⟩
      rw [hsum, Number.addAll_int_eq_int_iff (by decide)]
      simp only [zero_add]
      exact ⟨hfits, rfl⟩
    have hnonzero : csp.NonzeroTerms := by
      intro clause hclause e he
      obtain ⟨_, _, _, _, _, _, _, f, _, _, hread, htracks⟩ := exists_tracks_of_mem hok hclause he
      refine ⟨htracks.map_var ▸ hread.reading.nodup, fun t ht => ?_⟩
      obtain ⟨c, hc, heq, -⟩ := hterm clause hclause e he t ht
      exact ⟨c, hc, heq⟩
    refine ⟨hnonzero, ⟨?_, fun x hx => isSome_orderDomain_iff.mpr (hupper x hx)⟩,
      fun other hdescribes => hdescribes.exists_encode hnonzero⟩
    intro clause hclause e he t ht c hcoeff
    obtain ⟨c', -, heq, hdomain⟩ := hterm clause hclause e he t ht
    rwa [Number.int.inj (hcoeff.symm.trans heq)]

end Accepted

/-- `2x-y<=x` keeps the coefficient one of `x`. -/
theorem encodable_repeated :
    let x : IntegerVariable := ⟨['x'], ⟨0, 2, by decide⟩⟩
    let y : IntegerVariable := ⟨['y'], ⟨0, 2, by decide⟩⟩
    let csp : CSP := ⟨[x, y], [[⟨[⟨x, .int 1⟩, ⟨y, .int (-1)⟩], .int 0, true⟩]]⟩
    (csp.NonzeroTerms ∧ csp.Encodes) ↔
      (∀ x ∈ csp.variables, x.getUpperBound < maxInt) ∧
        ∀ literals ∈ Sato.CSP.clauseLiterals " x  0  2  y  0  2  [2x-y<=x] ".toList,
          ∀ literal ∈ literals, NoCancellation literal ∧ StaysInt csp.variables literal := by
  intro x y csp
  have hok : parseExpression " x  0  2  y  0  2  [2x-y<=x] ".toList = .ok csp := by
    decide +kernel
  exact encodable_iff_noCancellation hok

/-- `x<=x` is accepted, but its term has coefficient zero and the encoder throws. In the
same way the greatest integer is added to `x` and taken away, and a float is left. -/
theorem encodable_cancelled :
    let x : IntegerVariable := ⟨['x'], ⟨0, 2, by decide⟩⟩
    let csp : CSP := ⟨[x], [[⟨[⟨x, .int 0⟩], .int 0, true⟩]]⟩
    let other : Sato.CSP := ⟨[x], [[{ terms := [⟨x, 0⟩], «variables» := [x], const := 0 }]]⟩
    let overflown : CSP := ⟨[x], [[⟨[⟨x, .float⟩], .int 0, true⟩]]⟩
    (parseExpression " x  0  2  [x<=x] ".toList = .ok csp ∧ ¬ csp.NonzeroTerms ∧
      csp.Describes other ∧
      Encoder.encode other = .error (PrimitiveComparison.coeffError ++ Encoder.encodeError)) ∧
    parseExpression
        " x  0  2  [9223372036854775807x+x-9223372036854775807x<=0] ".toList = .ok overflown ∧
      ¬ overflown.NonzeroTerms := by
  intro x csp other overflown
  refine ⟨⟨by decide +kernel, fun hnonzero => ?_, ⟨rfl, ?_⟩, by decide +kernel⟩,
    by decide +kernel, fun hnonzero => ?_⟩
  · obtain ⟨c, hc, heq⟩ :=
      (hnonzero _ List.mem_cons_self _ List.mem_cons_self).2 _ List.mem_cons_self
    exact hc (Number.int.inj heq).symm
  · exact .cons (.cons ⟨.cons ⟨rfl, rfl⟩ .nil, Or.inl rfl, rfl⟩ .nil) .nil
  · obtain ⟨c, -, heq⟩ :=
      (hnonzero _ List.mem_cons_self _ List.mem_cons_self).2 _ List.mem_cons_self
    exact Number.noConfusion heq

end CSP

end Machine

end Sato
