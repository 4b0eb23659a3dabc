import Sato.Encoding.Correctness
import Sato.Foundation.Text

/-! # Export to DIMACS

The encoder registers every atom its clauses use, so every literal has a number.
A number and its sign give the literal back.
-/

namespace Sato

open Foundation

namespace SAT

/-- The literal that a signed number stands for. -/
def signedLiteral (sat : SAT) (number : ℤ) : Except Str Str := do
  let var ← sat.literalFromNumber number
  return if number < 0 then '-' :: var else var

/-- A variable or the negation of one. -/
def IsLiteral (vars : List Str) (l : Str) : Prop := ∃ a ∈ vars, l = a ∨ l = '-' :: a

/-- The clauses are over the variables, and no variable starts with the sign of
a negation. -/
structure Closed (sat : SAT) : Prop where
  unsigned : ∀ a ∈ sat.variables, ¬ ['-'] <+: a
  literals_mem : ∀ clause ∈ sat.clauses, ∀ l ∈ clause, IsLiteral sat.variables l

/-! ## Numbers of variables -/

theorem literalFromNumber_eq_ok {sat : SAT} {number : ℤ} {a : Str} :
    sat.literalFromNumber number = .ok a ↔
      number ≠ 0 ∧ sat.variables[number.natAbs - 1]? = some a := by
  unfold literalFromNumber
  by_cases hzero : number = 0
  · simp [hzero]
  · have hindex : ((number.natAbs : ℤ) - 1).toNat = number.natAbs - 1 := by omega
    have hpos : (0 : ℤ) ≤ (number.natAbs : ℤ) - 1 := by omega
    rw [if_pos hpos, hindex]
    cases hget : sat.variables[number.natAbs - 1]? with
    | none => simp
    | some b => simp [hzero]

theorem natAbs_of_literalFromNumber {sat : SAT} {number : ℤ} {a : Str}
    (h : sat.literalFromNumber number = .ok a) :
    1 ≤ number.natAbs ∧ number.natAbs ≤ sat.variables.length := by
  obtain ⟨hne, hget⟩ := literalFromNumber_eq_ok.mp h
  obtain ⟨hlt, -⟩ := List.getElem?_eq_some_iff.mp hget
  omega

/-- A registered variable has a number, and the number is its own. -/
theorem exists_varIndexNumber {sat : SAT} {a : Str} (ha : a ∈ sat.variables) :
    ∃ n, 0 < n ∧ sat.varIndexNumber a = .ok n ∧ sat.variables[n - 1]? = some a := by
  obtain ⟨i, hi⟩ := Option.isSome_iff_exists.mp
    ((List.isSome_idxOf? (l := sat.variables) (a := a)).mpr ha)
  refine ⟨i + 1, Nat.succ_pos i, by rw [varIndexNumber, hi], ?_⟩
  obtain ⟨hlt, heq, -⟩ := List.idxOf?_eq_some_iff.mp hi
  rw [Nat.add_sub_cancel, List.getElem?_eq_getElem hlt, heq]

theorem literalToNumber_of_unsigned {sat : SAT} {a : Str} (hunsigned : ¬ ['-'] <+: a) {n : ℕ}
    (hn : sat.varIndexNumber a = .ok n) : sat.literalToNumber a = .ok n := by
  have htest : pregTest minusPattern a = false :=
    Bool.eq_false_iff.mpr fun h => hunsigned ((pregTest_bol_lit (by simp) a).mp h)
  have hreplace : pregReplace minusPattern [] a = a :=
    pregReplace_bol_lit_of_not_starts [] hunsigned
  rw [literalToNumber, htest, hreplace, hn]
  exact congrArg Except.ok (intval_intText n)

theorem literalToNumber_minus {sat : SAT} {a : Str} {n : ℕ} (hpos : 0 < n)
    (hn : sat.varIndexNumber a = .ok n) : sat.literalToNumber ('-' :: a) = .ok (-n) := by
  have htest : pregTest minusPattern ('-' :: a) = true :=
    (pregTest_bol_lit (by simp) _).mpr ⟨a, rfl⟩
  have hreplace : pregReplace minusPattern [] ('-' :: a) = a :=
    pregReplace_bol_lit (by simp) [] a
  rw [literalToNumber, htest, hreplace, hn]
  refine congrArg Except.ok ?_
  rw [if_pos rfl, List.singleton_append, ← intText_neg hpos, intval_intText]

/-- Every literal over the variables has a number, and that number gives it back. -/
theorem Closed.exists_literalToNumber {sat : SAT} (hclosed : sat.Closed) {l : Str}
    (hl : IsLiteral sat.variables l) :
    ∃ k, sat.literalToNumber l = .ok k ∧ sat.signedLiteral k = .ok l := by
  obtain ⟨a, ha, hcase⟩ := hl
  obtain ⟨n, hpos, hn, hget⟩ := exists_varIndexNumber ha
  rcases hcase with rfl | rfl
  · refine ⟨n, literalToNumber_of_unsigned (hclosed.unsigned l ha) hn, ?_⟩
    have hname : sat.literalFromNumber n = .ok l :=
      literalFromNumber_eq_ok.mpr ⟨by omega, by simpa using hget⟩
    rw [signedLiteral, hname]
    exact congrArg Except.ok (if_neg (by omega))
  · refine ⟨-n, literalToNumber_minus hpos hn, ?_⟩
    have hname : sat.literalFromNumber (-n) = .ok a :=
      literalFromNumber_eq_ok.mpr ⟨by omega, by simpa using hget⟩
    rw [signedLiteral, hname]
    exact congrArg Except.ok (if_pos (by omega))

/-- The number of a literal, zero where it has none. -/
def number (sat : SAT) (l : Str) : ℤ := (sat.literalToNumber l).toOption.getD 0

theorem number_of_eq_ok {sat : SAT} {l : Str} {k : ℤ} (hk : sat.literalToNumber l = .ok k) :
    sat.number l = k := by
  rw [number, hk]
  rfl

theorem Closed.literalToNumber_eq {sat : SAT} (hclosed : sat.Closed) {l : Str}
    (hl : IsLiteral sat.variables l) : sat.literalToNumber l = .ok (sat.number l) := by
  obtain ⟨k, hk, -⟩ := hclosed.exists_literalToNumber hl
  rw [number_of_eq_ok hk, hk]

theorem Closed.signedLiteral_number {sat : SAT} (hclosed : sat.Closed) {l : Str}
    (hl : IsLiteral sat.variables l) : sat.signedLiteral (sat.number l) = .ok l := by
  obtain ⟨k, hk, hback⟩ := hclosed.exists_literalToNumber hl
  rw [number_of_eq_ok hk, hback]

theorem Closed.number_inj {sat : SAT} (hclosed : sat.Closed) {l l' : Str}
    (hl : IsLiteral sat.variables l) (hl' : IsLiteral sat.variables l')
    (heq : sat.number l = sat.number l') : l = l' := by
  have hback := hclosed.signedLiteral_number hl
  rw [heq, hclosed.signedLiteral_number hl'] at hback
  exact (Except.ok.inj hback).symm

theorem Closed.number_mem_range {sat : SAT} (hclosed : sat.Closed) {l : Str}
    (hl : IsLiteral sat.variables l) :
    1 ≤ (sat.number l).natAbs ∧ (sat.number l).natAbs ≤ sat.variables.length := by
  obtain ⟨a, ha, -⟩ := bind_eq_ok.mp (hclosed.signedLiteral_number hl)
  exact natAbs_of_literalFromNumber ha

/-- The opposite of a variable has the opposite number. -/
theorem Closed.number_minus {sat : SAT} (hclosed : sat.Closed) {a : Str}
    (ha : a ∈ sat.variables) : sat.number ('-' :: a) = -sat.number a := by
  obtain ⟨n, hpos, hn, -⟩ := exists_varIndexNumber ha
  rw [number_of_eq_ok (literalToNumber_minus hpos hn),
    number_of_eq_ok (literalToNumber_of_unsigned (hclosed.unsigned a ha) hn)]

/-! ## The file -/

/-- The tokens of one line. -/
def lineText (row : List ℤ) : Str := implode ' ' (row.map intText ++ [['0']])

theorem lineText_eq (row : List ℤ) :
    lineText row = row.flatMap (fun number => intText number ++ [' ']) ++ ['0'] := by
  rw [lineText, implode_concat, List.flatMap_map]

theorem clauseLine_eq (row : List ℤ) : clauseLine row = lineText row ++ ['\n'] := by
  rw [lineText_eq, clauseLine, List.append_assoc]
  rfl

theorem newline_notMem_lineText (row : List ℤ) : '\n' ∉ lineText row := by
  rw [lineText_eq, List.mem_append, List.mem_flatMap]
  rintro (⟨number, -, hmem⟩ | hmem)
  · rcases List.mem_append.mp hmem with hmem | hmem
    · exact not_mem_intText (by decide) (by decide) hmem
    · simp at hmem
  · simp at hmem

/-- The clause lines are what stands between the newlines. -/
theorem explode_clauseLines (rows : List (List ℤ)) :
    explode '\n' (rows.flatMap clauseLine) = rows.map lineText ++ [[]] := by
  have hlines : rows.flatMap clauseLine = (rows.map lineText).flatMap (· ++ ['\n']) := by
    rw [List.flatMap_map]
    exact List.flatMap_congr fun row _ => clauseLine_eq row
  rw [hlines]
  refine explode_flatMap fun line hline => ?_
  obtain ⟨row, -, rfl⟩ := List.mem_map.mp hline
  exact newline_notMem_lineText row

/-- The rows of numbers that stand for the clauses. -/
def rows (sat : SAT) : List (List ℤ) := sat.clauses.map (List.map sat.number)

theorem Closed.numbers_eq {sat : SAT} (hclosed : sat.Closed) : sat.numbers = .ok sat.rows :=
  mapM_eq_ok_map fun clause hclause => mapM_eq_ok_map fun l hl =>
    hclosed.literalToNumber_eq (hclosed.literals_mem clause hclause l hl)

theorem Closed.exportToDimacs_eq {sat : SAT} (hclosed : sat.Closed) (comment : Str) :
    sat.exportToDimacs comment = .ok (preamble comment ++
      header sat.variables.length sat.clauses.length ++ sat.rows.flatMap clauseLine) := by
  rw [exportToDimacs, hclosed.numbers_eq]
  rfl

end SAT

namespace Encoder

/-- The boolean variables are the auxiliary atoms, then the atoms of each variable. -/
theorem variables_encode {csp : CSP} (hnodup : (csp.variables.map IntegerVariable.name).Nodup)
    {sat : SAT} (h : encode csp = .ok sat) :
    sat.variables =
      csp.auxiliaryNames ++ csp.variables.flatMap fun x => x.constants.map x.atom := by
  obtain ⟨-, rfl⟩ := encode_eq_ok.mp h
  refine IntegerVariable.foldl_register_registered hnodup fun x _ c hmem => ?_
  obtain ⟨clause, -, hmem⟩ := List.mem_flatMap.mp hmem
  obtain ⟨literal, -, heq⟩ := List.mem_map.mp hmem
  simp [CSP.qName, IntegerVariable.atom] at heq

theorem mem_variables_encode {csp : CSP} (hnodup : (csp.variables.map IntegerVariable.name).Nodup)
    {sat : SAT} (h : encode csp = .ok sat) {a : Str} :
    a ∈ sat.variables ↔ a ∈ csp.auxiliaryNames ∨
      ∃ x ∈ csp.variables, ∃ c, x.domain.l - 1 ≤ c ∧ c ≤ x.domain.u ∧ a = x.atom c := by
  simp only [variables_encode hnodup h, List.mem_append, List.mem_flatMap, List.mem_map,
    IntegerVariable.mem_constants, and_assoc, eq_comm]

theorem mem_auxiliaryNames {csp : CSP} {clause : List Inequation × ℕ}
    (hclause : clause ∈ csp.constraints.zipIdx) {literal : Inequation × ℕ}
    (hliteral : literal ∈ clause.1.zipIdx) :
    CSP.qName clause.2 literal.2 ∈ csp.auxiliaryNames :=
  List.mem_flatMap.mpr ⟨clause, hclause, List.mem_map.mpr ⟨literal, hliteral, rfl⟩⟩

theorem isLiteral_of_mem_orderAxioms {vars : List Str} {x : IntegerVariable}
    (hatom : ∀ c, x.domain.l - 1 ≤ c → c ≤ x.domain.u → x.atom c ∈ vars) :
    ∀ clause ∈ x.orderAxioms, ∀ l ∈ clause, SAT.IsLiteral vars l := by
  have hlu := x.domain.l_le_u
  simp only [IntegerVariable.orderAxioms, List.forall_mem_append, List.forall_mem_cons,
    List.forall_mem_map, mem_loopRange]
  refine ⟨⟨⟨⟨_, hatom _ (by omega) (by omega), Or.inr rfl⟩, by simp⟩,
    ⟨⟨_, hatom _ (by omega) (by omega), Or.inl rfl⟩, by simp⟩, by simp⟩, fun c hc => ?_⟩
  exact ⟨⟨_, hatom _ (by omega) (by omega), Or.inr rfl⟩,
    ⟨_, hatom _ (by omega) (by omega), Or.inl rfl⟩, by simp⟩

theorem isLiteral_predicateEquivalent {vars : List Str} {p : PrimitiveComparison}
    (hatom : p.variable.atom p.const ∈ vars) : SAT.IsLiteral vars p.predicateEquivalent := by
  refine ⟨_, hatom, ?_⟩
  unfold PrimitiveComparison.predicateEquivalent
  rw [PrimitiveComparison.booleanEquivalent_eq]
  cases p.sign
  · exact Or.inr rfl
  · exact Or.inl rfl

theorem isLiteral_of_mem_globalFormula {csp : CSP} (hwf : csp.WellFormed)
    (hok : ∀ clause ∈ csp.constraints, ∀ e ∈ clause, e.Encodable) {vars : List Str}
    (hname : ∀ a ∈ csp.auxiliaryNames, a ∈ vars)
    (hatom : ∀ x ∈ csp.variables, ∀ c, x.domain.l - 1 ≤ c → c ≤ x.domain.u → x.atom c ∈ vars) :
    ∀ clause ∈ csp.globalFormula, ∀ l ∈ clause, SAT.IsLiteral vars l := by
  intro clause hclause
  obtain ⟨c, hc, hclause⟩ := List.mem_flatMap.mp hclause
  rcases List.mem_cons.mp hclause with rfl | hclause
  · rw [List.forall_mem_map]
    exact fun literal hliteral =>
      ⟨_, hname _ (mem_auxiliaryNames hc hliteral), Or.inl rfl⟩
  · obtain ⟨literal, hliteral, hclause⟩ := List.mem_flatMap.mp hclause
    obtain ⟨primComps, hprimComps, rfl⟩ := List.mem_map.mp hclause
    rw [List.forall_mem_cons, List.forall_mem_map]
    refine ⟨⟨_, hname _ (mem_auxiliaryNames hc hliteral), Or.inr rfl⟩, fun p hp => ?_⟩
    have hcmem : c.1 ∈ csp.constraints :=
      List.mem_of_getElem? (List.mk_mem_zipIdx_iff_getElem?.mp hc)
    have hemem : literal.1 ∈ c.1 :=
      List.mem_of_getElem? (List.mk_mem_zipIdx_iff_getElem?.mp hliteral)
    have hformula := (hok c.1 hcmem literal.1 hemem).computeCNF_eq
    obtain ⟨t, ht, hvar, hlow, hhigh⟩ :=
      Inequation.inRange_of_mem_computeCNF hformula hprimComps hp
    apply isLiteral_predicateEquivalent
    rw [hvar]
    exact hatom t.var (hwf.terms_mem c.1 hcmem literal.1 hemem t ht) p.const hlow hhigh

/-- The encoder registers every atom its clauses use. -/
theorem closed_encode {csp : CSP} (hwf : csp.WellFormed) {sat : SAT}
    (h : encode csp = .ok sat) : sat.Closed where
  unsigned := by
    intro a ha hstarts
    rcases (mem_variables_encode hwf.names_nodup h).mp ha with hname | ⟨x, -, c, -, -, rfl⟩
    · obtain ⟨clause, -, hname⟩ := List.mem_flatMap.mp hname
      obtain ⟨literal, -, rfl⟩ := List.mem_map.mp hname
      simp [CSP.qName] at hstarts
    · simp [IntegerVariable.atom] at hstarts
  literals_mem := by
    have hmem := fun a => mem_variables_encode hwf.names_nodup h (a := a)
    obtain ⟨hok, hsat⟩ := encode_eq_ok.mp h
    have hclauses : sat.clauses =
        csp.globalFormula ++ csp.variables.flatMap IntegerVariable.orderAxioms := by rw [hsat]
    rw [hclauses, List.forall_mem_append]
    have hatom : ∀ x ∈ csp.variables, ∀ c, x.domain.l - 1 ≤ c → c ≤ x.domain.u →
        x.atom c ∈ sat.variables := fun x hx c hlow hhigh =>
      (hmem _).mpr (Or.inr ⟨x, hx, c, hlow, hhigh, rfl⟩)
    refine ⟨isLiteral_of_mem_globalFormula hwf hok (fun a ha => (hmem a).mpr (Or.inl ha)) hatom,
      fun clause hclause => ?_⟩
    obtain ⟨x, hx, hclause⟩ := List.mem_flatMap.mp hclause
    exact isLiteral_of_mem_orderAxioms (hatom x hx) clause hclause

end Encoder

end Sato
