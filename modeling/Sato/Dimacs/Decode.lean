import Sato.Dimacs.Export
import Sato.Foundation.SignedRow
import Sato.Source.Dimacs
import Sato.Source.Solver

/-! # Decoding of results

The boolean variables of an encoded problem are the auxiliary atoms, which
decoding skips, and then the atoms of one variable after the other. So a result
is decoded to one group of constants for each variable, whose least is its value.
-/

namespace Sato

open Foundation

namespace SAT

/-- The atoms that a row makes true. -/
def valuation (sat : SAT) (row : List ℤ) : Valuation := fun a => sat.number a ∈ row

instance (sat : SAT) (row : List ℤ) : DecidablePred (sat.valuation row) :=
  fun a => inferInstanceAs (Decidable (sat.number a ∈ row))

/-- A total assignment that satisfies the clauses of a problem. -/
abbrev IsModel (sat : SAT) (row : List ℤ) : Prop := Models sat.variables.length sat.rows row

/-- A row satisfies the rows of numbers when its atoms satisfy the clauses. -/
theorem Closed.cnfTrue_rows {sat : SAT} (hclosed : sat.Closed) {row : List ℤ}
    (htotal : IsTotal sat.variables.length row) :
    CnfTrue (· ∈ row) sat.rows ↔ CnfTrue (LiteralTrue (sat.valuation row)) sat.clauses := by
  have hmap : sat.rows = sat.clauses.map (List.map sat.number) := rfl
  rw [hmap, cnfTrue_map]
  refine cnfTrue_congr fun clause hclause l hl => ?_
  obtain ⟨a, ha, rfl | rfl⟩ := hclosed.literals_mem clause hclause l hl
  · have hunsigned := hclosed.unsigned l ha
    cases l with
    | nil => rfl
    | cons c l =>
        have hc : c ≠ '-' := fun heq => hunsigned ⟨l, by rw [heq]; rfl⟩
        unfold LiteralTrue
        split
        next heq => exact absurd (List.cons.inj heq).1 hc
        next => rfl
  · obtain ⟨hpos, hle⟩ := hclosed.number_mem_range ⟨a, ha, Or.inl rfl⟩
    rw [Function.comp_apply, hclosed.number_minus ha]
    exact htotal.neg_mem_iff hpos hle

end SAT

namespace Solver

/-! ## The loop over the numbers -/

theorem explode_resultText {row : List ℤ} (hne : row ≠ []) :
    explode ' ' (Dimacs.resultText row) = row.map intText ++ [['0', '\n']] := by
  have htext : Dimacs.resultText row = implode ' ' (row.map intText ++ [['0', '\n']]) :=
    implode_append_cons (by simpa using hne) ' ' ['0', '\n']
  rw [htext]
  refine explode_implode (by simp) fun part hpart => ?_
  rcases List.mem_append.mp hpart with hpart | hpart
  · obtain ⟨k, -, rfl⟩ := List.mem_map.mp hpart
    exact not_mem_intText (by decide) (by decide)
  · simp [List.mem_singleton.mp hpart]

/-- The pattern `^q`. -/
def isAuxiliary (a : Str) : Bool := pregTest (.seq .bol (.lit ['q'])) a

/-- What a number adds to the groups, for the variable that has this number. -/
def accept (groups : Groups Str Str) (entry : Str × ℤ) : Groups Str Str :=
  if isAuxiliary entry.1 then groups
  else if entry.2 < 0 then groups
  else
    let parse := PrimitiveComparison.parseExpression entry.1
    groups.push parse.name parse.const

theorem foldlM_interpreteStep {sat : SAT} {vars : List Str} {row : List ℤ}
    (hnames : List.Forall₂ (fun a k => sat.literalFromNumber k = .ok a) vars row)
    (groups : Groups Str Str) :
    (row.map intText).foldlM (interpreteStep sat) groups =
      .ok ((vars.zip row).foldl accept groups) := by
  induction hnames generalizing groups with
  | nil => rfl
  | @cons a k vars row hname _ ih =>
      rw [List.map_cons, List.foldlM_cons, bind_eq_ok]
      refine ⟨accept groups (a, k), ?_, ih _⟩
      rw [interpreteStep, intval_intText, hname]
      unfold accept
      change (if isAuxiliary a = true then _ else _) = _
      split
      · rfl
      · split <;> rfl

theorem forall₂_literalFromNumber {sat : SAT} {row : List ℤ}
    (htotal : IsTotal sat.variables.length row) :
    List.Forall₂ (fun a k => sat.literalFromNumber k = .ok a) sat.variables row := by
  rw [List.forall₂_iff_get]
  refine ⟨htotal.length_eq.symm, fun i hi hi' => ?_⟩
  have habs := htotal.natAbs_getElem hi'
  refine SAT.literalFromNumber_eq_ok.mpr ⟨fun hzero => ?_, ?_⟩
  · rw [List.get_eq_getElem] at hzero
    simp [hzero] at habs
  · rw [List.get_eq_getElem, List.get_eq_getElem, habs, Nat.add_sub_cancel,
      List.getElem?_eq_getElem hi]

/-- A total assignment is decoded from what its numbers add. -/
theorem interprete_eq {sat : SAT} {row : List ℤ} (htotal : IsTotal sat.variables.length row)
    (hne : sat.variables ≠ []) :
    interprete sat (Dimacs.resultText row) =
      .ok (some (((sat.variables.zip row).foldl accept []).map
        fun entry => (entry.1, minText entry.2))) := by
  have hrow : row ≠ [] := by
    intro hnil
    rw [hnil] at htotal
    exact hne (List.length_eq_zero_iff.mp htotal.length_eq.symm)
  rw [interprete, explode_resultText hrow, List.dropLast_concat,
    foldlM_interpreteStep (forall₂_literalFromNumber htotal)]
  have hempty : (row.map intText).isEmpty = false := by simpa using hrow
  rw [hempty]
  rfl

/-! ## Atoms of variables -/

theorem isAuxiliary_qName (index rank : ℕ) : isAuxiliary (CSP.qName index rank) = true :=
  (pregTest_bol_lit (by simp) _).mpr ⟨_, rfl⟩

theorem isAuxiliary_atom (x : IntegerVariable) (c : ℤ) : isAuxiliary (x.atom c) = false := by
  refine Bool.eq_false_iff.mpr fun h => ?_
  obtain ⟨rest, heq⟩ := (pregTest_bol_lit (by simp) _).mp h
  simp [IntegerVariable.atom] at heq

/-- An atom is split back into its name and its constant. -/
theorem parseExpression_atom {x : IntegerVariable} (hname : '_' ∉ x.name) (c : ℤ) :
    PrimitiveComparison.parseExpression (x.atom c) = ⟨x.name, intText c⟩ := by
  have hreplace : pregReplace (.seq .bol (.lit ['p'])) [] (x.atom c) =
      x.name ++ '_' :: intText c := pregReplace_bol_lit (by simp) [] _
  have hconst : '_' ∉ intText c := not_mem_intText (by decide) (by decide)
  have hsplit : pregSplit (.cls (· == '_')) (x.name ++ '_' :: intText c) =
      [x.name, intText c] := by
    rw [pregSplit_cls, List.splitOnP_append_cons_of_forall_mem, List.splitOnP_eq_singleton]
    · intro d hd
      exact beq_eq_false_iff_ne.mpr fun heq => hconst (heq ▸ hd)
    · intro d hd
      exact beq_eq_false_iff_ne.mpr fun heq => hname (heq ▸ hd)
    · rfl
  rw [PrimitiveComparison.parseExpression, hreplace, hsplit]
  rfl

/-- A name read from an atom has no underscore. -/
theorem underscore_notMem_parseExpression (a : Str) :
    '_' ∉ (PrimitiveComparison.parseExpression a).name := by
  intro hmem
  unfold PrimitiveComparison.parseExpression at hmem
  rw [pregSplit_cls] at hmem
  generalize pregReplace (.seq .bol (.lit ['p'])) [] a = text at hmem
  have hpart : (text.splitOnP (· == '_')).getD 0 [] ∈ text.splitOnP (· == '_') := by
    cases hsplit : text.splitOnP (· == '_') with
    | nil => exact absurd hsplit (List.splitOnP_ne_nil _ _)
    | cons head tail => exact List.mem_cons_self
  simpa using not_of_mem_splitOnP hpart hmem

/-- The keys of the groups never have an underscore. -/
theorem underscore_notMem_accept (entries : List (Str × ℤ)) :
    ∀ key ∈ (entries.foldl accept []).map Prod.fst, '_' ∉ key := by
  induction entries using List.reverseRecOn with
  | nil => simp
  | append_singleton entries entry ih =>
      rw [List.foldl_append, List.foldl_cons, List.foldl_nil, accept]
      split
      · exact ih
      · split
        · exact ih
        · intro key hkey
          rcases Groups.mem_keys_push.mp hkey with hkey | rfl
          · exact ih key hkey
          · exact underscore_notMem_parseExpression entry.1

/-- The constants of a variable whose atoms a row makes true. -/
def trueConstants (sat : SAT) (row : List ℤ) (x : IntegerVariable) : List ℤ :=
  x.constants.filter fun c => sat.number (x.atom c) ∈ row

/-- The loop over the atoms of one variable. -/
theorem foldl_accept_atoms {sat : SAT} {row : List ℤ} {x : IntegerVariable}
    (hname : '_' ∉ x.name) {cs ks : List ℤ} (hlength : cs.length = ks.length)
    (hsign : ∀ entry ∈ (cs.map x.atom).zip ks, entry.2 < 0 ↔ sat.number entry.1 ∉ row)
    (groups : Groups Str Str) :
    ((cs.map x.atom).zip ks).foldl accept groups =
      ((cs.filter fun c => sat.number (x.atom c) ∈ row).map intText).foldl
        (fun groups const => groups.push x.name const) groups := by
  induction cs generalizing ks groups with
  | nil => simp
  | cons c cs ih =>
      cases ks with
      | nil => simp at hlength
      | cons k ks =>
          rw [List.map_cons, List.zip_cons_cons, List.forall_mem_cons] at hsign
          have haccept : accept groups (x.atom c, k) =
              if sat.number (x.atom c) ∈ row then groups.push x.name (intText c) else groups := by
            rw [accept, isAuxiliary_atom, parseExpression_atom hname]
            by_cases hmem : sat.number (x.atom c) ∈ row
            · have hk : ¬ k < 0 := fun hk => hsign.1.mp hk hmem
              simp [hmem, hk]
            · have hk : k < 0 := hsign.1.mpr hmem
              simp [hmem, hk]
          rw [List.map_cons, List.zip_cons_cons, List.foldl_cons, haccept,
            ih (Nat.succ.inj hlength) hsign.2]
          by_cases hmem : sat.number (x.atom c) ∈ row
          · simp [hmem]
          · simp [hmem]

theorem foldl_accept_auxiliary (entries : List (Str × ℤ))
    (haux : ∀ entry ∈ entries, isAuxiliary entry.1 = true) (groups : Groups Str Str) :
    entries.foldl accept groups = groups := by
  induction entries generalizing groups with
  | nil => rfl
  | cons entry entries ih =>
      rw [List.forall_mem_cons] at haux
      rw [List.foldl_cons, accept, if_pos haux.1, ih haux.2]

/-- The loop over the atoms of all variables. -/
theorem foldl_accept_blocks {sat : SAT} {row : List ℤ} {vars : List IntegerVariable}
    (hnames : ∀ x ∈ vars, '_' ∉ x.name) {ks : List ℤ}
    (hlength : (vars.flatMap fun x => x.constants.map x.atom).length = ks.length)
    (hsign : ∀ entry ∈ (vars.flatMap fun x => x.constants.map x.atom).zip ks,
      entry.2 < 0 ↔ sat.number entry.1 ∉ row) (groups : Groups Str Str) :
    ((vars.flatMap fun x => x.constants.map x.atom).zip ks).foldl accept groups =
      vars.foldl (fun groups x => ((trueConstants sat row x).map intText).foldl
        (fun groups const => groups.push x.name const) groups) groups := by
  induction vars generalizing ks groups with
  | nil => simp
  | cons x vars ih =>
      rw [List.forall_mem_cons] at hnames
      rw [List.flatMap_cons] at hlength hsign ⊢
      have hks : (x.constants.map x.atom).length ≤ ks.length := by
        rw [← hlength, List.length_append]
        omega
      have htake : (x.constants.map x.atom).length =
          (ks.take (x.constants.map x.atom).length).length := by
        rw [List.length_take, Nat.min_eq_left hks]
      rw [← List.take_append_drop (x.constants.map x.atom).length ks,
        List.zip_append htake] at hsign ⊢
      rw [List.forall_mem_append] at hsign
      rw [List.foldl_append, foldl_accept_atoms hnames.1 (by simpa using htake) hsign.1,
        ih hnames.2 _ hsign.2]
      · rfl
      · rw [List.length_append] at hlength
        rw [List.length_drop, ← hlength]
        omega

/-- An element past the first part occurs at one place only. -/
theorem index_unique {first second : List Str} (hnodup : second.Nodup) {a : Str}
    (ha : a ∉ first) {i j : ℕ} (hi : (first ++ second)[i]? = some a)
    (hj : (first ++ second)[j]? = some a) : i = j := by
  have hpast : ∀ {k}, (first ++ second)[k]? = some a → first.length ≤ k := by
    intro k hk
    by_contra hlt
    rw [List.getElem?_append_left (by omega)] at hk
    exact ha (List.mem_of_getElem? hk)
  have hile := hpast hi
  have hjle := hpast hj
  rw [List.getElem?_append_right hile] at hi
  rw [List.getElem?_append_right hjle] at hj
  obtain ⟨hlt, -⟩ := List.getElem?_eq_some_iff.mp hi
  have := (List.getElem?_inj hlt hnodup).mp (hi.trans hj.symm)
  omega

/-- The number at the place of a variable is positive when the variable is true. -/
theorem neg_iff_number_notMem {sat : SAT} (hclosed : sat.Closed) {row : List ℤ}
    (htotal : IsTotal sat.variables.length row) {a : Str} {k : ℤ}
    (hentry : (a, k) ∈ sat.variables.zip row)
    (hunique : ∀ i j : ℕ, sat.variables[i]? = some a → sat.variables[j]? = some a → i = j) :
    k < 0 ↔ sat.number a ∉ row := by
  obtain ⟨i, hi⟩ := List.mem_iff_getElem?.mp hentry
  obtain ⟨ha, hk⟩ := List.getElem?_zip_eq_some.mp hi
  obtain ⟨n, hpos, hn, hget⟩ := SAT.exists_varIndexNumber (List.mem_of_getElem? ha)
  have hnumber : sat.number a = n := SAT.number_of_eq_ok
    (SAT.literalToNumber_of_unsigned (hclosed.unsigned a (List.mem_of_getElem? ha)) hn)
  have hi : n - 1 = i := hunique _ _ hget ha
  obtain ⟨hlt, hrow⟩ := List.getElem?_eq_some_iff.mp hk
  have habs := htotal.natAbs_getElem hlt
  have hmem : k ∈ row := List.mem_of_getElem? hk
  have hlen := htotal.length_eq
  rw [hrow] at habs
  rw [hnumber, ← htotal.neg_mem_iff (by omega) (by omega)]
  constructor
  · intro hneg
    obtain rfl : k = -(n : ℤ) := by omega
    exact hmem
  · intro hneg
    by_contra hnonneg
    obtain rfl : k = (n : ℤ) := by omega
    exact (htotal.neg_mem_iff (by omega) (by omega)).mp hneg hmem

/-! ## Decoding of an encoded problem -/

theorem nodup_atoms {vars : List IntegerVariable}
    (hnodup : (vars.map IntegerVariable.name).Nodup) :
    (vars.flatMap fun x => x.constants.map x.atom).Nodup := by
  rw [List.nodup_flatMap]
  refine ⟨fun x _ => ?_, ?_⟩
  · exact (nodup_eraseDups _).map fun c d heq => (IntegerVariable.atom_inj.mp heq).2
  · refine (List.pairwise_map.mp hnodup).imp fun {x y} hne => ?_
    intro a ha ha'
    obtain ⟨c, -, rfl⟩ := List.mem_map.mp ha
    obtain ⟨d, -, heq⟩ := List.mem_map.mp ha'
    exact hne (IntegerVariable.atom_inj.mp heq).1.symm

theorem isAuxiliary_of_mem_auxiliaryNames {csp : CSP} {a : Str} (ha : a ∈ csp.auxiliaryNames) :
    isAuxiliary a = true := by
  obtain ⟨clause, -, ha⟩ := List.mem_flatMap.mp ha
  obtain ⟨literal, -, rfl⟩ := List.mem_map.mp ha
  exact isAuxiliary_qName _ _

section Row

variable {csp : CSP} (hwf : csp.WellFormed) {sat : SAT} (h : Encoder.encode csp = .ok sat)
  {row : List ℤ} (htotal : IsTotal sat.variables.length row)
include hwf h htotal

theorem length_row :
    row.length = csp.auxiliaryNames.length +
      (csp.variables.flatMap fun x => x.constants.map x.atom).length := by
  rw [htotal.length_eq, Encoder.variables_encode hwf.names_nodup h, List.length_append]

/-- The numbers of the q-names come first in a row. -/
theorem zip_row :
    sat.variables.zip row =
      csp.auxiliaryNames.zip (row.take csp.auxiliaryNames.length) ++
        (csp.variables.flatMap fun x => x.constants.map x.atom).zip
          (row.drop csp.auxiliaryNames.length) := by
  have hlen := length_row hwf h htotal
  have htake : csp.auxiliaryNames.length = (row.take csp.auxiliaryNames.length).length := by
    rw [List.length_take]
    omega
  rw [← List.zip_append htake, List.take_append_drop, Encoder.variables_encode hwf.names_nodup h]

/-- An atom stands in one place, so that its number has one sign. -/
theorem neg_iff_number_notMem_of_atom {entry : Str × ℤ}
    (hentry : entry ∈ (csp.variables.flatMap fun x => x.constants.map x.atom).zip
      (row.drop csp.auxiliaryNames.length)) : entry.2 < 0 ↔ sat.number entry.1 ∉ row := by
  have hvars := Encoder.variables_encode hwf.names_nodup h
  obtain ⟨a, k⟩ := entry
  have hmem : (a, k) ∈ sat.variables.zip row := by
    rw [zip_row hwf h htotal]
    exact List.mem_append_right _ hentry
  apply neg_iff_number_notMem (Encoder.closed_encode hwf h) htotal hmem
  intro i j hi hj
  obtain ⟨x, -, hx⟩ := List.mem_flatMap.mp (List.of_mem_zip hentry).1
  obtain ⟨c, -, rfl⟩ := List.mem_map.mp hx
  rw [hvars] at hi hj
  refine index_unique (nodup_atoms hwf.names_nodup) (fun hmem => ?_) hi hj
  simpa [isAuxiliary_atom] using isAuxiliary_of_mem_auxiliaryNames hmem

/-- The groups of a result: one for each variable, with its true constants. -/
theorem foldl_accept_encode (hnames : ∀ x ∈ csp.variables, '_' ∉ x.name)
    (hne : ∀ x ∈ csp.variables, trueConstants sat row x ≠ []) :
    (sat.variables.zip row).foldl accept [] =
      csp.variables.map fun x => (x.name, (trueConstants sat row x).map intText) := by
  have hskip := foldl_accept_auxiliary
    (csp.auxiliaryNames.zip (row.take csp.auxiliaryNames.length))
    (fun entry hentry => isAuxiliary_of_mem_auxiliaryNames (List.of_mem_zip hentry).1) []
  have hlength : (csp.variables.flatMap fun x => x.constants.map x.atom).length =
      (row.drop csp.auxiliaryNames.length).length := by
    have := length_row hwf h htotal
    rw [List.length_drop]
    omega
  have hsign : ∀ entry ∈ (csp.variables.flatMap fun x => x.constants.map x.atom).zip
      (row.drop csp.auxiliaryNames.length), entry.2 < 0 ↔ sat.number entry.1 ∉ row :=
    fun _ hentry => neg_iff_number_notMem_of_atom hwf h htotal hentry
  rw [zip_row hwf h htotal, List.foldl_append, hskip,
    foldl_accept_blocks hnames hlength hsign,
    Groups.foldl_push_blocks IntegerVariable.name _ hwf.names_nodup (by simpa using hne)
      (by simp)]
  rfl

end Row

/-- The least of some texts of integers. -/
theorem minText_eq {cs : List ℤ} {v : ℤ} (hmem : v ∈ cs) (hle : ∀ c ∈ cs, v ≤ c) :
    minText (cs.map intText) = intText v := by
  -- the least value is the one held or among those still to come
  have hloop : ∀ (ds : List ℤ) (d : ℤ), (v = d ∨ v ∈ ds) → v ≤ d → (∀ c ∈ ds, v ≤ c) →
      (ds.map intText).foldl (fun least value =>
        if compareText least value = .gt then value else least) (intText d) = intText v := by
    intro ds
    induction ds with
    | nil =>
        rintro d (rfl | hv) _ _
        · rfl
        · simp at hv
    | cons e ds ih =>
        intro d hv hd hds
        rw [List.forall_mem_cons] at hds
        rw [List.map_cons, List.foldl_cons, compareText_intText]
        split
        next hgt =>
          have hlt := compare_gt_iff_gt.mp hgt
          refine ih e ?_ hds.1 hds.2
          rcases hv with rfl | hv
          · omega
          · exact List.mem_cons.mp hv
        next hngt =>
          have hge := not_lt.mp (mt compare_gt_iff_gt.mpr hngt)
          refine ih d ?_ hd hds.2
          rcases hv with rfl | hv
          · exact Or.inl rfl
          · rcases List.mem_cons.mp hv with rfl | hv
            · exact Or.inl (by omega)
            · exact Or.inr hv
  cases cs with
  | nil => simp at hmem
  | cons c cs =>
      rw [List.forall_mem_cons] at hle
      exact hloop cs c (List.mem_cons.mp hmem) hle.1 hle.2

/-! ## Decoding of a model -/

/-- A value for each variable: the constants of its true atoms are those from it on. -/
def Decodes (sat : SAT) (row : List ℤ) (x : IntegerVariable) (v : ℤ) : Prop :=
  Bounds (fun c => sat.number (x.atom c) ∈ row) x.domain.l x.domain.u v

theorem exists_decodes {csp : CSP} (hwf : csp.WellFormed) {sat : SAT}
    (h : Encoder.encode csp = .ok sat) {row : List ℤ} (hmodel : sat.IsModel row) :
    ∀ x ∈ csp.variables, ∃ v, Decodes sat row x v := by
  have htrue := ((Encoder.closed_encode hwf h).cnfTrue_rows hmodel.total).mp hmodel.satisfies
  exact fun x hx => (((Encoder.cnfTrue_encode h).mp htrue).2 x hx).exists_bounds x.domain.l_le_u

/-- The least true constant of a variable is its value. -/
theorem Decodes.minText_eq {sat : SAT} {row : List ℤ} {x : IntegerVariable} {v : ℤ}
    (hv : Decodes sat row x v) :
    trueConstants sat row x ≠ [] ∧
      minText ((trueConstants sat row x).map intText) = intText v := by
  obtain ⟨hlow, hhigh, hiff⟩ := hv
  have hmem : v ∈ trueConstants sat row x := by
    rw [trueConstants, List.mem_filter, IntegerVariable.mem_constants]
    exact ⟨⟨by omega, hhigh⟩, decide_eq_true ((hiff v (by omega) hhigh).mpr le_rfl)⟩
  refine ⟨List.ne_nil_of_mem hmem, Solver.minText_eq hmem fun c hc => ?_⟩
  rw [trueConstants, List.mem_filter, IntegerVariable.mem_constants] at hc
  exact (hiff c hc.1.1 hc.1.2).mp (of_decide_eq_true hc.2)

theorem variables_ne_nil {csp : CSP} (hwf : csp.WellFormed) (hvars : csp.variables ≠ [])
    {sat : SAT} (h : Encoder.encode csp = .ok sat) : sat.variables ≠ [] := by
  obtain ⟨x, hx⟩ := List.exists_mem_of_ne_nil _ hvars
  have hlu := x.domain.l_le_u
  exact List.ne_nil_of_mem ((Encoder.mem_variables_encode hwf.names_nodup h).mpr
    (Or.inr ⟨x, hx, x.domain.u, by omega, le_rfl, rfl⟩))

/-- Names without underscores: a model is decoded to the values of the variables,
in the order of the variables. -/
theorem interprete_model {csp : CSP} (hwf : csp.WellFormed) (hvars : csp.variables ≠ [])
    (hnames : ∀ x ∈ csp.variables, '_' ∉ x.name) {sat : SAT}
    (h : Encoder.encode csp = .ok sat) {row : List ℤ} (hmodel : sat.IsModel row) :
    ∃ value : IntegerVariable → ℤ, (∀ x ∈ csp.variables, Decodes sat row x (value x)) ∧
      interprete sat (Dimacs.resultText row) =
        .ok (some (csp.variables.map fun x => (x.name, intText (value x)))) := by
  choose! value hvalue using exists_decodes hwf h hmodel
  refine ⟨value, hvalue, ?_⟩
  rw [interprete_eq hmodel.total (variables_ne_nil hwf hvars h),
    foldl_accept_encode hwf h hmodel.total hnames fun x hx => (hvalue x hx).minText_eq.1,
    List.map_map]
  refine congrArg (fun map => Except.ok (some map)) (List.map_congr_left fun x hx => ?_)
  exact congrArg (Prod.mk x.name) (hvalue x hx).minText_eq.2

/-- A problem without variables that has a model has no boolean variables. -/
theorem variables_eq_nil_of_no_variables {csp : CSP} (hwf : csp.WellFormed)
    (hvars : csp.variables = []) {sat : SAT} (h : Encoder.encode csp = .ok sat) {row : List ℤ}
    (hmodel : sat.IsModel row) : sat.variables = [] := by
  have htrue := ((Encoder.closed_encode hwf h).cnfTrue_rows hmodel.total).mp hmodel.satisfies
  obtain ⟨hnames, himp⟩ :=
    CSP.cnfTrue_globalFormula.mp ((Encoder.cnfTrue_encode h).mp htrue).1
  obtain ⟨hok, -⟩ := Encoder.encode_eq_ok.mp h
  have hnone : csp.positions = [] := by
    by_contra hne
    obtain ⟨clause, hclause⟩ := List.exists_mem_of_ne_nil _ hne
    obtain ⟨p, hp, hq⟩ := hnames clause hclause
    obtain ⟨c, hc, he, hover⟩ := Encoder.over_of_mem_positions hwf hclause hp
    have hterms : p.literal.terms = [] := by
      refine List.eq_nil_iff_forall_not_mem.mpr fun t ht => ?_
      simpa [hvars] using hover t ht
    have hformula := Inequation.computeCNF_eq_false (hok c hc p.literal he).computeCNF_eq
      fun hreach => hreach.1 hterms
    have hfalse := himp clause hclause p hp hq
    rw [Inequation.FormulaTrue, hformula] at hfalse
    exact not_cnfTrue_of_nil_mem List.mem_cons_self hfalse
  have hconstraints : csp.constraints = [] := by simpa [CSP.positions] using hnone
  rw [Encoder.variables_encode hwf.names_nodup h, hvars, CSP.auxiliaryNames, hconstraints]
  rfl

/-- The result without numbers is refused. -/
theorem interprete_resultText_nil (sat : SAT) :
    interprete sat (Dimacs.resultText []) = .error (SAT.numberError ++ interpreteError) := by
  have hcontent : (explode ' ' (Dimacs.resultText [])).dropLast = [[]] := by decide
  rw [interprete, hcontent]
  rfl

/-- The keys of an interpretation never have an underscore. -/
theorem underscore_notMem_keys {sat : SAT} {row : List ℤ}
    (htotal : IsTotal sat.variables.length row) (hne : sat.variables ≠ [])
    {map : Interpretation} (h : interprete sat (Dimacs.resultText row) = .ok (some map)) :
    ∀ key ∈ map.map Prod.fst, '_' ∉ key := by
  rw [interprete_eq htotal hne] at h
  obtain rfl := Option.some.inj (Except.ok.inj h)
  rw [List.map_map]
  exact underscore_notMem_accept _

/-- A model is decoded to a map from exactly the declared names to their values
when there is a declaration and no declared name has an underscore. -/
theorem interprete_decodes_iff {csp : CSP} (hwf : csp.WellFormed) {sat : SAT}
    (h : Encoder.encode csp = .ok sat) {row : List ℤ} (hmodel : sat.IsModel row) :
    (∃ map : Interpretation, interprete sat (Dimacs.resultText row) = .ok (some map) ∧
      (map.map Prod.fst).Perm (csp.variables.map IntegerVariable.name) ∧
      ∀ x ∈ csp.variables, ∃ v, (x.name, intText v) ∈ map ∧
        (x.domain.l ≤ v ∧ v ≤ x.domain.u ∧ ∀ c, x.domain.l - 1 ≤ c → c ≤ x.domain.u →
          (sat.number (x.atom c) ∈ row ↔ v ≤ c)) ∧
        ∀ w, (x.domain.l ≤ w ∧ w ≤ x.domain.u ∧ ∀ c, x.domain.l - 1 ≤ c → c ≤ x.domain.u →
          (sat.number (x.atom c) ∈ row ↔ w ≤ c)) → w = v) ↔
      csp.variables ≠ [] ∧ ∀ x ∈ csp.variables, '_' ∉ x.name := by
  constructor
  · rintro ⟨map, hmap, hkeys, -⟩
    have hvars : csp.variables ≠ [] := by
      intro hnil
      have hempty := variables_eq_nil_of_no_variables hwf hnil h hmodel
      have hrow : row = [] :=
        List.length_eq_zero_iff.mp (hmodel.total.length_eq.trans (by rw [hempty]; rfl))
      rw [hrow, interprete_resultText_nil] at hmap
      simp at hmap
    refine ⟨hvars, fun x hx => ?_⟩
    exact underscore_notMem_keys hmodel.total (variables_ne_nil hwf hvars h) hmap x.name
      (hkeys.mem_iff.mpr (List.mem_map_of_mem hx))
  · rintro ⟨hvars, hnames⟩
    obtain ⟨value, hvalue, hmap⟩ := interprete_model hwf hvars hnames h hmodel
    refine ⟨_, hmap, by rw [List.map_map]; exact List.Perm.refl _, fun x hx => ?_⟩
    exact ⟨value x, List.mem_map.mpr ⟨x, hx, rfl⟩, hvalue x hx,
      fun w hw => Bounds.unique hw (hvalue x hx)⟩

theorem interprete_decodes_notOne :
    (∃ map : Interpretation,
      interprete Encoder.notOneSat "1 -2 -3 4 5 6 0\n".toList = .ok (some map) ∧
      (map.map Prod.fst).Perm (Encoder.notOne.variables.map IntegerVariable.name) ∧
      ∀ x ∈ Encoder.notOne.variables, ∃ v, (x.name, intText v) ∈ map ∧
        (x.domain.l ≤ v ∧ v ≤ x.domain.u ∧ ∀ c, x.domain.l - 1 ≤ c → c ≤ x.domain.u →
          (Encoder.notOneSat.number (x.atom c) ∈ [1, -2, -3, 4, 5, 6] ↔ v ≤ c)) ∧
        ∀ w, (x.domain.l ≤ w ∧ w ≤ x.domain.u ∧ ∀ c, x.domain.l - 1 ≤ c → c ≤ x.domain.u →
          (Encoder.notOneSat.number (x.atom c) ∈ [1, -2, -3, 4, 5, 6] ↔ w ≤ c)) → w = v) ↔
      Encoder.notOne.variables ≠ [] ∧ ∀ x ∈ Encoder.notOne.variables, '_' ∉ x.name :=
  interprete_decodes_iff Encoder.notOne_wellFormed Encoder.encode_notOne
    (by decide +kernel : Encoder.notOneSat.IsModel [1, -2, -3, 4, 5, 6])

/-- A variable `x_1` over `0, .., 0` is decoded to a variable `x`. -/
theorem interprete_underscore :
    let x : IntegerVariable := ⟨"x_1".toList, ⟨0, 0, by decide⟩⟩
    ∃ csp sat, CSP.parseExpression " x_1  0  0 ".toList = .ok csp ∧ csp.variables = [x] ∧
      Encoder.encode csp = .ok sat ∧ sat.IsModel [-1, 2] ∧
      interprete sat (Dimacs.resultText [-1, 2]) = .ok (some [("x".toList, "1".toList)]) := by
  intro x
  refine ⟨⟨[x], []⟩, ⟨["px_1_-1".toList, "px_1_0".toList],
    [["-px_1_-1".toList], ["px_1_0".toList], ["-px_1_-1".toList, "px_1_0".toList]]⟩, ?_⟩
  decide +kernel

end Solver

end Sato
