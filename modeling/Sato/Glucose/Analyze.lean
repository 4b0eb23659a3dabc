import Sato.Foundation.Marks
import Sato.Glucose.Propagate
import Sato.Source.Glucose.Analyze

/-! # Conflict analysis

The clause kept by the analysis has the literals found at earlier levels and the
opposites of the marked literals of the last level. Resolution with the reason of one of
these gives an entailed clause again, and it ends with one of them. -/

open Foundation

namespace Sato

namespace Glucose

namespace Solver

variable {F : List (List Lit)} {done : Lit → CRef → Prop} {s t : Solver} {p q : Lit}
  {cr : CRef} {rest : List Lit}

/-! ## The state -/

/-- The state during the analysis, where some literals are marked. -/
structure Marked (s t : Solver) : Prop where
  eq : t = { s with ca := t.ca, seen := t.seen }
  permuted : s.Permuted t.ca
  mem_take : ∀ cr x, x ∈ (t.ca cr).take 2 ↔ x ∈ (s.ca cr).take 2

namespace Marked

theorem refl (s : Solver) : Marked s s := ⟨rfl, .refl s, fun _ _ => Iff.rfl⟩

theorem level (h : Marked s t) (x : Var) : t.level x = s.level x := by
  rw [h.eq]
  rfl

theorem decisionLevel (h : Marked s t) : t.decisionLevel = s.decisionLevel := by
  rw [h.eq]
  rfl

theorem reason (h : Marked s t) (x : Var) : t.reason x = s.reason x := by
  rw [h.eq]
  rfl

theorem value (h : Marked s t) (p : Lit) : t.value p = s.value p := by
  rw [h.eq]
  rfl

theorem setSeen (h : Marked s t) (x : Var) (b : Bool) : Marked s (t.setSeen x b) := by
  refine ⟨?_, h.permuted, h.mem_take⟩
  conv_lhs => rw [Solver.setSeen, h.eq]
  rfl

theorem trueFirst (h : Marked s t) (cr : CRef) : Marked s (t.trueFirst cr) := by
  unfold Solver.trueFirst
  split
  next a b hclause =>
    split
    next =>
      refine ⟨?_, h.permuted.update ?_ ?_, fun c x => ?_⟩
      · conv_lhs => rw [h.eq]
      · rw [hclause]
        exact List.Perm.swap _ _ _
      · intro p _ hlen
        exact absurd hlen (Nat.lt_irrefl 2)
      · refine Iff.trans ?_ (h.mem_take c x)
        change x ∈ (Function.update t.ca cr [b, a] c).take 2 ↔ _
        by_cases hc : c = cr
        · subst hc
          rw [Function.update_self, hclause]
          simp [or_comm]
        · rw [Function.update_of_ne hc]
    next => exact h
  next => exact h

@[simp] theorem seen_trueFirst : (t.trueFirst cr).seen = t.seen := by
  unfold Solver.trueFirst
  split
  · split <;> rfl
  · rfl

/-- The literal that a clause is the reason of comes first then. -/
theorem head_trueFirst (h : Marked s t) (htrail : s.TrailOk) (hp : p ∈ s.trail)
    (himplies : Implies (s.ca cr) p s.trail) (hlen : 2 ≤ (s.ca cr).length) :
    ((t.trueFirst cr).ca cr).head? = some p := by
  have htrue := htrail.value_eq_true hp
  have hmem : p ∈ t.ca cr := (h.permuted.perm cr).mem_iff.mpr himplies.mem
  have hothers : ∀ q ∈ t.ca cr, q ≠ p → s.value q = some false := by
    intro q hq hne
    exact htrail.neg_mem_iff.mp (himplies.others q ((h.permuted.perm cr).mem_iff.mp hq) hne)
  unfold Solver.trueFirst
  split
  next a b hclause =>
    rw [hclause] at hmem hothers
    rw [h.value]
    split
    next hfalse =>
      have hpa : p ≠ a := by
        rintro rfl
        rw [htrue] at hfalse
        cases hfalse
      change (Function.update t.ca cr [b, a] cr).head? = some p
      rw [Function.update_self, (List.mem_pair.mp hmem).resolve_left hpa, List.head?_cons]
    next hnot =>
      have hpa : a = p := not_not.mp fun hne => hnot (hothers a List.mem_cons_self hne)
      rw [hclause, hpa, List.head?_cons]
  next hnot =>
    have hlen' := (h.permuted.perm cr).length_eq
    have hlong : 2 < (t.ca cr).length := by
      match hclause : t.ca cr with
      | [] | [_] =>
          rw [hclause] at hlen'
          simp only [List.length_nil, List.length_singleton] at hlen'
          omega
      | [a, b] => exact absurd hclause (hnot a b)
      | _ :: _ :: _ :: _ => simp
    exact h.permuted.head cr p htrue hlong (himplies.head (hlen' ▸ hlong))

/-- The other literals of the reason of a literal are false before it. -/
theorem exists_others (h : Marked s t) (hinv : Inv F done s) (hsuffix : p :: rest <:+ s.trail)
    (hlevel : 0 < s.level p.var) (hr : s.reason p.var = some cr) :
    ∃ others, (t.trueFirst cr).ca cr = p :: others ∧ (∀ q ∈ others, -q ∈ rest) ∧
      Entails F (p :: others) := by
  have hreason := hinv.reasons p rest hsuffix hlevel
  rw [hr] at hreason
  obtain ⟨hlive, himplies⟩ := hreason
  have hweak : Implies (s.ca cr) p s.trail := by
    refine ⟨himplies.mem, himplies.head, fun q hq hne => ?_⟩
    exact hsuffix.subset (List.mem_cons_of_mem _ (himplies.others q hq hne))
  have hhead := h.head_trueFirst hinv.trail (hsuffix.subset List.mem_cons_self) hweak
    (hinv.clauses.length cr hlive)
  obtain ⟨others, hclause⟩ := List.head?_eq_some_iff.mp hhead
  have hperm := (h.trueFirst cr).permuted.perm cr
  rw [hclause] at hperm
  refine ⟨others, hclause, fun q hq => ?_, ?_⟩
  · refine himplies.others q (hperm.mem_iff.mp (List.mem_cons_of_mem _ hq)) ?_
    rintro rfl
    have hnodup := hperm.nodup_iff.mpr (hinv.clauses.nodup cr hlive).of_map
    exact (List.nodup_cons.mp hnodup).1 hq
  · exact (hinv.represents.clause cr hlive).mono hperm.symm.subset

end Marked

/-! ## The clause kept by the analysis -/

/-- The variable is marked at the last level. -/
def lastSeen (s t : Solver) (x : Var) : Bool := t.seen x && s.level x == s.decisionLevel

/-- The literals found at earlier levels, and those to be resolved. -/
def openClause (s : Solver) (rest : List Lit) (a : Analysis) : List Lit :=
  a.learnt ++ (rest.filter fun p => lastSeen s a.solver p.var).map Neg.neg

theorem seen_setSeen_of_seen {x y : Var} (h : t.seen y = true) :
    (t.setSeen x true).seen y = true := by
  by_cases hy : y = x
  · rw [hy]
    exact Function.update_self ..
  · exact (Function.update_of_ne hy ..).trans h

theorem lastSeen_setSeen (t : Solver) {x : Var} (hlevel : s.level x = s.decisionLevel) (b : Bool) :
    lastSeen s (t.setSeen x b) = Function.update (lastSeen s t) x b := by
  funext y
  by_cases hy : y = x <;> simp [lastSeen, setSeen, hy, hlevel]

theorem lastSeen_setSeen_of_lt (t : Solver) {x : Var} (hlevel : s.level x < s.decisionLevel)
    (b : Bool) :
    lastSeen s (t.setSeen x b) = lastSeen s t := by
  funext y
  by_cases hy : y = x
  · have hne : (s.level x == s.decisionLevel) = false := by simpa using Nat.ne_of_lt hlevel
    simp [lastSeen, hy, hne]
  · simp [lastSeen, setSeen, hy]

theorem openClause_subset {a a' : Analysis} (hlearnt : a.learnt ⊆ a'.learnt)
    (hmark : ∀ x, lastSeen s a.solver x = true → lastSeen s a'.solver x = true) :
    openClause s rest a ⊆ openClause s rest a' := by
  intro q hq
  rcases List.mem_append.mp hq with hq | hq
  · exact List.mem_append_left _ (hlearnt hq)
  · obtain ⟨p, hp, rfl⟩ := List.mem_map.mp hq
    obtain ⟨hp, hseen⟩ := List.mem_filter.mp hp
    exact List.mem_append_right _
      (List.mem_map_of_mem (List.mem_filter.mpr ⟨hp, hmark _ hseen⟩))

structure Analysing (s : Solver) (rest : List Lit) (a : Analysis) : Prop where
  marked : Marked s a.solver
  learnt : ∀ q ∈ a.learnt, -q ∈ s.trail ∧ 0 < s.level q.var ∧ s.level q.var < s.decisionLevel
  nodup : (a.learnt.map Lit.var).Nodup
  seen_learnt : ∀ q ∈ a.learnt, a.solver.seen q.var = true
  seen : ∀ x, a.solver.seen x = true →
    x ∈ a.learnt.map Lit.var ∨ s.level x = s.decisionLevel ∧ x ∈ rest.map Lit.var
  count : a.pathC = rest.countP fun p => lastSeen s a.solver p.var

/-- What a visit of literals adds to the clause. -/
structure Visited (s : Solver) (rest : List Lit) (a a' : Analysis) (lits : List Lit) : Prop where
  analysing : Analysing s rest a'
  subset : openClause s rest a ⊆ openClause s rest a'
  count : a.pathC ≤ a'.pathC
  mem : ∀ q ∈ lits, 0 < s.level q.var → q ∈ openClause s rest a'

namespace Analysing

variable {a : Analysis}

/-- A marked literal is in the clause. -/
theorem mem_of_seen (h : Analysing s rest a) (htrail : s.TrailOk) (hsuffix : rest <:+ s.trail)
    (hq : -q ∈ rest) (hseen : a.solver.seen q.var = true) : q ∈ openClause s rest a := by
  rcases h.seen _ hseen with hmem | ⟨hlevel, -⟩
  · obtain ⟨q', hq', hvar⟩ := List.mem_map.mp hmem
    have heq := htrail.eq_of_var (h.learnt q' hq').1 (hsuffix.subset hq) hvar
    rw [neg_inj] at heq
    exact List.mem_append_left _ (heq ▸ hq')
  · refine List.mem_append_right _ (List.mem_map.mpr ⟨-q, List.mem_filter.mpr ⟨hq, ?_⟩, neg_neg q⟩)
    simp [lastSeen, hseen, hlevel]

theorem visitLit_last (h : Analysing s rest a) (htrail : s.TrailOk) (hsuffix : rest <:+ s.trail)
    (hq : -q ∈ rest) (hseen : a.solver.seen q.var = false)
    (hlevel : s.level q.var = s.decisionLevel) :
    Analysing s rest
        { a with solver := a.solver.setSeen q.var true, pathC := a.pathC + 1 } ∧
      openClause s rest a ⊆ openClause s rest
        { a with solver := a.solver.setSeen q.var true, pathC := a.pathC + 1 } := by
  have hnodup : (rest.map Lit.var).Nodup := htrail.nodup.sublist (hsuffix.sublist.map _)
  have hmarks := lastSeen_setSeen a.solver hlevel true
  refine ⟨⟨h.marked.setSeen _ _, h.learnt, h.nodup, fun x hx => ?_, fun x hx => ?_, ?_⟩,
    openClause_subset (List.Subset.refl _) fun x hx => ?_⟩
  · exact seen_setSeen_of_seen (h.seen_learnt x hx)
  · by_cases heq : x = q.var
    · exact Or.inr ⟨heq ▸ hlevel, List.mem_map.mpr ⟨-q, hq, heq.symm⟩⟩
    · exact h.seen x ((Function.update_of_ne heq ..).symm.trans hx)
  · simp only [hmarks]
    rw [h.count]
    refine (countP_mark hnodup hq ?_).symm
    simp [lastSeen, hseen]
  · rw [hmarks]
    by_cases heq : x = q.var
    · rw [heq, Function.update_self]
    · rwa [Function.update_of_ne heq]

theorem visitLit_earlier (h : Analysing s rest a) (hsuffix : rest <:+ s.trail)
    (hq : -q ∈ rest) (hseen : a.solver.seen q.var = false) (hpos : 0 < s.level q.var)
    (hlevel : s.level q.var < s.decisionLevel) :
    Analysing s rest
        { a with solver := a.solver.setSeen q.var true, learnt := a.learnt ++ [q] } ∧
      openClause s rest a ⊆ openClause s rest
        { a with solver := a.solver.setSeen q.var true, learnt := a.learnt ++ [q] } := by
  have hmarks := lastSeen_setSeen_of_lt a.solver hlevel true
  refine ⟨⟨h.marked.setSeen _ _, fun x hx => ?_, ?_, fun x hx => ?_, fun x hx => ?_, ?_⟩,
    openClause_subset (List.subset_append_left _ _) fun x hx => ?_⟩
  · rcases List.mem_append.mp hx with hx | hx
    · exact h.learnt x hx
    · obtain rfl := List.mem_singleton.mp hx
      exact ⟨hsuffix.subset hq, hpos, hlevel⟩
  · rw [List.map_append, List.nodup_append]
    refine ⟨h.nodup, List.nodup_singleton _, fun x hx y hy heq => ?_⟩
    obtain ⟨q', hq', rfl⟩ := List.mem_map.mp hx
    have hmark := h.seen_learnt q' hq'
    rw [heq, List.mem_singleton.mp hy, hseen] at hmark
    cases hmark
  · rcases List.mem_append.mp hx with hx | hx
    · exact seen_setSeen_of_seen (h.seen_learnt x hx)
    · obtain rfl := List.mem_singleton.mp hx
      exact Function.update_self ..
  · rw [List.map_append, List.mem_append]
    by_cases heq : x = q.var
    · exact Or.inl (Or.inr (List.mem_singleton.mpr heq))
    · exact (h.seen x ((Function.update_of_ne heq ..).symm.trans hx)).imp_left Or.inl
  · simp only [hmarks]
    exact h.count
  · rwa [hmarks]

theorem visitLit (h : Analysing s rest a) (htrail : s.TrailOk) (hsuffix : rest <:+ s.trail)
    (hq : -q ∈ rest) : Visited s rest a (visitLit a q) [q] := by
  have hsame : (0 < s.level q.var → a.solver.seen q.var = true) → Visited s rest a a [q] := by
    intro hmark
    refine ⟨h, List.Subset.refl _, Nat.le_refl _, fun x hx hpos => ?_⟩
    obtain rfl := List.mem_singleton.mp hx
    exact h.mem_of_seen htrail hsuffix hq (hmark hpos)
  unfold Solver.visitLit
  rw [h.marked.level, h.marked.decisionLevel]
  split
  next hseen => exact hsame fun _ => hseen
  next hseen =>
    rw [Bool.not_eq_true] at hseen
    have hmark : (a.solver.setSeen q.var true).seen q.var = true := Function.update_self ..
    split
    next hzero => exact hsame fun hpos => absurd hzero (Nat.ne_of_gt hpos)
    next hpos =>
      split
      next hle =>
        have hlevel := Nat.le_antisymm (htrail.level_le _ (hsuffix.subset hq)) hle
        obtain ⟨hnext, hsubset⟩ := h.visitLit_last htrail hsuffix hq hseen hlevel
        refine ⟨hnext, hsubset, Nat.le_succ _, fun x hx _ => ?_⟩
        obtain rfl := List.mem_singleton.mp hx
        exact hnext.mem_of_seen htrail hsuffix hq hmark
      next hlt =>
        obtain ⟨hnext, hsubset⟩ := h.visitLit_earlier hsuffix hq hseen (Nat.pos_of_ne_zero hpos)
          (Nat.lt_of_not_le hlt)
        refine ⟨hnext, hsubset, Nat.le_refl _, fun x hx _ => ?_⟩
        obtain rfl := List.mem_singleton.mp hx
        exact hnext.mem_of_seen htrail hsuffix hq hmark

theorem foldl_visitLit (h : Analysing s rest a) (htrail : s.TrailOk) (hsuffix : rest <:+ s.trail)
    {lits : List Lit} (hlits : ∀ q ∈ lits, -q ∈ rest) :
    Visited s rest a (lits.foldl Solver.visitLit a) lits := by
  induction lits generalizing a with
  | nil => exact ⟨h, List.Subset.refl _, Nat.le_refl _, List.forall_mem_nil _⟩
  | cons q lits ih =>
      obtain ⟨hq, hlits⟩ := List.forall_mem_cons.mp hlits
      have hfirst := h.visitLit htrail hsuffix hq
      have hrest := ih hfirst.analysing hlits
      refine ⟨hrest.analysing, List.Subset.trans hfirst.subset hrest.subset,
        Nat.le_trans hfirst.count hrest.count,
        ?_⟩
      rw [List.forall_mem_cons]
      exact ⟨fun hpos => hrest.subset (hfirst.mem q (List.mem_singleton_self q) hpos), hrest.mem⟩

/-- While literals are to be resolved, the trail has not been left at the last level. -/
theorem exists_lastSeen (h : Analysing s rest a) (hpos : 0 < a.pathC) :
    ∃ p ∈ rest, lastSeen s a.solver p.var = true := by
  rw [h.count, List.countP_pos_iff] at hpos
  exact hpos

theorem level_head (h : Analysing s (p :: rest) a) (htrail : s.TrailOk)
    (hsuffix : p :: rest <:+ s.trail) (hpos : 0 < a.pathC) : s.level p.var = s.decisionLevel := by
  obtain ⟨q, hq, hseen⟩ := h.exists_lastSeen hpos
  simp only [lastSeen, Bool.and_eq_true, beq_iff_eq] at hseen
  refine Nat.le_antisymm (htrail.level_le p (hsuffix.subset List.mem_cons_self)) ?_
  rw [← hseen.2]
  rcases List.mem_cons.mp hq with rfl | hq
  · exact Nat.le_refl _
  · exact htrail.descending.level_le_of_suffix hsuffix q hq

/-- A literal without a mark is passed over. -/
theorem skip (h : Analysing s (p :: rest) a) (hseen : ¬ a.solver.seen p.var = true) :
    Analysing s rest a ∧ openClause s (p :: rest) a = openClause s rest a := by
  have hlast : ¬ lastSeen s a.solver p.var = true := by simp [lastSeen, hseen]
  refine ⟨⟨h.marked, h.learnt, h.nodup, h.seen_learnt, fun x hx => ?_, ?_⟩, ?_⟩
  · refine (h.seen x hx).imp_right fun hmem => ⟨hmem.1, ?_⟩
    rcases List.mem_cons.mp hmem.2 with rfl | hmem
    · exact absurd hx hseen
    · exact hmem
  · rw [h.count, List.countP_cons, if_neg hlast, Nat.add_zero]
  · rw [openClause, List.filter_cons, if_neg hlast, openClause]

/-- A marked literal is taken off. -/
theorem pop (h : Analysing s (p :: rest) a) (htrail : s.TrailOk)
    (hsuffix : p :: rest <:+ s.trail) (hseen : a.solver.seen p.var = true)
    (hlevel : s.level p.var = s.decisionLevel) :
    Analysing s rest
        { a with solver := a.solver.setSeen p.var false, pathC := a.pathC - 1 } ∧
      openClause s (p :: rest) a ⊆ -p :: openClause s rest
        { a with solver := a.solver.setSeen p.var false, pathC := a.pathC - 1 } := by
  have hnodup : ((p :: rest).map Lit.var).Nodup := htrail.nodup.sublist (hsuffix.sublist.map _)
  rw [List.map_cons, List.nodup_cons] at hnodup
  have hmarks := lastSeen_setSeen a.solver hlevel false
  have hlast : lastSeen s a.solver p.var = true := by simp [lastSeen, hseen, hlevel]
  refine ⟨⟨h.marked.setSeen _ _, h.learnt, h.nodup, fun q hq => ?_, fun x hx => ?_, ?_⟩,
    fun q hq => ?_⟩
  · refine (Function.update_of_ne ?_ ..).trans (h.seen_learnt q hq)
    intro heq
    have hlt := (h.learnt q hq).2.2
    rw [heq, hlevel] at hlt
    exact absurd hlt (Nat.lt_irrefl _)
  · have hne : x ≠ p.var := by
      rintro rfl
      simp [setSeen] at hx
    refine (h.seen x ((Function.update_of_ne hne ..).symm.trans hx)).imp_right fun hmem => ?_
    exact ⟨hmem.1, (List.mem_cons.mp hmem.2).resolve_left hne⟩
  · simp only [hmarks]
    rw [h.count, List.countP_cons, if_pos hlast, countP_update_of_not_mem hnodup.1]
    rfl
  · rw [List.mem_cons]
    rcases List.mem_append.mp hq with hq | hq
    · exact Or.inr (List.mem_append_left _ hq)
    · obtain ⟨r, hr, rfl⟩ := List.mem_map.mp hq
      obtain ⟨hr, hmark⟩ := List.mem_filter.mp hr
      rcases List.mem_cons.mp hr with rfl | hr
      · exact Or.inl rfl
      · refine Or.inr (List.mem_append_right _ (List.mem_map_of_mem (List.mem_filter.mpr ⟨hr, ?_⟩)))
        have hne : r.var ≠ p.var := fun heq => hnodup.1 (heq ▸ List.mem_map_of_mem hr)
        simp only [hmarks]
        rwa [Function.update_of_ne hne]

/-- The reason of a literal may be looked at. -/
theorem trueFirst (h : Analysing s rest a) (cr : CRef) :
    Analysing s rest { a with solver := a.solver.trueFirst cr } ∧
      openClause s rest { a with solver := a.solver.trueFirst cr } = openClause s rest a := by
  have hmarks : lastSeen s (a.solver.trueFirst cr) = lastSeen s a.solver := by
    funext x
    simp [lastSeen]
  refine ⟨⟨h.marked.trueFirst cr, h.learnt, h.nodup, ?_, ?_, ?_⟩, ?_⟩
  · simpa using h.seen_learnt
  · simpa using h.seen
  · simpa only [hmarks] using h.count
  · simp only [openClause, hmarks]

end Analysing

/-! ## The first unique implication point -/

/-- The clause with the opposite of one literal of the last level, and literals of
earlier levels that are false. -/
structure Asserting (F : List (List Lit)) (s : Solver) (p : Lit) (kept : List Lit) : Prop where
  mem : p ∈ s.trail
  level : s.level p.var = s.decisionLevel
  earlier : ∀ q ∈ kept, -q ∈ s.trail ∧ 0 < s.level q.var ∧ s.level q.var < s.decisionLevel
  nodup : (kept.map Lit.var).Nodup
  entails : Entails F (-p :: kept)

/-- What the analysis ends with. -/
structure Analysed (F : List (List Lit)) (s : Solver) (p : Lit) (a : Analysis) : Prop where
  marked : Marked s a.solver
  asserting : Asserting F s p a.learnt
  seen_iff : ∀ x, a.solver.seen x = true ↔ x ∈ a.learnt.map Lit.var

/-- The resolution with the reason of a literal of the last level. -/
theorem Analysing.resolve {a : Analysis} (h : Analysing s rest a) (hinv : Inv F done s)
    (hsuffix : p :: rest <:+ s.trail) (hlevel : 0 < s.level p.var)
    (hr : s.reason p.var = some cr) (hentails : Entails F (-p :: openClause s rest a)) :
    ∃ a', a' = (((a.solver.trueFirst cr).ca cr).drop 1).foldl Solver.visitLit
        { a with solver := a.solver.trueFirst cr } ∧
      Analysing s rest a' ∧ a.pathC ≤ a'.pathC ∧ Entails F (openClause s rest a') := by
  obtain ⟨others, hclause, hmem, hreason⟩ := h.marked.exists_others hinv hsuffix hlevel hr
  have hrest : rest <:+ s.trail := (List.suffix_cons p rest).trans hsuffix
  obtain ⟨hfirst, hopen⟩ := h.trueFirst cr
  have hvisited := hfirst.foldl_visitLit hinv.trail hrest hmem
  rw [hclause, List.drop_one, List.tail_cons]
  refine ⟨_, rfl, hvisited.analysing, hvisited.count, ?_⟩
  refine (hreason.resolve hentails).drop fun q hq => ?_
  rcases List.mem_append.mp hq with hq | hq
  · rcases Nat.eq_zero_or_pos (s.level q.var) with hzero | hpos
    · exact Or.inr (hinv.represents.unit _ (hrest.subset (hmem q hq)) hzero)
    · exact Or.inl (hvisited.mem q hq hpos)
  · exact Or.inl (hvisited.subset (hopen.symm ▸ hq))

/-- When no literal of the last level is left, the clause is the one found. -/
theorem Analysing.analysed {a : Analysis} (h : Analysing s rest a) (hp : p ∈ s.trail)
    (hlevel : s.level p.var = s.decisionLevel) (hlast : ¬ 0 < a.pathC)
    (hentails : Entails F (-p :: openClause s rest a)) : Analysed F s p a := by
  rw [h.count, List.countP_pos_iff, not_exists] at hlast
  have hnone : rest.filter (fun p => lastSeen s a.solver p.var) = [] := by
    rw [List.filter_eq_nil_iff]
    exact fun q hq hseen => hlast q ⟨hq, hseen⟩
  rw [openClause, hnone, List.map_nil, List.append_nil] at hentails
  refine ⟨h.marked, ⟨hp, hlevel, h.learnt, h.nodup, hentails⟩, fun x => ⟨fun hx => ?_, ?_⟩⟩
  · refine (h.seen x hx).resolve_right fun hmem => ?_
    obtain ⟨q, hq, rfl⟩ := List.mem_map.mp hmem.2
    refine hlast q ⟨hq, ?_⟩
    simp [lastSeen, hx, hmem.1]
  · intro hx
    obtain ⟨q, hq, rfl⟩ := List.mem_map.mp hx
    exact h.seen_learnt q hq

theorem analyzeLoop_spec {a : Analysis} (h : Analysing s rest a) (hinv : Inv F done s)
    (hdecided : 0 < s.decisionLevel) (hsuffix : rest <:+ s.trail) (hpos : 0 < a.pathC)
    (hentails : Entails F (openClause s rest a)) :
    ∃ p a', analyzeLoop rest a = some (p, a') ∧ Analysed F s p a' := by
  induction rest generalizing a with
  | nil =>
      obtain ⟨p, hp, -⟩ := h.exists_lastSeen hpos
      exact absurd hp List.not_mem_nil
  | cons p rest ih =>
      have hrest : rest <:+ s.trail := (List.suffix_cons p rest).trans hsuffix
      have hlevel := h.level_head hinv.trail hsuffix hpos
      unfold analyzeLoop
      split
      next hseen =>
        obtain ⟨hpop, hsubset⟩ := h.pop hinv.trail hsuffix hseen hlevel
        have hentails' := hentails.mono hsubset
        simp only
        split
        next hmore =>
          obtain ⟨q, hq, hmark⟩ := hpop.exists_lastSeen hmore
          have hpos' : 0 < s.level p.var := hlevel ▸ hdecided
          rw [hpop.marked.reason]
          cases hr : s.reason p.var with
          | none =>
              -- a decision is the first literal of its level
              have hfirst := hinv.reasons p rest hsuffix hpos'
              rw [hr] at hfirst
              have hlt := hfirst q hq
              simp only [lastSeen, Bool.and_eq_true, beq_iff_eq] at hmark
              omega
          | some cr =>
              obtain ⟨a', ha', hnext, hcount, hnext'⟩ :=
                hpop.resolve hinv hsuffix hpos' hr hentails'
              simp only
              rw [← ha']
              exact ih hnext hrest (Nat.lt_of_lt_of_le hmore hcount) hnext'
        next hlast =>
          exact ⟨p, _, rfl,
            hpop.analysed (hsuffix.subset List.mem_cons_self) hlevel hlast hentails'⟩
      next hseen =>
        obtain ⟨hskip, hopen⟩ := h.skip hseen
        exact ih hskip hrest hpos (hopen ▸ hentails)

/-! ## The start of the analysis -/

theorem Analysing.start (hseen : ∀ x, s.seen x = false) : Analysing s s.trail ⟨s, 0, []⟩ := by
  refine ⟨.refl s, List.forall_mem_nil _, List.nodup_nil, List.forall_mem_nil _, fun x hx => ?_, ?_⟩
  · rw [hseen x] at hx
    cases hx
  · symm
    rw [List.countP_eq_zero]
    simp [lastSeen, hseen]

/-- A false clause has a literal of the last level, since the clauses were settled at
the earlier ones. -/
theorem Conflict.exists_last (h : Conflict F s cr) :
    ∃ q ∈ s.ca cr, s.level q.var = s.decisionLevel := by
  obtain ⟨hlive, hfalse⟩ := h.falsified
  have hlen := h.inv.clauses.length cr hlive
  match hclause : s.ca cr with
  | [] =>
      rw [hclause] at hlen
      cases hlen
  | x :: rest =>
      rw [hclause] at hfalse
      have hx := hfalse x List.mem_cons_self
      have hmem : -x ∈ s.trail := h.inv.trail.neg_mem_iff.mpr hx
      refine ⟨x, List.mem_cons_self, Nat.le_antisymm (h.inv.trail.level_le (-x) hmem) ?_⟩
      by_contra hlevel
      have htake : x ∈ (s.ca cr).take 2 := by simp [hclause]
      obtain ⟨t, ht, htrue, -⟩ := h.inv.settled cr hlive x htake ⟨hmem, Nat.lt_of_not_le hlevel⟩
      rw [hclause] at ht
      rw [hfalse t ht] at htrue
      cases htrue

theorem Conflict.exists_analysed (h : Conflict F s cr) (hdecided : 0 < s.decisionLevel) :
    ∃ p a, analyzeLoop s.trail ((s.ca cr).foldl visitLit ⟨s, 0, []⟩) = some (p, a) ∧
      Analysed F s p a := by
  obtain ⟨hlive, hfalse⟩ := h.falsified
  have hmem : ∀ q ∈ s.ca cr, -q ∈ s.trail := fun q hq => h.inv.trail.neg_mem_iff.mpr (hfalse q hq)
  have hvisited := (Analysing.start h.inv.seen).foldl_visitLit h.inv.trail (List.suffix_refl _) hmem
  have hentails := (h.inv.represents.clause cr hlive).drop fun q hq => by
    rcases Nat.eq_zero_or_pos (s.level q.var) with hzero | hpos
    · exact Or.inr (h.inv.represents.unit _ (hmem q hq) hzero)
    · exact Or.inl (hvisited.mem q hq hpos)
  obtain ⟨q, hq, hlevel⟩ := h.exists_last
  have hpos : 0 < ((s.ca cr).foldl visitLit ⟨s, 0, []⟩).pathC := by
    rw [hvisited.analysing.count, List.countP_pos_iff]
    rcases List.mem_append.mp (hvisited.mem q hq (hlevel ▸ hdecided)) with hq | hq
    · have hlt := (hvisited.analysing.learnt q hq).2.2
      omega
    · obtain ⟨r, hr, -⟩ := List.mem_map.mp hq
      exact ⟨r, List.mem_filter.mp hr⟩
  exact analyzeLoop_spec hvisited.analysing h.inv hdecided (List.suffix_refl _) hpos hentails

end Solver

end Glucose

end Sato
