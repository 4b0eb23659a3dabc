import Sato.Glucose.Solve

/-! # Runs of the solver

The results hold for every order of the calls, and in every state that the loop of a
search comes to, whatever the heuristics choose. -/

open Foundation

namespace Sato

namespace Glucose

namespace Solver

/-- The states between the calls, with the clauses given so far. -/
inductive Reachable : List (List Lit) → Solver → Prop where
  | empty : Reachable [] empty
  | newVar {F s} (h : Reachable F s) : Reachable F s.newVar
  | addClause {F s s' ps} (h : Reachable F s) (hps : ∀ q ∈ ps, q.var < s.nVars)
      (hadd : s.addClause ps = some s') : Reachable (F ++ [ps]) s'
  | simplify {F s result} (h : Reachable F s) (look removeClauses : Bool)
      (hsimplify : s.simplify look removeClauses = some result) : Reachable F result.2
  | solve {F s verdict} (h : Reachable F s) (choices : ℕ → ℕ → Choices) (restarts fuel : ℕ)
      (hsolve : s.solve choices restarts fuel = some verdict) : Reachable F verdict.solver

/-- The states at the head of the loop of `search`. -/
inductive Running (F : List (List Lit)) : Solver → Prop where
  | start {s} (h : Reachable F s) (hok : s.ok = true) : Running F s
  | next {s s'} (h : Running F s) (choices : Choices)
      (hpass : searchPass choices s = some (.next s')) : Running F s'
  | restart {s s'} (h : Running F s) (choices : Choices)
      (hpass : searchPass choices s = some (.done none s')) : Running F s'

variable {F : List (List Lit)} {s s' t : Solver} {p q : Lit} {fuel : ℕ}

/-- Neither restarts nor removals. The first variable of the heap is made false. -/
def calm : Choices where
  restart := false
  simplify := false
  reduce := none
  least _ := 0
  polarity _ := true

theorem stateOk_empty : StateOk [] empty := by
  have hmark : ∀ cr, ¬ empty.Live cr := fun cr hlive => Nat.not_lt_zero cr hlive.1
  refine ⟨fun _ => ⟨⟨?_, rfl⟩, rfl⟩, fun _ x hx => absurd hx (Nat.not_lt_zero x),
    fun _ => List.forall_mem_nil _, nofun⟩
  refine
    { trail := ⟨List.nodup_nil, fun p => ?_, List.Pairwise.nil, List.forall_mem_nil _,
        fun l hl => absurd hl (Nat.not_lt_zero l), List.forall_mem_nil _, Nat.le_refl 0⟩
      decided := fun l hl => absurd hl (Nat.not_lt_zero l)
      clauses := ⟨fun cr h => absurd h (hmark cr), fun cr h => absurd h (hmark cr),
        fun cr h => absurd h (hmark cr), List.forall_mem_nil _, List.forall_mem_nil _,
        List.nodup_nil, fun _ _ => rfl⟩
      reasons := fun p rest hsuffix _ => ?_
      watches := ⟨fun q cr _ => ?_, fun q => List.forall_mem_nil _, fun q => List.nodup_nil,
        fun q => List.forall_mem_nil _, fun cr h => absurd h (hmark cr)⟩
      settled := fun cr h => absurd h (hmark cr)
      done_mem := fun _ _ hp => hp
      earlier := List.forall_mem_nil _
      represents := ⟨fun cr h => absurd h (hmark cr), List.forall_mem_nil _,
        fun v _ _ _ => cnfTrue_nil v⟩
      order_mem := fun x hx => absurd hx.1 (Nat.not_lt_zero x)
      order_lt := List.forall_mem_nil _
      seen := fun _ => rfl }
  · exact iff_of_false List.not_mem_nil nofun
  · exact absurd (hsuffix.subset List.mem_cons_self) List.not_mem_nil
  · exact iff_of_false List.not_mem_nil fun h => hmark cr h.1

/-- Every call keeps what holds between the calls. -/
theorem Reachable.stateOk (h : Reachable F s) : StateOk F s := by
  induction h with
  | empty => exact stateOk_empty
  | newVar h ih => exact ih.newVar
  | addClause h hps hadd ih =>
      obtain ⟨t, ht, hok, -⟩ := ih.exists_addClause hps
      rw [hadd] at ht
      cases ht
      exact hok
  | simplify h look removeClauses hsimplify ih =>
      obtain ⟨result, hresult, hok⟩ := ih.exists_simplify _ _
      rw [hsimplify] at hresult
      cases hresult
      exact hok
  | solve h choices restarts fuel hsolve ih => exact (ih.solve hsolve).state

/-- Every pass of the loop keeps what holds at its head. -/
theorem Running.ready (h : Running F s) : Ready F s ∧ s.ok = true := by
  induction h with
  | start h hok => exact ⟨(h.stateOk.stable hok).1.ready, hok⟩
  | next h choices hpass ih =>
      obtain ⟨pass, hpass', hok⟩ := ih.1.exists_searchPass ih.2 _
      rw [hpass] at hpass'
      cases hpass'
      exact ⟨hok.1, hok.2.1.ok.trans ih.2⟩
  | restart h choices hpass ih =>
      obtain ⟨pass, hpass', hok⟩ := ih.1.exists_searchPass ih.2 _
      rw [hpass] at hpass'
      cases hpass'
      exact ⟨hok.1.ready, hok.2.2.ok.trans ih.2⟩

theorem Running.variables (h : Running F s) : (∀ x < s.nVars, s.decision x = true) ∧
    ∀ clause ∈ F, ∀ q ∈ clause, q.var < s.nVars := by
  have hframe : ∀ {s t : Solver}, Frame s t → ((∀ x < s.nVars, s.decision x = true) ∧
      ∀ clause ∈ F, ∀ q ∈ clause, q.var < s.nVars) → (∀ x < t.nVars, t.decision x = true) ∧
      ∀ clause ∈ F, ∀ q ∈ clause, q.var < t.nVars := by
    intro s t hframe hvariables
    rw [hframe.nVars, hframe.decision]
    exact hvariables
  induction h with
  | start h hok => exact ⟨h.stateOk.decision hok, h.stateOk.bounded hok⟩
  | next h choices hpass ih =>
      obtain ⟨pass, hpass', hok⟩ := h.ready.1.exists_searchPass h.ready.2 _
      rw [hpass] at hpass'
      cases hpass'
      exact hframe hok.2.1 ih
  | restart h choices hpass ih =>
      obtain ⟨pass, hpass', hok⟩ := h.ready.1.exists_searchPass h.ready.2 _
      rw [hpass] at hpass'
      cases hpass'
      exact hframe hok.2.2 ih

/-! ## Propagation -/

/-- The literals that are new on the trail follow from those that were there. -/
theorem Extends.implied {done done' : Lit → CRef → Prop} (h : s.Extends t) (hs : Inv F done s)
    (ht : Inv F done' t) {v : Lit → Prop} (hv : IsValuation v) (htrue : CnfTrue v F)
    (htrail : ∀ p ∈ s.trail, v p) : ∀ p ∈ t.trail, v p := by
  have hreason : ∀ p rest, p :: rest <:+ t.trail → True → p ∉ s.trail → ∃ clause,
      Entails F clause ∧ ∀ q ∈ clause, q ≠ p → -q ∈ rest ∧ True ∨ Entails F [-q] := by
    intro p rest hsuffix _ hnew
    rcases Nat.eq_zero_or_pos (t.level p.var) with hzero | hpos
    · refine ⟨[p], ht.represents.unit p (hsuffix.subset List.mem_cons_self) hzero, ?_⟩
      exact fun q hq hne => absurd (List.mem_singleton.mp hq) hne
    · have hfor := ht.reasons p rest hsuffix hpos
      cases hr : t.reason p.var with
      | some cr =>
          rw [hr] at hfor
          refine ⟨t.ca cr, ht.represents.clause cr hfor.1, fun q hq hne => ?_⟩
          exact Or.inl ⟨hfor.2.others q hq hne, trivial⟩
      | none =>
          rw [hr] at hfor
          have hle := ht.trail.level_le p (hsuffix.subset List.mem_cons_self)
          have hlevel : t.decisionLevel - 1 < s.decisionLevel := by
            rw [← h.decisionLevel]
            omega
          obtain ⟨d, hd, hlast⟩ := hs.decided _ hlevel
          -- the decision of the last level is an earlier literal
          have hrest : s.trail <:+ rest := by
            rcases List.suffix_or_suffix_of_suffix h.trail hsuffix with hshort | hlong
            · rcases List.suffix_cons_iff.mp hshort with heq | hrest
              · exact absurd (heq ▸ List.mem_cons_self) hnew
              · exact hrest
            · exact absurd (hlong.subset List.mem_cons_self) hnew
          have hlt := hfor d (hrest.subset hd)
          rw [h.level d hd, hlast] at hlt
          omega
  have hall := forall_marked_of_reasons hreason hv htrue fun p _ hp => htrail p hp
  exact fun p hp => hall p hp trivial

/-- From the head of the loop of a search `propagate` ends. It takes literals that follow from those
on the trail, until a clause is false or each one has a true literal or two that are
open and watched. -/
theorem Running.propagate_exact (h : Running F s) :
    ∃ t confl, s.propagate = some (t, confl) ∧
      (confl = none → ∀ cr, t.Live cr → (∃ q ∈ t.ca cr, t.value q = some true) ∨
        ∃ a b rest, t.ca cr = a :: b :: rest ∧ t.value a = none ∧ t.value b = none) ∧
      (∀ cr, confl = some cr → t.Live cr ∧ ∀ q ∈ t.ca cr, t.value q = some false) ∧
      s.trail <:+ t.trail ∧
      ∀ v, IsValuation v → CnfTrue v F → (∀ p ∈ s.trail, v p) → ∀ p ∈ t.trail, v p := by
  obtain ⟨⟨t, confl⟩, hpropagate, hpropagated⟩ := h.ready.1.exists_propagate
  refine ⟨t, confl, hpropagate, fun hnone cr hlive => ?_, fun cr hsome => ?_,
    hpropagated.grown.trail, fun v hv htrue htrail => ?_⟩
  · exact (hpropagated.stable hnone).satisfied_or_open hlive
  · exact (hpropagated.conflict cr hsome).falsified
  · cases confl with
    | none => exact hpropagated.grown.implied h.ready.1 (hpropagated.stable rfl).inv hv htrue htrail
    | some cr =>
        exact hpropagated.grown.implied h.ready.1 (hpropagated.conflict cr rfl).inv hv htrue htrail

/-- The state after the first decision `~x1` with the clauses `x1 x2` and `x1 ~x2`. -/
theorem Running.propagate_exact_conflict :
    ∃ s, Running [[⟨0, false⟩, ⟨1, false⟩], [⟨0, false⟩, ⟨1, true⟩]] s ∧
      s.trail = [⟨0, true⟩] ∧ ∃ t confl, s.propagate = some (t, confl) ∧
        (confl = none → ∀ cr, t.Live cr → (∃ q ∈ t.ca cr, t.value q = some true) ∨
          ∃ a b rest, t.ca cr = a :: b :: rest ∧ t.value a = none ∧ t.value b = none) ∧
        (∀ cr, confl = some cr → t.Live cr ∧ ∀ q ∈ t.ca cr, t.value q = some false) ∧
        s.trail <:+ t.trail ∧ ∀ v, IsValuation v →
          CnfTrue v [[⟨0, false⟩, ⟨1, false⟩], [⟨0, false⟩, ⟨1, true⟩]] →
            (∀ p ∈ s.trail, v p) → ∀ p ∈ t.trail, v p :=
  have hrun : ∃ s, Running [[⟨0, false⟩, ⟨1, false⟩], [⟨0, false⟩, ⟨1, true⟩]] s ∧
      s.trail = [⟨0, true⟩] :=
    ⟨_, .next (.start (.addClause (.addClause (.newVar (.newVar .empty))
      (by decide) rfl) (by decide) rfl) rfl) calm rfl, rfl⟩
  hrun.imp fun _ h => ⟨h.1, h.2, h.1.propagate_exact⟩

/-! ## Analysis -/

/-- The clause learnt from a conflict of a run follows from the clauses given. At the
level to go back to its first literal has no value, and the others are false. -/
theorem Running.analyze_asserting {confl : CRef} (h : Running F s)
    (hpropagate : s.propagate = some (t, some confl)) (hdecided : 0 < t.decisionLevel) :
    ∃ u p rest btlevel, t.analyze confl = some (u, p :: rest, btlevel) ∧
      Entails F (p :: rest) ∧ ((p :: rest).map Lit.var).Nodup ∧
      (∀ q ∈ p :: rest, t.value q = some false) ∧
      t.level p.var = t.decisionLevel ∧ btlevel < t.decisionLevel ∧
      (∀ q ∈ rest, 0 < t.level q.var ∧ t.level q.var ≤ btlevel) ∧
      (rest = [] → btlevel = 0) ∧ ∀ q later, rest = q :: later → t.level q.var = btlevel := by
  obtain ⟨result, hresult, hpropagated⟩ := h.ready.1.exists_propagate
  rw [hpropagate] at hresult
  cases hresult
  have hconflict := hpropagated.conflict confl rfl
  obtain ⟨u, p, rest, btlevel, hanalyze, hlearned⟩ := hconflict.exists_analyze hdecided
  have hasserting := hlearned.asserting
  have htrail := hconflict.inv.trail
  refine ⟨u, -p, rest, btlevel, hanalyze, hasserting.entails, ?_, ?_, hasserting.level,
    hlearned.lt, fun q hq => ⟨(hasserting.earlier q hq).2.1, hlearned.greatest q hq⟩,
    hlearned.unit, fun q later heq => (hlearned.second q later heq).symm⟩
  · refine List.nodup_cons.mpr ⟨fun hmem => ?_, hasserting.nodup⟩
    obtain ⟨q, hq, hvar⟩ := List.mem_map.mp hmem
    have hlt := (hasserting.earlier q hq).2.2
    rw [hvar, Lit.var_neg, hasserting.level] at hlt
    exact absurd hlt (Nat.lt_irrefl _)
  · rw [List.forall_mem_cons, value_neg_eq_false]
    exact ⟨htrail.value_eq_true hasserting.mem, fun q hq =>
      htrail.neg_mem_iff.mp (hasserting.earlier q hq).1⟩

/-- The clause `x1` is learnt from `x1 x2` and `x1 ~x2`. -/
theorem Running.analyze_asserting_unit :
    ∃ (s t : Solver) (confl : CRef), s.propagate = some (t, some confl) ∧ 0 < t.decisionLevel ∧
      ∃ u p rest btlevel, t.analyze confl = some (u, p :: rest, btlevel) ∧
        Entails [[⟨0, false⟩, ⟨1, false⟩], [⟨0, false⟩, ⟨1, true⟩]] (p :: rest) ∧
        ((p :: rest).map Lit.var).Nodup ∧ (∀ q ∈ p :: rest, t.value q = some false) ∧
        t.level p.var = t.decisionLevel ∧ btlevel < t.decisionLevel ∧
        (∀ q ∈ rest, 0 < t.level q.var ∧ t.level q.var ≤ btlevel) ∧
        (rest = [] → btlevel = 0) ∧ ∀ q later, rest = q :: later → t.level q.var = btlevel :=
  have hrun : ∃ s t confl, Running [[⟨0, false⟩, ⟨1, false⟩], [⟨0, false⟩, ⟨1, true⟩]] s ∧
      s.propagate = some (t, some confl) ∧ 0 < t.decisionLevel :=
    ⟨_, _, _, .next (.start (.addClause (.addClause (.newVar (.newVar .empty))
      (by decide) rfl) (by decide) rfl) rfl) calm rfl, rfl, by decide⟩
  have ⟨s, t, confl, h, hpropagate, hdecided⟩ := hrun
  ⟨s, t, confl, hpropagate, hdecided, h.analyze_asserting hpropagate hdecided⟩

/-! ## The database of clauses -/

/-- At the head of the loop of a search the clauses of the problem that are left, with the
literals of level `0`, mean what the clauses given do, and the other clauses follow from
these. -/
theorem Running.clauses_equivalent (h : Running F s) :
    (∀ v, IsValuation v → (CnfTrue v F ↔ (∀ cr ∈ s.clauses, ∃ q ∈ s.ca cr, v q) ∧
      ∀ p ∈ s.trail, s.level p.var = 0 → v p)) ∧
    ∀ cr, s.Live cr → Entails F (s.ca cr) := by
  have hinv := h.ready.1
  refine ⟨fun v hv => ⟨fun htrue => ⟨fun cr hcr => ?_, fun p hp hzero => ?_⟩, fun hboth => ?_⟩,
    hinv.represents.clause⟩
  · exact hinv.represents.clause cr (hinv.clauses.live cr hcr) v hv htrue
  · exact Entails.singleton_iff.mp (hinv.represents.unit p hp hzero) v hv htrue
  · exact hinv.represents.satisfies v hv hboth.1 hboth.2

/-- The state after the first decision, where nothing is left out. -/
theorem Running.clauses_equivalent_decided :
    ∃ s : Solver, s.clauses = [0, 1] ∧
      (∀ v, IsValuation v → (CnfTrue v [[⟨0, false⟩, ⟨1, false⟩], [⟨0, false⟩, ⟨1, true⟩]] ↔
        (∀ cr ∈ s.clauses, ∃ q ∈ s.ca cr, v q) ∧
          ∀ p ∈ s.trail, s.level p.var = 0 → v p)) ∧
      ∀ cr, s.Live cr → Entails [[⟨0, false⟩, ⟨1, false⟩], [⟨0, false⟩, ⟨1, true⟩]] (s.ca cr) :=
  have hrun : ∃ s, Running [[⟨0, false⟩, ⟨1, false⟩], [⟨0, false⟩, ⟨1, true⟩]] s ∧
      s.clauses = [0, 1] :=
    ⟨_, .next (.start (.addClause (.addClause (.newVar (.newVar .empty))
      (by decide) rfl) (by decide) rfl) rfl) calm rfl, rfl⟩
  hrun.imp fun _ h => ⟨h.2, h.1.clauses_equivalent⟩

/-- At the head of the loop of a search a clause has at least two literals, of different
variables. A long one has a watcher for each of its first two literals and no others, and a
binary one has watchers for both. -/
theorem Running.watch_lists (h : Running F s) {cr : CRef} (hlive : s.Live cr) :
    2 ≤ (s.ca cr).length ∧ ((s.ca cr).map Lit.var).Nodup ∧
      (2 < (s.ca cr).length → ∀ q, (((s.watches q).map Watcher.cref).count cr) =
        if -q ∈ (s.ca cr).take 2 then 1 else 0) ∧
      (∀ q, ∀ w ∈ s.watches q, w.cref = cr → w.blocker ∈ s.ca cr) ∧
      ((s.ca cr).length = 2 → ∀ q ∈ s.ca cr, cr ∈ (s.watchesBin (-q)).map Watcher.cref) ∧
      ∀ q, ∀ w ∈ s.watchesBin q, w.cref = cr → (s.ca cr).Perm [-q, w.blocker] := by
  have hinv := h.ready.1
  refine ⟨hinv.clauses.length cr hlive, hinv.clauses.nodup cr hlive, fun hlong q => ?_,
    fun q w hw heq => ?_, fun hlen => hinv.watches.binary_mem cr hlive hlen,
    fun q w hw heq => ?_⟩
  · have hiff := hinv.watches.mem_iff q cr hlive.2
    have hcount : (((s.watches q).map Watcher.cref).filter fun c => !s.mark c).count cr =
        ((s.watches q).map Watcher.cref).count cr := List.count_filter (by simp [hlive.2])
    split
    next hmem =>
      rw [← hcount]
      refine List.count_eq_one_of_mem (hinv.watches.nodup q) ?_
      exact List.mem_filter.mpr ⟨hiff.mpr ⟨hlive, hlong, hmem⟩, by simp [hlive.2]⟩
    next hmem => exact List.count_eq_zero.mpr fun hcr => hmem (hiff.mp hcr).2.2
  · rw [← heq]
    exact hinv.watches.blocker q w hw (heq ▸ hlive.2)
  · rw [← heq]
    exact (hinv.watches.binary q w hw (heq ▸ hlive.2)).2

/-- The watchers of a clause of three literals. -/
theorem Running.watch_lists_three :
    ∃ (s : Solver) (cr : CRef), s.ca cr = [⟨0, false⟩, ⟨1, false⟩, ⟨2, false⟩] ∧
      2 ≤ (s.ca cr).length ∧ ((s.ca cr).map Lit.var).Nodup ∧
      (2 < (s.ca cr).length → ∀ q, (((s.watches q).map Watcher.cref).count cr) =
        if -q ∈ (s.ca cr).take 2 then 1 else 0) ∧
      (∀ q, ∀ w ∈ s.watches q, w.cref = cr → w.blocker ∈ s.ca cr) ∧
      ((s.ca cr).length = 2 → ∀ q ∈ s.ca cr, cr ∈ (s.watchesBin (-q)).map Watcher.cref) ∧
      ∀ q, ∀ w ∈ s.watchesBin q, w.cref = cr → (s.ca cr).Perm [-q, w.blocker] :=
  have hrun : ∃ s, Running [[⟨2, false⟩, ⟨1, false⟩, ⟨0, false⟩, ⟨1, false⟩]] s ∧ s.Live 0 ∧
      s.ca 0 = [⟨0, false⟩, ⟨1, false⟩, ⟨2, false⟩] :=
    ⟨_, .next (.start (.addClause (.newVar (.newVar (.newVar .empty))) (by decide) rfl) rfl) calm
      rfl, ⟨by decide, rfl⟩, rfl⟩
  have ⟨s, h, hlive, hclause⟩ := hrun
  ⟨s, 0, hclause, h.watch_lists hlive⟩

/-- At the head of the loop of a search the reason of a literal above level `0` is a clause
that makes it true once the earlier literals of the trail are. A literal above level `0`
without a reason is the first one of its level. -/
theorem Running.reasons (h : Running F s) {rest : List Lit} (hsuffix : p :: rest <:+ s.trail)
    (hlevel : 0 < s.level p.var) :
    match s.reason p.var with
    | none => ∀ q ∈ rest, s.level q.var < s.level p.var
    | some cr => s.Live cr ∧ p ∈ s.ca cr ∧ ∀ q ∈ s.ca cr, q ≠ p → -q ∈ rest := by
  have hfor := h.ready.1.reasons p rest hsuffix hlevel
  cases hr : s.reason p.var with
  | none =>
      rw [hr] at hfor
      exact hfor
  | some cr =>
      rw [hr] at hfor
      exact ⟨hfor.1, hfor.2.mem, hfor.2.others⟩

/-- `x2` is true because of `x1 x2` and the decision `~x1`, and `~x3` is decided next. -/
theorem Running.reasons_propagated :
    ∃ s : Solver, s.trail = [⟨2, true⟩, ⟨1, false⟩, ⟨0, true⟩] ∧ s.reason 1 = some 0 ∧
      match s.reason 1 with
      | none => ∀ q ∈ [(⟨0, true⟩ : Lit)], s.level q.var < s.level 1
      | some cr => s.Live cr ∧ ⟨1, false⟩ ∈ s.ca cr ∧
          ∀ q ∈ s.ca cr, q ≠ ⟨1, false⟩ → -q ∈ [(⟨0, true⟩ : Lit)] :=
  have hrun : ∃ s, Running [[⟨0, false⟩, ⟨1, false⟩]] s ∧
      s.trail = [⟨2, true⟩, ⟨1, false⟩, ⟨0, true⟩] ∧ s.reason 1 = some 0 ∧ 0 < s.level 1 :=
    ⟨_, .next (.next (.start (.addClause (.newVar (.newVar (.newVar .empty))) (by decide) rfl) rfl)
      calm rfl) calm rfl, rfl, rfl, by decide⟩
  have ⟨s, h, htrail, hreason, hlevel⟩ := hrun
  ⟨s, htrail, hreason, h.reasons (p := ⟨1, false⟩) (htrail ▸ List.suffix_cons _ _) hlevel⟩

/-! ## The end of a search -/

/-- From the head of its loop a search ends, whatever is chosen in its passes. It has
found values that satisfy the clauses given, or that there are none, or it restarts because
its last pass asks for it. -/
theorem Running.search_ends (h : Running F s) (choices : ℕ → Choices)
    (hfuel : s.nVars * (s.nVars + 1) ^ s.nVars < fuel) :
    ∃ status t, Solver.search choices fuel s = some (status, t) ∧
      match status with
      | some true => (∀ x < s.nVars, t.assigns x ≠ none) ∧ CnfTrue (assignment t.assigns) F
      | some false => Unsatisfiable F
      | none => t.decisionLevel = 0 ∧ ∃ n u, Passes choices s n u ∧
          searchPass (choices n) u = some (.done none t) ∧ (choices n).restart = true := by
  obtain ⟨hready, hok⟩ := h.ready
  obtain ⟨⟨status, t⟩, hsearch⟩ := hready.exists_search fuel hok choices (Nat.lt_add_right _ hfuel)
  have hpass := hready.search fuel hok hsearch
  refine ⟨status, t, hsearch, ?_⟩
  match status, hpass with
  | some true, ⟨hstable, hcomplete, hframe⟩ =>
      refine ⟨fun x hx => hcomplete x ⟨hframe.nVars.symm ▸ hx, ?_⟩, hstable.cnfTrue hcomplete⟩
      rw [hframe.decision]
      exact h.variables.1 x hx
  | some false, hunsatisfiable => exact hunsatisfiable
  | none, ⟨_, hzero, _⟩ =>
      obtain ⟨n, u, hpasses, hlast⟩ := exists_last_pass hsearch
      exact ⟨hzero, n, u, hpasses, hlast, restart_of_searchPass hlast⟩

/-- The search after the first decision with `x1 x2` and `x1 ~x2`. -/
theorem Running.search_ends_decided :
    ∃ s : Solver, s.trail = [⟨0, true⟩] ∧ ∃ status t,
      Solver.search (fun _ => calm) 19 s = some (status, t) ∧
      match status with
      | some true => (∀ x < s.nVars, t.assigns x ≠ none) ∧
          CnfTrue (assignment t.assigns) [[⟨0, false⟩, ⟨1, false⟩], [⟨0, false⟩, ⟨1, true⟩]]
      | some false => Unsatisfiable [[⟨0, false⟩, ⟨1, false⟩], [(⟨0, false⟩ : Lit), ⟨1, true⟩]]
      | none => t.decisionLevel = 0 ∧ ∃ n u, Passes (fun _ => calm) s n u ∧
          searchPass calm u = some (.done none t) ∧ calm.restart = true :=
  have hrun : ∃ s, Running [[⟨0, false⟩, ⟨1, false⟩], [⟨0, false⟩, ⟨1, true⟩]] s ∧
      s.trail = [⟨0, true⟩] ∧ s.nVars * (s.nVars + 1) ^ s.nVars < 19 :=
    ⟨_, .next (.start (.addClause (.addClause (.newVar (.newVar .empty))
      (by decide) rfl) (by decide) rfl) rfl) calm rfl, rfl, by decide⟩
  have ⟨s, h, htrail, hfuel⟩ := hrun
  ⟨s, htrail, h.search_ends (fun _ => calm) hfuel⟩

/-! ## Calls of `solve` -/

theorem Solved.status_iff {verdict : Verdict} (h : Solved F s verdict) :
    verdict.status = true ↔ ∃ v, IsValuation v ∧ CnfTrue v F := by
  constructor
  · intro hstatus
    refine ⟨_, isValuation_assignment fun x => verdict.model[x]?.join, fun clause hclause => ?_⟩
    obtain ⟨q, hq, hvalue⟩ := h.model hstatus clause hclause
    refine ⟨q, hq, ?_⟩
    rw [assignment, hvalue]
    rfl
  · rintro ⟨v, hv, htrue⟩
    by_contra hstatus
    exact h.unsatisfiable (Bool.eq_false_iff.mpr hstatus) v hv htrue

/-- After any calls, `solve` returns true, if it returns, exactly if the clauses given are
satisfiable, and then the model has a value for each variable that satisfies them. -/
theorem Reachable.solve_verdict (h : Reachable F s) {choices : ℕ → ℕ → Choices} {restarts : ℕ}
    {verdict : Verdict} (hsolve : s.solve choices restarts fuel = some verdict) :
    (verdict.status = true ↔ ∃ v, IsValuation v ∧ CnfTrue v F) ∧
      (verdict.status = true → verdict.model.length = s.nVars ∧ none ∉ verdict.model ∧
        ∀ clause ∈ F, ∃ q ∈ clause, verdict.model[q.var]? = some (some !q.sign)) := by
  have hsolved := h.stateOk.solve hsolve
  refine ⟨hsolved.status_iff, fun hstatus => ?_⟩
  obtain ⟨hlength, htotal⟩ := hsolved.total hstatus
  exact ⟨hlength, htotal, hsolved.model hstatus⟩

/-- The clause `~x1` is added to `x1 x2` and `x1 ~x2` after these have been solved. -/
theorem Reachable.solve_verdict_twice :
    ∃ (s : Solver) (verdict : Verdict), s.clauses = [0, 1] ∧ verdict.status = false ∧
      s.solve (fun _ _ => calm) 1 20 = some verdict ∧
      (verdict.status = true ↔ ∃ v, IsValuation v ∧ CnfTrue v
        [[⟨0, false⟩, ⟨1, false⟩], [⟨0, false⟩, ⟨1, true⟩], [(⟨0, true⟩ : Lit)]]) ∧
      (verdict.status = true → verdict.model.length = s.nVars ∧ none ∉ verdict.model ∧
        ∀ clause ∈ [[⟨0, false⟩, ⟨1, false⟩], [⟨0, false⟩, ⟨1, true⟩], [(⟨0, true⟩ : Lit)]],
          ∃ q ∈ clause, verdict.model[q.var]? = some (some !q.sign)) :=
  have hrun : ∃ (s : Solver) (verdict : Verdict),
      Reachable [[⟨0, false⟩, ⟨1, false⟩], [⟨0, false⟩, ⟨1, true⟩], [⟨0, true⟩]] s ∧
      s.clauses = [0, 1] ∧ verdict.status = false ∧
      s.solve (fun _ _ => calm) 1 20 = some verdict :=
    ⟨_, _, .addClause (.solve (.addClause (.addClause (.newVar (.newVar .empty)) (by decide) rfl)
      (by decide) rfl) (fun _ _ => calm) 1 20 rfl) (by decide) rfl, rfl, rfl, rfl⟩
  have ⟨s, verdict, h, hclauses, hstatus, hsolve⟩ := hrun
  ⟨s, verdict, hclauses, hstatus, hsolve, h.solve_verdict hsolve⟩

/-- After any calls, `solve` returns if one of its searches is not asked to restart. -/
theorem Reachable.solve_returns (h : Reachable F s) (choices : ℕ → ℕ → Choices) (restarts : ℕ)
    (hrestart : ∃ k < restarts, ∀ n, (choices k n).restart = false)
    (hfuel : s.nVars * (s.nVars + 1) ^ s.nVars < fuel) :
    ∃ verdict, s.solve choices restarts fuel = some verdict ∧
      Reachable F verdict.solver ∧
      (verdict.status = true ↔ ∃ v, IsValuation v ∧ CnfTrue v F) := by
  obtain ⟨verdict, hsolve⟩ := h.stateOk.exists_solve choices restarts hrestart hfuel
  exact ⟨verdict, hsolve, h.solve choices restarts fuel hsolve, (h.stateOk.solve hsolve).status_iff⟩

/-- A search that always restarts, and one that does not. -/
theorem Reachable.solve_returns_restart :
    ∃ (s : Solver) (verdict : Verdict),
      s.solve (fun k _ => { calm with restart := k == 0 }) 2 19 = some verdict ∧
      Reachable [[⟨0, false⟩, ⟨1, false⟩], [⟨0, false⟩, ⟨1, true⟩]] verdict.solver ∧
      (verdict.status = true ↔ ∃ v, IsValuation v ∧ CnfTrue v
        [[⟨0, false⟩, ⟨1, false⟩], [(⟨0, false⟩ : Lit), ⟨1, true⟩]]) :=
  have hrun : ∃ s, Reachable [[⟨0, false⟩, ⟨1, false⟩], [⟨0, false⟩, ⟨1, true⟩]] s ∧
      s.nVars * (s.nVars + 1) ^ s.nVars < 19 :=
    ⟨_, .addClause (.addClause (.newVar (.newVar .empty)) (by decide) rfl) (by decide) rfl,
      by decide⟩
  have ⟨s, h, hfuel⟩ := hrun
  have hrestart : ∃ k < 2, ∀ _ : ℕ, (k == 0) = false := ⟨1, by decide, fun _ => rfl⟩
  ⟨s, h.solve_returns (fun k _ => { calm with restart := k == 0 }) 2 hrestart hfuel⟩

end Solver

end Glucose

end Sato
