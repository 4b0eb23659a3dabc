import Sato.Glucose.Clauses

/-! # Removed clauses

A clause is removed when a literal of level `0` satisfies it, or when it was learnt and
is not the reason of a literal. -/

open Foundation

namespace Sato

namespace Glucose

namespace Solver

variable {F : List (List Lit)} {done : Lit → CRef → Prop} {s s' : Solver} {p q : Lit} {cr : CRef}

/-! ## The parts of a removal -/

/-- A clause that is no reason at the levels after `0` may be marked. -/
theorem Inv.mark (h : Inv F done s) (hlt : cr < s.next) (hcs : cr ∉ s.clauses)
    (hreason : ∀ p ∈ s.trail, 0 < s.level p.var → s.reason p.var ≠ some cr) :
    Inv F done { s with mark := Function.update s.mark cr true } := by
  have hmark : ∀ {c : CRef}, Function.update s.mark cr true c = false →
      c ≠ cr ∧ s.mark c = false := by
    intro c hc
    have hne : c ≠ cr := by
      rintro rfl
      rw [Function.update_self] at hc
      cases hc
    rw [Function.update_of_ne hne] at hc
    exact ⟨hne, hc⟩
  have hlive : ∀ {c : CRef}, Live { s with mark := Function.update s.mark cr true } c →
      c ≠ cr ∧ s.Live c := fun hc => ⟨(hmark hc.2).1, hc.1, (hmark hc.2).2⟩
  have hlive' : ∀ {c : CRef}, c ≠ cr → s.Live c →
      Live { s with mark := Function.update s.mark cr true } c :=
    fun hne hc => ⟨hc.1, (Function.update_of_ne hne ..).trans hc.2⟩
  refine
    { trail := ⟨h.trail.nodup, h.trail.mem_iff, h.trail.descending, h.trail.level_le, h.trail.lim,
        h.trail.usable, h.trail.qhead_le⟩
      decided := h.decided
      clauses := ⟨fun c hc => h.clauses.length c (hlive hc).2,
        fun c hc => h.clauses.nodup c (hlive hc).2, fun c hc => h.clauses.usable c (hlive hc).2,
        fun c hc => hlive' (fun heq => hcs (heq ▸ hc)) (h.clauses.live c hc), h.clauses.learnt,
        h.clauses.distinct, fun c hc => ?_⟩
      reasons := fun p rest hsuffix hlevel => ?_
      watches := ⟨fun q c hc => ?_, fun q w hw hc => h.watches.blocker q w hw (hmark hc).2,
        fun q => ?_, fun q w hw hc => ?_, fun c hc => h.watches.binary_mem c (hlive hc).2⟩
      settled := fun c hc => h.settled c (hlive hc).2
      done_mem := h.done_mem
      earlier := h.earlier
      represents := ⟨fun c hc => h.represents.clause c (hlive hc).2, h.represents.unit,
        h.represents.satisfies⟩
      order_mem := h.order_mem
      order_lt := h.order_lt
      seen := h.seen }
  · have hne : c ≠ cr := Nat.ne_of_gt (Nat.lt_of_lt_of_le hlt hc)
    exact (Function.update_of_ne hne ..).trans (h.clauses.fresh c hc)
  · have hold := h.reasons p rest hsuffix hlevel
    have hne := hreason p (hsuffix.subset List.mem_cons_self) hlevel
    change ReasonFor _ p rest (s.reason p.var)
    cases hr : s.reason p.var with
    | none =>
        rw [hr] at hold
        exact hold
    | some c =>
        rw [hr] at hold hne
        exact ⟨hlive' (fun heq => hne (congrArg some heq)) hold.1, hold.2⟩
  · obtain ⟨hne, hc⟩ := hmark hc
    refine (h.watches.mem_iff q c hc).trans (and_congr_left' ?_)
    exact ⟨hlive' hne, fun hc' => (hlive hc').2⟩
  · refine (h.watches.nodup q).sublist (List.monotone_filter_right _ fun c hc => ?_)
    rw [Bool.not_eq_true'] at hc ⊢
    exact (hmark hc).2
  · obtain ⟨hold, hperm⟩ := h.watches.binary q w hw (hmark hc).2
    exact ⟨hlive' (hmark hc).1 hold, hperm⟩

/-- At level `0` the reasons do not matter. -/
theorem Inv.forget (h : Inv F done s) (hzero : s.decisionLevel = 0) (x : Var) :
    Inv F done { s with vardata := Function.update s.vardata x ⟨none, s.level x⟩ } := by
  have hlevel : level { s with vardata := Function.update s.vardata x ⟨none, s.level x⟩ } =
      s.level := by
    funext y
    by_cases hy : y = x <;> simp [level, hy]
  refine
    { trail := ⟨h.trail.nodup, h.trail.mem_iff, ?_, ?_, ?_, h.trail.usable, h.trail.qhead_le⟩
      decided := ?_
      clauses := ⟨h.clauses.length, h.clauses.nodup, h.clauses.usable, h.clauses.live,
        h.clauses.learnt, h.clauses.distinct, h.clauses.fresh⟩
      reasons := fun p rest hsuffix hpos => ?_
      watches := ⟨h.watches.mem_iff, h.watches.blocker, h.watches.nodup, h.watches.binary,
        h.watches.binary_mem⟩
      settled := fun c hc y hy hdone => ?_
      done_mem := h.done_mem
      earlier := ?_
      represents := ⟨h.represents.clause, ?_, ?_⟩
      order_mem := h.order_mem
      order_lt := h.order_lt
      seen := h.seen }
  · rw [hlevel]
    exact h.trail.descending
  · rw [hlevel]
    exact h.trail.level_le
  · rw [hlevel]
    exact h.trail.lim
  · rw [hlevel]
    exact h.decided
  · rw [hlevel] at hpos
    have hle := h.trail.level_le p (hsuffix.subset List.mem_cons_self)
    rw [hzero] at hle
    exact absurd hpos (Nat.not_lt.mpr hle)
  · unfold Settled
    rw [hlevel]
    exact h.settled c hc y hy hdone
  · rw [hlevel]
    exact h.earlier
  · rw [hlevel]
    exact h.represents.unit
  · rw [hlevel]
    exact h.represents.satisfies

/-- Other lists of clauses, which leave out what literals of level `0` satisfy. -/
theorem Inv.withLists (h : Inv F done s) {cs ls : List CRef} (hcs : cs.Sublist s.clauses)
    (hls : ls ⊆ s.learnts)
    (hsat : ∀ c ∈ s.clauses, c ∉ cs → ∃ t ∈ s.ca c, t ∈ s.trail ∧ s.level t.var = 0) :
    Inv F done { s with clauses := cs, learnts := ls } where
  trail := ⟨h.trail.nodup, h.trail.mem_iff, h.trail.descending, h.trail.level_le, h.trail.lim,
    h.trail.usable, h.trail.qhead_le⟩
  decided := h.decided
  clauses := by
    refine ⟨h.clauses.length, h.clauses.nodup, h.clauses.usable,
      fun c hc => h.clauses.live c (hcs.subset hc), fun c hc => ?_, h.clauses.distinct.sublist hcs,
      h.clauses.fresh⟩
    obtain ⟨hlt, hnot⟩ := h.clauses.learnt c (hls hc)
    exact ⟨hlt, fun hmem => hnot (hcs.subset hmem)⟩
  reasons := h.reasons
  watches := ⟨h.watches.mem_iff, h.watches.blocker, h.watches.nodup, h.watches.binary,
    h.watches.binary_mem⟩
  settled := h.settled
  done_mem := h.done_mem
  earlier := h.earlier
  represents := by
    refine ⟨h.represents.clause, h.represents.unit, fun v hv hclauses hunits => ?_⟩
    refine h.represents.satisfies v hv (fun c hc => ?_) hunits
    by_cases hmem : c ∈ cs
    · exact hclauses c hmem
    · obtain ⟨t, ht, htrail, hzero⟩ := hsat c hc hmem
      exact ⟨t, ht, hunits t htrail hzero⟩
  order_mem := h.order_mem
  order_lt := h.order_lt
  seen := h.seen

theorem Inv.withHeap (h : Inv F done s) {heap : List Var}
    (hmem : ∀ x, s.Usable x → s.assigns x = none → x ∈ heap) (hlt : ∀ x ∈ heap, x < s.nVars) :
    Inv F done { s with orderHeap := heap } :=
  { h with
    trail := ⟨h.trail.nodup, h.trail.mem_iff, h.trail.descending, h.trail.level_le, h.trail.lim,
      h.trail.usable, h.trail.qhead_le⟩
    clauses := ⟨h.clauses.length, h.clauses.nodup, h.clauses.usable, h.clauses.live,
      h.clauses.learnt, h.clauses.distinct, h.clauses.fresh⟩
    watches := ⟨h.watches.mem_iff, h.watches.blocker, h.watches.nodup, h.watches.binary,
      h.watches.binary_mem⟩
    represents := ⟨h.represents.clause, h.represents.unit, h.represents.satisfies⟩
    order_mem := hmem
    order_lt := hlt }

/-! ## A removal -/

/-- Only reasons and marks have changed. -/
structure Pruned (s s' : Solver) : Prop where
  eq : s' = { s with vardata := s'.vardata, mark := s'.mark }
  level : ∀ x, s'.level x = s.level x

namespace Pruned

theorem refl (s : Solver) : Pruned s s := ⟨rfl, fun _ => rfl⟩

theorem trans {s'' : Solver} (h : Pruned s s') (h' : Pruned s' s'') : Pruned s s'' := by
  refine ⟨?_, fun x => (h'.level x).trans (h.level x)⟩
  conv_lhs => rw [h'.eq, h.eq]

theorem removeClause (s : Solver) (cr : CRef) : Pruned s (s.removeClause cr) := by
  unfold Solver.removeClause
  split
  next a rest hclause =>
    split
    next =>
      refine ⟨rfl, fun x => ?_⟩
      by_cases hx : x = a.var <;> simp [Solver.level, hx]
    next => exact ⟨rfl, fun _ => rfl⟩
  next => exact ⟨rfl, fun _ => rfl⟩

theorem grown (h : Pruned s s') : s.Extends s' := by
  have htrail : s'.trail = s.trail := by rw [h.eq]
  refine ⟨htrail ▸ List.suffix_refl _, fun p _ => h.level p.var, ?_, ?_, ?_, ?_⟩ <;> rw [h.eq]

end Pruned

/-- At level `0` no literal has a reason that matters. -/
theorem Inv.reason_ne (h : Inv F done s) (hzero : s.decisionLevel = 0) :
    ∀ p ∈ s.trail, 0 < s.level p.var → s.reason p.var ≠ some cr := by
  intro p hp hpos
  have hle := h.trail.level_le p hp
  omega

/-- A clause out of use is removed at level `0`. -/
theorem Inv.removeClause (h : Inv F done s) (hzero : s.decisionLevel = 0) (hlt : cr < s.next)
    (hcs : cr ∉ s.clauses) : Inv F done (s.removeClause cr) := by
  unfold Solver.removeClause
  split
  next a rest hclause =>
    split
    next => exact (h.forget hzero a.var).mark hlt hcs ((h.forget hzero a.var).reason_ne hzero)
    next => exact h.mark hlt hcs (h.reason_ne hzero)
  next => exact h.mark hlt hcs (h.reason_ne hzero)

/-- A long clause that is not locked is no reason. -/
theorem Inv.reason_ne_of_not_locked (h : Inv F done s) (hlen : 2 < (s.ca cr).length)
    (hlocked : s.locked cr = false) :
    ∀ p ∈ s.trail, 0 < s.level p.var → s.reason p.var ≠ some cr := by
  intro p hp hpos hreason
  obtain ⟨before, rest, htrail⟩ := List.append_of_mem hp
  have himplies := h.reasons p rest ⟨before, htrail.symm⟩ hpos
  rw [hreason] at himplies
  obtain ⟨tail, hclause⟩ := List.head?_eq_some_iff.mp (himplies.2.head hlen)
  unfold locked at hlocked
  match tail, hclause with
  | [], hclause | [_], hclause =>
      rw [hclause] at hlen
      simp at hlen
  | b :: c :: tail, hclause =>
      rw [hclause] at hlocked
      simp [isReasonOf, h.trail.value_eq_true hp, hreason] at hlocked

theorem Inv.removeClause_of_not_locked (h : Inv F done s) (hlt : cr < s.next)
    (hcs : cr ∉ s.clauses) (hlen : 2 < (s.ca cr).length) (hlocked : s.locked cr = false) :
    Inv F done (s.removeClause cr) := by
  have hmark := h.mark hlt hcs (h.reason_ne_of_not_locked hlen hlocked)
  unfold Solver.removeClause
  split
  next a rest hclause =>
    rw [if_neg (by simp [hlocked])]
    exact hmark
  next => exact hmark

/-! ## The loops -/

/-- What a loop over learnt clauses leaves. -/
structure Removed (F : List (List Lit)) (done : Lit → CRef → Prop) (s : Solver) (crs : List CRef)
    (result : List CRef × Solver) : Prop where
  inv : Inv F done result.2
  pruned : Pruned s result.2
  sublist : result.1.Sublist crs

/-- A removal before the rest of a loop. -/
theorem Removed.next {crs : List CRef} {result : List CRef × Solver}
    (h : Removed F done (s.removeClause cr) crs result) : Removed F done s (cr :: crs) result :=
  ⟨h.inv, (Pruned.removeClause s cr).trans h.pruned, h.sublist.cons cr⟩

theorem Removed.keep {crs : List CRef} {result : List CRef × Solver}
    (h : Removed F done s crs result) : Removed F done s (cr :: crs) (cr :: result.1, result.2) :=
  ⟨h.inv, h.pruned, h.sublist.cons_cons cr⟩

/-- The references of a loop are still out of use after a removal. -/
theorem outOfUse_removeClause {crs : List CRef} (h : ∀ c ∈ crs, c < s.next ∧ c ∉ s.clauses) :
    ∀ c ∈ crs, c < (s.removeClause cr).next ∧ c ∉ (s.removeClause cr).clauses := by
  rw [(Pruned.removeClause s cr).eq]
  exact h

theorem removeSatisfied_learnts (crs : List CRef) (h : Inv F done s)
    (hzero : s.decisionLevel = 0) (hcrs : ∀ c ∈ crs, c < s.next ∧ c ∉ s.clauses) :
    Removed F done s crs (removeSatisfied crs s) := by
  induction crs generalizing s with
  | nil => exact ⟨h, .refl s, List.Sublist.refl _⟩
  | cons cr crs ih =>
      obtain ⟨⟨hlt, hcs⟩, hcrs⟩ := List.forall_mem_cons.mp hcrs
      unfold removeSatisfied
      split
      next =>
        have hzero' : (s.removeClause cr).decisionLevel = 0 :=
          (Pruned.removeClause s cr).grown.decisionLevel.trans hzero
        exact (ih (h.removeClause hzero hlt hcs) hzero' (outOfUse_removeClause hcrs)).next
      next => exact (ih h hzero hcrs).keep

theorem reduceLoop_spec (may : CRef → Bool) (crs : List CRef) (h : Inv F done s)
    (hcrs : ∀ c ∈ crs, c < s.next ∧ c ∉ s.clauses) :
    Removed F done s crs (reduceLoop may crs s) := by
  induction crs generalizing s with
  | nil => exact ⟨h, .refl s, List.Sublist.refl _⟩
  | cons cr crs ih =>
      obtain ⟨⟨hlt, hcs⟩, hcrs⟩ := List.forall_mem_cons.mp hcrs
      unfold reduceLoop
      split
      next hmay =>
        have hnext := h.removeClause_of_not_locked hlt hcs hmay.2.1 hmay.2.2
        exact (ih hnext (outOfUse_removeClause hcrs)).next
      next => exact (ih h hcrs).keep

theorem removeClause_withLists (s : Solver) (cr : CRef) (cs : List CRef) :
    removeClause { s with clauses := cs } cr = { s.removeClause cr with clauses := cs } := by
  have hlocked : locked { s with clauses := cs } cr = s.locked cr := rfl
  unfold removeClause
  rw [hlocked]
  cases s.ca cr with
  | nil => rfl
  | cons a rest =>
      simp only
      split <;> rfl

/-- A satisfied clause is taken out of the list of clauses and removed. -/
theorem Inv.removeSatisfied {pre crs : List CRef}
    (h : Inv F done { s with clauses := pre ++ cr :: crs }) (hzero : s.decisionLevel = 0)
    (hsat : s.satisfied (s.ca cr) = true) :
    Inv F done { s.removeClause cr with clauses := pre ++ crs } := by
  obtain ⟨t, ht, htrue⟩ := List.any_eq_true.mp hsat
  rw [beq_iff_eq] at htrue
  have hmem : t ∈ s.trail := (h.trail.mem_iff t).mpr htrue
  have hlevel : s.level t.var = 0 := by
    have hle : s.level t.var ≤ s.decisionLevel := h.trail.level_le t hmem
    omega
  have hsublist : (pre ++ crs).Sublist (pre ++ cr :: crs) :=
    (List.Sublist.refl pre).append (List.sublist_cons_self cr crs)
  have hout : Inv F done { s with clauses := pre ++ crs } := by
    refine h.withLists hsublist (List.Subset.refl _) fun c hc hnot => ?_
    have heq : c = cr := by
      rw [List.mem_append, List.mem_cons] at hc
      rw [List.mem_append] at hnot
      tauto
    exact ⟨t, heq ▸ ht, hmem, hlevel⟩
  have hdistinct := h.clauses.distinct
  rw [List.nodup_middle, List.nodup_cons] at hdistinct
  have hlt : cr < s.next := (h.clauses.live cr (by simp)).1
  rw [← removeClause_withLists]
  exact hout.removeClause hzero hlt hdistinct.1

theorem removeSatisfied_clauses (crs pre : List CRef)
    (h : Inv F done { s with clauses := pre ++ crs }) (hzero : s.decisionLevel = 0) :
    Inv F done { (removeSatisfied crs s).2 with clauses := pre ++ (removeSatisfied crs s).1 } ∧
      Pruned s (removeSatisfied crs s).2 := by
  induction crs generalizing s pre with
  | nil => exact ⟨h, .refl s⟩
  | cons cr crs ih =>
      unfold removeSatisfied
      split
      next hsat =>
        have hpruned := Pruned.removeClause s cr
        obtain ⟨hinv, hrest⟩ :=
          ih pre (h.removeSatisfied hzero hsat) (hpruned.grown.decisionLevel.trans hzero)
        exact ⟨hinv, hpruned.trans hrest⟩
      next =>
        rw [List.append_cons] at h
        obtain ⟨hinv, hrest⟩ := ih (pre ++ [cr]) h hzero
        simp only
        rw [List.append_cons]
        exact ⟨hinv, hrest⟩

/-! ## The database -/

theorem Stable.pruned (h : Stable F s) (hpruned : Pruned s s')
    (hinv : Inv F (fun q _ => q ∈ s.trail) s') : Stable F s' := by
  have htrail : s'.trail = s.trail := by rw [hpruned.eq]
  have hqhead : s'.qhead = s.qhead := by rw [hpruned.eq]
  exact ⟨htrail.symm ▸ hinv, by rw [hqhead, htrail, h.qhead]⟩

theorem Stable.reduceDB (h : Stable F s) (may : CRef → Bool) :
    Stable F (s.reduceDB may) ∧ s.Extends (s.reduceDB may) := by
  obtain ⟨hinv, hpruned, hsublist⟩ := reduceLoop_spec may s.learnts h.inv h.inv.clauses.learnt
  have hclauses : (reduceLoop may s.learnts s).2.clauses = s.clauses := by rw [hpruned.eq]
  have hlearnts : (reduceLoop may s.learnts s).2.learnts = s.learnts := by rw [hpruned.eq]
  have hstable := h.pruned hpruned hinv
  have hgrown := hpruned.grown
  refine ⟨⟨?_, hstable.qhead⟩, ?_⟩
  · refine hstable.inv.withLists (List.Sublist.refl _) ?_ fun c hc hnot => absurd hc hnot
    rw [hlearnts]
    exact hsublist.subset
  · exact ⟨hgrown.trail, hgrown.level, hgrown.trailLim, hgrown.nVars, hgrown.decision, hgrown.ok⟩

end Solver

end Glucose

end Sato
