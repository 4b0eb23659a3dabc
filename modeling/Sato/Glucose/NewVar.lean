import Sato.Glucose.AddClause

/-! # New variables

A new variable is in no clause and has no value, so what is known of the others stays. -/

open Foundation

namespace Sato

namespace Glucose

namespace Solver

variable {F : List (List Lit)} {done : Lit → CRef → Prop} {s s' : Solver} {p q : Lit}

/-- The calls that `newVar` makes, in one update of the state. -/
theorem newVar_eq (hheap : s.nVars ∉ s.orderHeap) : s.newVar = { s with
    nVars := s.nVars + 1
    watches := fun q => if q.var = s.nVars then [] else s.watches q
    watchesBin := fun q => if q.var = s.nVars then [] else s.watchesBin q
    assigns := Function.update s.assigns s.nVars none
    vardata := Function.update s.vardata s.nVars ⟨none, 0⟩
    seen := Function.update s.seen s.nVars false
    decision := Function.update s.decision s.nVars true
    orderHeap := s.orderHeap ++ [s.nVars] } := by
  have hlists : ∀ lists : Lit → List Watcher,
      Function.update (Function.update lists ⟨s.nVars, false⟩ []) ⟨s.nVars, true⟩ [] =
        fun q => if q.var = s.nVars then [] else lists q := by
    intro lists
    funext q
    obtain ⟨x, sign⟩ := q
    cases sign <;> simp [Function.update_apply]
  unfold newVar setDecisionVar insertVarOrder
  simp [hheap, hlists]

/-- The solver with a variable that is new. -/
structure Grown (s s' : Solver) : Prop where
  eq : s' = { s with
    nVars := s.nVars + 1
    watches := s'.watches
    watchesBin := s'.watchesBin
    assigns := s'.assigns
    vardata := s'.vardata
    seen := s'.seen
    decision := s'.decision
    orderHeap := s.orderHeap ++ [s.nVars] }
  watches : ∀ q, s'.watches q = if q.var = s.nVars then [] else s.watches q
  watchesBin : ∀ q, s'.watchesBin q = if q.var = s.nVars then [] else s.watchesBin q
  assigns : ∀ x ≠ s.nVars, s'.assigns x = s.assigns x
  vardata : ∀ x ≠ s.nVars, s'.vardata x = s.vardata x
  decision : ∀ x ≠ s.nVars, s'.decision x = s.decision x
  new : s'.assigns s.nVars = none ∧ s'.decision s.nVars = true
  seen : ∀ x, s.seen x = false → s'.seen x = false

/-- The new variable is not in the heap yet, so it is put there. -/
theorem Inv.grown_newVar (h : Inv F done s) : Grown s s.newVar := by
  have hheap : s.nVars ∉ s.orderHeap := fun hmem => Nat.lt_irrefl _ (h.order_lt _ hmem)
  rw [newVar_eq hheap]
  refine ⟨rfl, fun _ => rfl, fun _ => rfl, fun x hx => Function.update_of_ne hx ..,
    fun x hx => Function.update_of_ne hx .., fun x hx => Function.update_of_ne hx ..,
    ⟨Function.update_self .., Function.update_self ..⟩, fun x hx => ?_⟩
  by_cases heq : x = s.nVars
  · rw [heq]
    exact Function.update_self ..
  · exact (Function.update_of_ne heq ..).trans hx

namespace Grown

/-- The other variables keep their values. -/
theorem value (h : Grown s s') (hq : q.var ≠ s.nVars) : s'.value q = s.value q := by
  unfold Solver.value
  rw [h.assigns _ hq]

theorem level (h : Grown s s') {x : Var} (hx : x ≠ s.nVars) : s'.level x = s.level x := by
  unfold Solver.level
  rw [h.vardata x hx]

theorem trail (h : Grown s s') : s'.trail = s.trail := by rw [h.eq]

theorem decisionLevel (h : Grown s s') : s'.decisionLevel = s.decisionLevel := by
  unfold Solver.decisionLevel
  rw [h.eq]

theorem live (h : Grown s s') {cr : CRef} : s'.Live cr ↔ s.Live cr := by
  unfold Live
  rw [h.eq]

theorem usable (h : Grown s s') {x : Var} (hx : s.Usable x) : s'.Usable x := by
  have hne : x ≠ s.nVars := Nat.ne_of_lt hx.1
  refine ⟨?_, (h.decision x hne).trans hx.2⟩
  rw [h.eq]
  exact Nat.lt_succ_of_lt hx.1

/-- No literal of the trail has the new variable. -/
theorem trailOk (h : Grown s s') (hok : s.TrailOk) : s'.TrailOk := by
  have hne : ∀ p ∈ s.trail, p.var ≠ s.nVars := fun p hp => Nat.ne_of_lt (hok.usable p hp).1
  have hlevel : ∀ p ∈ s.trail, s'.level p.var = s.level p.var :=
    fun p hp => h.level (hne p hp)
  refine ⟨?_, fun p => ?_, ?_, fun p hp => ?_, fun l hl => ?_, fun p hp => ?_, ?_⟩
  · rw [h.trail]
    exact hok.nodup
  · rw [h.trail]
    by_cases hp : p.var = s.nVars
    · have hnone : s'.value p = none := value_eq_none_iff.mpr (hp ▸ h.new.1)
      rw [hnone]
      exact iff_of_false (fun hmem => hne p hmem hp) nofun
    · rw [h.value hp]
      exact hok.mem_iff p
  · rw [h.trail]
    apply List.Pairwise.imp_of_mem _ hok.descending
    intro a b ha hb hle
    change s'.level b.var ≤ s'.level a.var
    rwa [hlevel a ha, hlevel b hb]
  · rw [h.trail] at hp
    rw [hlevel p hp, h.decisionLevel]
    exact hok.level_le p hp
  · rw [h.decisionLevel] at hl
    rw [h.trail, List.countP_congr fun q hq => by rw [hlevel q hq], ← hok.lim l hl, h.eq]
  · rw [h.trail] at hp
    exact h.usable (hok.usable p hp)
  · rw [h.eq]
    exact hok.qhead_le

theorem clausesOk (h : Grown s s') (hok : s.ClausesOk) : s'.ClausesOk := by
  have husable : ∀ cr, s'.Live cr → ∀ q ∈ s'.ca cr, s'.Usable q.var := by
    intro cr hlive q hq
    refine h.usable (hok.usable cr (h.live.mp hlive) q ?_)
    rw [h.eq] at hq
    exact hq
  refine ⟨fun cr hlive => ?_, fun cr hlive => ?_, husable, fun cr hcr => ?_, ?_, ?_, ?_⟩
  · rw [h.eq]
    exact hok.length cr (h.live.mp hlive)
  · rw [h.eq]
    exact hok.nodup cr (h.live.mp hlive)
  · rw [h.live]
    rw [h.eq] at hcr
    exact hok.live cr hcr
  all_goals rw [h.eq]
  · exact hok.learnt
  · exact hok.distinct
  · exact hok.fresh

/-- The lists of the new literals are empty, as no clause has them. -/
theorem watchesOk (h : Grown s s') (hclauses : s.ClausesOk) (hok : s.WatchesOk) : s'.WatchesOk := by
  have hca : s'.ca = s.ca := by rw [h.eq]
  have hmark : s'.mark = s.mark := by rw [h.eq]
  have hmem : ∀ {P : Watcher → Prop} {q}, (∀ w ∈ s.watches q, P w) → ∀ w ∈ s'.watches q, P w := by
    intro P q hall w hw
    rw [h.watches] at hw
    split at hw
    next => exact absurd hw List.not_mem_nil
    next => exact hall w hw
  have hnot : ∀ {q cr}, q.var = s.nVars → s.Live cr → -q ∉ s.ca cr := fun heq hlive hq =>
    Nat.ne_of_lt (hclauses.usable _ hlive _ hq).1 heq
  refine ⟨fun q cr hcr => ?_, fun q => ?_, fun q => ?_, fun q w hw hw' => ?_,
    fun cr hlive hlen q hq => ?_⟩
  · rw [hmark] at hcr
    rw [h.live, hca, h.watches]
    split
    next heq =>
      refine iff_of_false List.not_mem_nil fun hthree => ?_
      exact hnot heq hthree.1 (List.mem_of_mem_take hthree.2.2)
    next => exact hok.mem_iff q cr hcr
  · rw [hmark, hca]
    exact hmem (hok.blocker q)
  · rw [hmark, h.watches]
    split
    next => exact List.nodup_nil
    next => exact hok.nodup q
  · rw [hmark] at hw'
    rw [h.watchesBin] at hw
    rw [h.live, hca]
    split at hw
    next => exact absurd hw List.not_mem_nil
    next => exact hok.binary q w hw hw'
  · rw [h.live] at hlive
    rw [hca] at hlen hq
    have hne : (-q).var ≠ s.nVars := Nat.ne_of_lt (hclauses.usable cr hlive q hq).1
    rw [h.watchesBin, if_neg hne]
    exact hok.binary_mem cr hlive hlen q hq

theorem reasonsOk (h : Grown s s') (htrail : s.TrailOk) (hok : s.ReasonsOk) : s'.ReasonsOk := by
  intro p rest hsuffix hlevel
  rw [h.trail] at hsuffix
  have hne : ∀ q ∈ p :: rest, q.var ≠ s.nVars :=
    fun q hq => Nat.ne_of_lt (htrail.usable q (hsuffix.subset hq)).1
  have hp := hne p List.mem_cons_self
  rw [h.level hp] at hlevel
  have hold := hok p rest hsuffix hlevel
  have hreason : s'.reason p.var = s.reason p.var := congrArg VarData.reason (h.vardata _ hp)
  rw [hreason]
  cases hr : s.reason p.var with
  | none =>
      rw [hr] at hold
      intro q hq
      rw [h.level hp, h.level (hne q (List.mem_cons_of_mem _ hq))]
      exact hold q hq
  | some cr =>
      rw [hr] at hold
      have hca : s'.ca = s.ca := by rw [h.eq]
      exact ⟨h.live.mpr hold.1, hca ▸ hold.2⟩

theorem settledFor (h : Grown s s') (hclauses : s.ClausesOk) (hok : s.SettledFor done) :
    s'.SettledFor done := by
  have hca : s'.ca = s.ca := by rw [h.eq]
  intro cr hlive x hx hdone
  rw [h.live] at hlive
  rw [hca] at hx
  have hne : ∀ q ∈ s.ca cr, q.var ≠ s.nVars :=
    fun q hq => Nat.ne_of_lt (hclauses.usable cr hlive q hq).1
  obtain ⟨t, ht, htrue, hle⟩ := hok cr hlive x hx hdone
  refine ⟨t, hca ▸ ht, (h.value (hne t ht)).trans htrue, ?_⟩
  rwa [h.level (hne t ht), h.level (hne x (List.mem_of_mem_take hx))]

/-- The same clauses and units stand for the same formula. -/
theorem represents (h : Grown s s') (htrail : s.TrailOk) (hok : s.Represents F) :
    s'.Represents F := by
  have hca : s'.ca = s.ca := by rw [h.eq]
  have hclauses : s'.clauses = s.clauses := by rw [h.eq]
  have hlevel : ∀ p ∈ s.trail, s'.level p.var = s.level p.var :=
    fun p hp => h.level (Nat.ne_of_lt (htrail.usable p hp).1)
  refine ⟨fun cr hlive => ?_, fun p hp hzero => ?_, fun v hv hcs hunits => ?_⟩
  · rw [hca]
    exact hok.clause cr (h.live.mp hlive)
  · rw [h.trail] at hp
    exact hok.unit p hp ((hlevel p hp).symm.trans hzero)
  · rw [hclauses, hca] at hcs
    rw [h.trail] at hunits
    exact hok.satisfies v hv hcs fun p hp hzero => hunits p hp ((hlevel p hp).trans hzero)

/-- The invariant is kept, with the new variable in the heap. -/
theorem inv (h : Grown s s') (hinv : Inv F done s) : Inv F done s' where
  trail := h.trailOk hinv.trail
  decided l hl := by
    rw [h.decisionLevel] at hl
    obtain ⟨p, hp, hlevel⟩ := hinv.decided l hl
    refine ⟨p, h.trail.symm ▸ hp, ?_⟩
    rw [h.level (Nat.ne_of_lt (hinv.trail.usable p hp).1), hlevel]
  clauses := h.clausesOk hinv.clauses
  reasons := h.reasonsOk hinv.trail hinv.reasons
  watches := h.watchesOk hinv.clauses hinv.watches
  settled := h.settledFor hinv.clauses hinv.settled
  done_mem p cr hp := h.trail.symm ▸ hinv.done_mem p cr hp
  earlier p hp hlevel cr := by
    rw [h.trail] at hp
    rw [h.decisionLevel, h.level (Nat.ne_of_lt (hinv.trail.usable p hp).1)] at hlevel
    exact hinv.earlier p hp hlevel cr
  represents := h.represents hinv.trail hinv.represents
  order_mem x husable hnone := by
    rw [h.eq]
    refine List.mem_append.mpr ?_
    by_cases hx : x = s.nVars
    · exact Or.inr (List.mem_singleton.mpr hx)
    · refine Or.inl (hinv.order_mem x ⟨?_, ?_⟩ ((h.assigns x hx).symm.trans hnone))
      · have hlt : x < s'.nVars := husable.1
        rw [h.eq] at hlt
        exact Nat.lt_of_le_of_ne (Nat.le_of_lt_succ hlt) hx
      · exact (h.decision x hx).symm.trans husable.2
  order_lt x hx := by
    rw [h.eq] at hx ⊢
    rcases List.mem_append.mp hx with hx | hx
    · exact Nat.lt_succ_of_lt (hinv.order_lt x hx)
    · exact List.mem_singleton.mp hx ▸ Nat.lt_succ_self _
  seen x := h.seen x (hinv.seen x)

end Grown

theorem newVar_frame (s : Solver) : s.newVar.ok = s.ok ∧ s.newVar.nVars = s.nVars + 1 := by
  have hinsert : ∀ (t : Solver) x, (t.insertVarOrder x).ok = t.ok ∧
      (t.insertVarOrder x).nVars = t.nVars := by
    intro t x
    unfold insertVarOrder
    split <;> exact ⟨rfl, rfl⟩
  exact hinsert _ _

theorem Stable.newVar (h : Stable F s) : Stable F s.newVar := by
  have hgrown := h.inv.grown_newVar
  have hinv := hgrown.inv h.inv
  have htrail := hgrown.trail
  refine ⟨hinv.restrict (fun q _ hq => htrail ▸ hq) fun q hq _ _ => hq, ?_⟩
  rw [htrail, ← h.qhead, hgrown.eq]

/-- A call of `newVar` keeps what holds between the calls. -/
theorem StateOk.newVar (h : StateOk F s) : StateOk F s.newVar := by
  obtain ⟨hok, hnVars⟩ := s.newVar_frame
  refine ⟨fun htrue => ?_, fun htrue x hx => ?_, fun htrue clause hclause q hq => ?_,
    fun hfalse => h.unsatisfiable (hok.symm.trans hfalse)⟩
  · obtain ⟨hstable, hzero⟩ := h.stable (hok.symm.trans htrue)
    exact ⟨hstable.newVar, hstable.inv.grown_newVar.decisionLevel.trans hzero⟩
  · have hgrown := (h.stable (hok.symm.trans htrue)).1.inv.grown_newVar
    rw [hnVars] at hx
    rcases Nat.lt_succ_iff_lt_or_eq.mp hx with hlt | rfl
    · exact (hgrown.decision x (Nat.ne_of_lt hlt)).trans (h.decision (hok.symm.trans htrue) x hlt)
    · exact hgrown.new.2
  · rw [hnVars]
    exact Nat.lt_succ_of_lt (h.bounded (hok.symm.trans htrue) clause hclause q hq)

end Solver

end Glucose

end Sato
