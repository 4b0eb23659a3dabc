import Sato.Foundation.Entailment
import Sato.Glucose.Trail

/-! # The invariant of the solver

The clauses that are not removed are watched by their first two literals. When the
opposite of one of these has been propagated, the clause has a true literal that was
not assigned later. So no clause is false once the queue is empty. -/

open Foundation

namespace Sato

namespace Glucose

namespace Solver

variable {s : Solver} {p q x : Lit} {cr : CRef} {rest : List Lit}

/-! ## Clauses -/

/-- The clause has been allocated and not removed. -/
def Live (s : Solver) (cr : CRef) : Prop := cr < s.next ∧ s.mark cr = false

structure ClausesOk (s : Solver) : Prop where
  length : ∀ cr, s.Live cr → 2 ≤ (s.ca cr).length
  nodup : ∀ cr, s.Live cr → ((s.ca cr).map Lit.var).Nodup
  usable : ∀ cr, s.Live cr → ∀ q ∈ s.ca cr, s.Usable q.var
  live : ∀ cr ∈ s.clauses, s.Live cr
  learnt : ∀ cr ∈ s.learnts, cr < s.next ∧ cr ∉ s.clauses
  distinct : s.clauses.Nodup
  fresh : ∀ cr, s.next ≤ cr → s.mark cr = false

/-! ## Reasons -/

/-- The clause makes the literal true once the given literals are. A long clause has
the literal first. -/
structure Implies (clause : List Lit) (p : Lit) (rest : List Lit) : Prop where
  mem : p ∈ clause
  head : 2 < clause.length → clause.head? = some p
  others : ∀ q ∈ clause, q ≠ p → -q ∈ rest

/-- A literal without a reason is the first one of its level. -/
def ReasonFor (s : Solver) (p : Lit) (rest : List Lit) : Option CRef → Prop
  | none => ∀ q ∈ rest, s.level q.var < s.level p.var
  | some cr => s.Live cr ∧ Implies (s.ca cr) p rest

/-- Nothing is known of the reasons at level `0`, whose clauses may be gone. -/
def ReasonsOk (s : Solver) : Prop :=
  ∀ p rest, p :: rest <:+ s.trail → 0 < s.level p.var → s.ReasonFor p rest (s.reason p.var)

/-! ## Watchers -/

/-- The lists of watchers, where those of removed clauses may still be. -/
structure WatchesOk (s : Solver) : Prop where
  mem_iff : ∀ q cr, s.mark cr = false →
    (cr ∈ (s.watches q).map Watcher.cref ↔
      s.Live cr ∧ 2 < (s.ca cr).length ∧ -q ∈ (s.ca cr).take 2)
  blocker : ∀ q, ∀ w ∈ s.watches q, s.mark w.cref = false → w.blocker ∈ s.ca w.cref
  nodup : ∀ q, (((s.watches q).map Watcher.cref).filter fun cr => !s.mark cr).Nodup
  binary : ∀ q, ∀ w ∈ s.watchesBin q, s.mark w.cref = false →
    s.Live w.cref ∧ (s.ca w.cref).Perm [-q, w.blocker]
  binary_mem : ∀ cr, s.Live cr → (s.ca cr).length = 2 →
    ∀ q ∈ s.ca cr, cr ∈ (s.watchesBin (-q)).map Watcher.cref

/-! ## What has been propagated -/

/-- The clause has a true literal that was not assigned later than the given one. -/
def Settled (s : Solver) (cr : CRef) (x : Lit) : Prop :=
  ∃ t ∈ s.ca cr, s.value t = some true ∧ s.level t.var ≤ s.level x.var

/-- The literals that have been propagated in a clause leave it settled. -/
def SettledFor (s : Solver) (done : Lit → CRef → Prop) : Prop :=
  ∀ cr, s.Live cr → ∀ x ∈ (s.ca cr).take 2, done (-x) cr → s.Settled cr x

/-! ## The formula -/

/-- The state stands for the formula: its clauses and the literals of level `0` are
entailed, and they entail it without the clauses learnt. -/
structure Represents (F : List (List Lit)) (s : Solver) : Prop where
  clause : ∀ cr, s.Live cr → Entails F (s.ca cr)
  unit : ∀ p ∈ s.trail, s.level p.var = 0 → Entails F [p]
  satisfies : ∀ v, IsValuation v → (∀ cr ∈ s.clauses, ∃ q ∈ s.ca cr, v q) →
    (∀ p ∈ s.trail, s.level p.var = 0 → v p) → CnfTrue v F

/-! ## Assignment of a literal -/

section Enqueue

variable {F : List (List Lit)} {done : Lit → CRef → Prop} {reason : Option CRef}

theorem SettledFor.uncheckedEnqueue (h : s.SettledFor done) (htrail : s.TrailOk)
    (hdone : ∀ p cr, done p cr → p ∈ s.trail) (hp : s.value p = none) :
    (s.uncheckedEnqueue p reason).SettledFor done := by
  intro cr hlive x hx hx'
  obtain ⟨t, ht, htrue, hle⟩ := h cr hlive x hx hx'
  have hfalse : s.value x = some false := htrail.neg_mem_iff.mp (hdone _ _ hx')
  refine ⟨t, ht, value_uncheckedEnqueue hp htrue, ?_⟩
  rwa [level_uncheckedEnqueue hp htrue, level_uncheckedEnqueue hp hfalse]

theorem ReasonsOk.uncheckedEnqueue (h : s.ReasonsOk) (htrail : s.TrailOk)
    (hp : s.value p = none)
    (hreason : 0 < s.decisionLevel → (s.uncheckedEnqueue p reason).ReasonFor p s.trail reason) :
    (s.uncheckedEnqueue p reason).ReasonsOk := by
  intro q rest hsuffix hlevel
  rcases List.suffix_cons_iff.mp hsuffix with heq | hsuffix
  · obtain ⟨rfl, rfl⟩ := List.cons.inj heq
    rw [level_uncheckedEnqueue_self] at hlevel
    rw [reason_uncheckedEnqueue_self]
    exact hreason hlevel
  · have htrue : ∀ a ∈ q :: rest, s.value a = some true :=
      fun a ha => htrail.value_eq_true (hsuffix.subset ha)
    obtain ⟨hq, hrest⟩ := List.forall_mem_cons.mp htrue
    rw [level_uncheckedEnqueue hp hq] at hlevel
    have hold := h q rest hsuffix hlevel
    rw [reason_uncheckedEnqueue_of_ne (var_ne_of_value hp (by simp [hq]))]
    cases hr : s.reason q.var with
    | none =>
        rw [hr] at hold
        intro a ha
        rw [level_uncheckedEnqueue hp (hrest a ha), level_uncheckedEnqueue hp hq]
        exact hold a ha
    | some cr =>
        rw [hr] at hold
        exact hold

theorem Represents.uncheckedEnqueue (h : s.Represents F) (htrail : s.TrailOk)
    (hp : s.value p = none) (hunit : s.decisionLevel = 0 → Entails F [p]) :
    (s.uncheckedEnqueue p reason).Represents F := by
  have hlevel : ∀ q ∈ s.trail, (s.uncheckedEnqueue p reason).level q.var = s.level q.var :=
    fun q hq => level_uncheckedEnqueue hp (htrail.value_eq_true hq)
  refine ⟨h.clause, ?_, fun v hv hclauses hunits => ?_⟩
  · rw [trail_uncheckedEnqueue, List.forall_mem_cons, level_uncheckedEnqueue_self]
    refine ⟨hunit, fun q hq => ?_⟩
    rw [hlevel q hq]
    exact h.unit q hq
  · refine h.satisfies v hv hclauses fun q hq hzero => ?_
    exact hunits q (List.mem_cons_of_mem _ hq) ((hlevel q hq).trans hzero)

end Enqueue

/-! ## Other orders of the literals -/

/-- The clauses with their literals in another order. The true literal that is first in
a long clause stays first. -/
structure Permuted (s : Solver) (ca : CRef → List Lit) : Prop where
  perm : ∀ cr, (ca cr).Perm (s.ca cr)
  head : ∀ cr p, s.value p = some true → 2 < (ca cr).length → (s.ca cr).head? = some p →
    (ca cr).head? = some p

namespace Permuted

variable {F : List (List Lit)} {ca : CRef → List Lit} {clause : List Lit}

theorem refl (s : Solver) : s.Permuted s.ca :=
  ⟨fun _ => List.Perm.refl _, fun _ _ _ _ hhead => hhead⟩

/-- Another order of one clause. -/
theorem update (h : s.Permuted ca) (hperm : clause.Perm (ca cr))
    (hhead : ∀ p, s.value p = some true → 2 < clause.length → (ca cr).head? = some p →
      clause.head? = some p) :
    s.Permuted (Function.update ca cr clause) := by
  refine ⟨fun c => ?_, fun c p hp hlen hfirst => ?_⟩ <;> by_cases hc : c = cr
  · subst hc
    rw [Function.update_self]
    exact hperm.trans (h.perm c)
  · rw [Function.update_of_ne hc]
    exact h.perm c
  · subst hc
    rw [Function.update_self] at hlen ⊢
    exact hhead p hp hlen (h.head c p hp (hperm.length_eq ▸ hlen) hfirst)
  · rw [Function.update_of_ne hc] at hlen ⊢
    exact h.head c p hp hlen hfirst

theorem clausesOk (hca : s.Permuted ca) (h : s.ClausesOk) : ClausesOk { s with ca } := by
  refine ⟨fun cr hlive => ?_, fun cr hlive => ?_, fun cr hlive q hq => ?_, h.live, h.learnt,
    h.distinct, h.fresh⟩
  · exact (hca.perm cr).length_eq ▸ h.length cr hlive
  · exact ((hca.perm cr).map Lit.var).nodup_iff.mpr (h.nodup cr hlive)
  · exact h.usable cr hlive q ((hca.perm cr).mem_iff.mp hq)

theorem reasonsOk (hca : s.Permuted ca) (htrail : s.TrailOk) (h : s.ReasonsOk) :
    ReasonsOk { s with ca } := by
  intro p rest hsuffix hlevel
  have hold := h p rest hsuffix hlevel
  have hp := htrail.value_eq_true (hsuffix.subset List.mem_cons_self)
  change ReasonFor { s with ca } p rest (s.reason p.var)
  cases hr : s.reason p.var with
  | none =>
      rw [hr] at hold
      exact hold
  | some cr =>
      rw [hr] at hold
      obtain ⟨hlive, himplies⟩ := hold
      refine ⟨hlive, (hca.perm cr).mem_iff.mpr himplies.mem, fun hlen => ?_, fun q hq => ?_⟩
      · exact hca.head cr p hp hlen (himplies.head ((hca.perm cr).length_eq ▸ hlen))
      · exact himplies.others q ((hca.perm cr).mem_iff.mp hq)

theorem represents (hca : s.Permuted ca) (h : s.Represents F) : Represents F { s with ca } := by
  refine ⟨fun cr hlive => ?_, h.unit, fun v hv hclauses => ?_⟩
  · exact (h.clause cr hlive).mono (hca.perm cr).symm.subset
  · refine h.satisfies v hv fun cr hcr => ?_
    obtain ⟨q, hq, hvq⟩ := hclauses cr hcr
    exact ⟨q, (hca.perm cr).mem_iff.mp hq, hvq⟩

end Permuted

/-! ## All together -/

/-- The invariant, with the literals that have been propagated in each clause. All the
literals of the earlier levels have been. -/
structure Inv (F : List (List Lit)) (done : Lit → CRef → Prop) (s : Solver) : Prop where
  trail : s.TrailOk
  decided : ∀ l < s.decisionLevel, ∃ p ∈ s.trail, s.level p.var = l + 1
  clauses : s.ClausesOk
  reasons : s.ReasonsOk
  watches : s.WatchesOk
  settled : s.SettledFor done
  done_mem : ∀ p cr, done p cr → p ∈ s.trail
  earlier : ∀ p ∈ s.trail, s.level p.var < s.decisionLevel → ∀ cr, done p cr
  represents : s.Represents F
  order_mem : ∀ x, s.Usable x → s.assigns x = none → x ∈ s.orderHeap
  order_lt : ∀ x ∈ s.orderHeap, x < s.nVars
  seen : ∀ x, s.seen x = false

namespace Inv

variable {F : List (List Lit)} {done : Lit → CRef → Prop} {reason : Option CRef}

/-- The literals propagated may be taken for fewer. -/
theorem restrict (h : Inv F done s) {fewer : Lit → CRef → Prop}
    (hfewer : ∀ p cr, fewer p cr → done p cr)
    (hearlier : ∀ p ∈ s.trail, s.level p.var < s.decisionLevel → ∀ cr, fewer p cr) :
    Inv F fewer s :=
  { h with
    settled := fun cr hlive x hx hdone => h.settled cr hlive x hx (hfewer _ _ hdone)
    done_mem := fun p cr hp => h.done_mem p cr (hfewer p cr hp)
    earlier := hearlier }

/-- More of them have been, if they leave the clauses settled. -/
theorem extend (h : Inv F done s) {more : Lit → CRef → Prop}
    (hmore : ∀ p cr, more p cr → p ∈ s.trail)
    (hdone : ∀ p cr, done p cr → more p cr) (hsettled : s.SettledFor more) : Inv F more s :=
  { h with
    settled := hsettled
    done_mem := hmore
    earlier := fun p hp hlevel cr => hdone p cr (h.earlier p hp hlevel cr) }

/-! ## Assignment of a literal -/

/-- The formula may be another one for which the literal is new. -/
theorem uncheckedEnqueue_represents {F' : List (List Lit)} (h : Inv F done s)
    (hp : s.value p = none) (husable : s.Usable p.var)
    (hreason : 0 < s.decisionLevel → (s.uncheckedEnqueue p reason).ReasonFor p s.trail reason)
    (hrepresents : (s.uncheckedEnqueue p reason).Represents F') :
    Inv F' done (s.uncheckedEnqueue p reason) where
  trail := h.trail.uncheckedEnqueue hp husable reason
  decided l hl := by
    obtain ⟨q, hq, hlevel⟩ := h.decided l hl
    refine ⟨q, List.mem_cons_of_mem _ hq, ?_⟩
    rw [level_uncheckedEnqueue hp (h.trail.value_eq_true hq), hlevel]
  clauses := ⟨h.clauses.length, h.clauses.nodup, h.clauses.usable, h.clauses.live,
    h.clauses.learnt, h.clauses.distinct, h.clauses.fresh⟩
  reasons := h.reasons.uncheckedEnqueue h.trail hp hreason
  watches := ⟨h.watches.mem_iff, h.watches.blocker, h.watches.nodup, h.watches.binary,
    h.watches.binary_mem⟩
  settled := h.settled.uncheckedEnqueue h.trail h.done_mem hp
  done_mem q cr hq := List.mem_cons_of_mem _ (h.done_mem q cr hq)
  earlier := by
    rw [trail_uncheckedEnqueue, List.forall_mem_cons, level_uncheckedEnqueue_self]
    refine ⟨fun hlt => absurd hlt (Nat.lt_irrefl _), fun q hq hlt => ?_⟩
    rw [level_uncheckedEnqueue hp (h.trail.value_eq_true hq)] at hlt
    exact h.earlier q hq hlt
  represents := hrepresents
  order_mem x husable hnone := by
    by_cases hx : x = p.var
    · simp [Solver.uncheckedEnqueue, hx] at hnone
    · refine h.order_mem x husable ?_
      simpa [Solver.uncheckedEnqueue, hx] using hnone
  order_lt := h.order_lt
  seen := h.seen

theorem uncheckedEnqueue (h : Inv F done s) (hp : s.value p = none) (husable : s.Usable p.var)
    (hreason : 0 < s.decisionLevel → (s.uncheckedEnqueue p reason).ReasonFor p s.trail reason)
    (hunit : s.decisionLevel = 0 → Entails F [p]) :
    Inv F done (s.uncheckedEnqueue p reason) :=
  h.uncheckedEnqueue_represents hp husable hreason
    (h.represents.uncheckedEnqueue h.trail hp hunit)

/-- The other literals of a reason at level `0` are refuted. -/
theorem entails_of_implies (h : Inv F done s) (hlive : s.Live cr)
    (himplies : Implies (s.ca cr) p s.trail) (hzero : s.decisionLevel = 0) : Entails F [p] := by
  refine (h.represents.clause cr hlive).unit fun q hq hne => ?_
  have hmem := himplies.others q hq hne
  refine h.represents.unit _ hmem (Nat.le_zero.mp ?_)
  rw [← hzero]
  exact h.trail.level_le _ hmem

/-- A clause with one literal left makes it true. -/
theorem uncheckedEnqueue_implied (h : Inv F done s) (hp : s.value p = none)
    (hlive : s.Live cr) (himplies : Implies (s.ca cr) p s.trail) :
    Inv F done (s.uncheckedEnqueue p (some cr)) :=
  h.uncheckedEnqueue hp (h.clauses.usable cr hlive p himplies.mem) (fun _ => ⟨hlive, himplies⟩)
    (h.entails_of_implies hlive himplies)

/-- A literal of level `0`. -/
theorem uncheckedEnqueue_unit (h : Inv F done s) (hp : s.value p = none)
    (husable : s.Usable p.var) (hzero : s.decisionLevel = 0) (hunit : Entails F [p]) :
    Inv F done (s.uncheckedEnqueue p none) :=
  h.uncheckedEnqueue hp husable (fun hlevel => absurd hzero (Nat.ne_of_gt hlevel)) fun _ => hunit

/-! ## A new level -/

/-- A decision, after all the literals have been propagated. -/
theorem assume (h : Inv F (fun q _ => q ∈ s.trail) s) (hp : s.value p = none)
    (husable : s.Usable p.var) :
    Inv F (fun q _ => q ∈ s.trail) (s.newDecisionLevel.uncheckedEnqueue p none) where
  trail := h.trail.newDecisionLevel.uncheckedEnqueue hp husable none
  decided l hl := by
    have hlevel : s.newDecisionLevel.decisionLevel = s.decisionLevel + 1 := by
      simp [newDecisionLevel, decisionLevel]
    rw [decisionLevel_uncheckedEnqueue, hlevel] at hl
    rcases Nat.lt_succ_iff_lt_or_eq.mp hl with hlt | rfl
    · obtain ⟨q, hq, hq'⟩ := h.decided l hlt
      refine ⟨q, List.mem_cons_of_mem _ hq, ?_⟩
      have hp' : s.newDecisionLevel.value p = none := hp
      rw [level_uncheckedEnqueue hp' (h.trail.newDecisionLevel.value_eq_true hq)]
      exact hq'
    · refine ⟨p, List.mem_cons_self, ?_⟩
      rw [level_uncheckedEnqueue_self, hlevel]
  clauses := ⟨h.clauses.length, h.clauses.nodup, h.clauses.usable, h.clauses.live,
    h.clauses.learnt, h.clauses.distinct, h.clauses.fresh⟩
  reasons := by
    have hold : s.newDecisionLevel.ReasonsOk := h.reasons
    refine hold.uncheckedEnqueue h.trail.newDecisionLevel hp fun _ q hq => ?_
    have htrue := h.trail.newDecisionLevel.value_eq_true hq
    have hp' : s.newDecisionLevel.value p = none := hp
    rw [level_uncheckedEnqueue_self, level_uncheckedEnqueue hp' htrue]
    have hle := h.trail.level_le q hq
    simp only [newDecisionLevel, decisionLevel, List.length_append, List.length_singleton]
    exact Nat.lt_succ_of_le hle
  watches := ⟨h.watches.mem_iff, h.watches.blocker, h.watches.nodup, h.watches.binary,
    h.watches.binary_mem⟩
  settled := by
    have hold : s.newDecisionLevel.SettledFor fun q _ => q ∈ s.trail := h.settled
    exact hold.uncheckedEnqueue h.trail.newDecisionLevel (fun _ _ hq => hq) hp
  done_mem q cr hq := List.mem_cons_of_mem _ hq
  earlier := by
    rw [trail_uncheckedEnqueue, List.forall_mem_cons, level_uncheckedEnqueue_self]
    exact ⟨fun hlt => absurd hlt (Nat.lt_irrefl _), fun q hq _ _ => hq⟩
  represents := by
    have hold : s.newDecisionLevel.Represents F :=
      ⟨h.represents.clause, h.represents.unit, h.represents.satisfies⟩
    refine hold.uncheckedEnqueue h.trail.newDecisionLevel hp fun hzero => ?_
    simp [newDecisionLevel, decisionLevel] at hzero
  order_mem x husable hnone := by
    by_cases hx : x = p.var
    · simp [Solver.uncheckedEnqueue, hx] at hnone
    · refine h.order_mem x husable ?_
      simpa [Solver.uncheckedEnqueue, newDecisionLevel, hx] using hnone
  order_lt := h.order_lt
  seen := h.seen

/-! ## An earlier level -/

section BackTo

variable {l : ℕ} {heap : List Var}

theorem reasons_backTo (h : Inv F done s) : (s.backTo l heap).ReasonsOk := by
  intro p rest hsuffix hlevel
  have hkept : (s.backTo l heap).trail <:+ s.trail := by
    change s.trail.filter (fun p => s.level p.var ≤ l) <:+ s.trail
    rw [h.trail.descending.filter_le l]
    exact List.drop_suffix _ _
  have hold := h.reasons p rest (hsuffix.trans hkept) hlevel
  change (s.backTo l heap).ReasonFor p rest (s.reason p.var)
  cases hr : s.reason p.var with
  | none =>
      rw [hr] at hold
      exact hold
  | some cr =>
      rw [hr] at hold
      exact hold

theorem settled_backTo (h : Inv F done s) (hl : l < s.decisionLevel) :
    (s.backTo l heap).SettledFor fun q _ => q ∈ (s.backTo l heap).trail := by
  intro cr hlive x hx hdone
  obtain ⟨hmem, hle⟩ := mem_trail_backTo.mp hdone
  obtain ⟨t, ht, htrue, hle'⟩ :=
    h.settled cr hlive x hx (h.earlier _ hmem (Nat.lt_of_le_of_lt hle hl) cr)
  exact ⟨t, ht, value_backTo_eq_some.mpr ⟨htrue, Nat.le_trans hle' hle⟩, hle'⟩

theorem backTo (h : Inv F done s) (hl : l < s.decisionLevel)
    (hheap : s.Requeued (s.abandoned l) heap) :
    Inv F (fun q _ => q ∈ (s.backTo l heap).trail) (s.backTo l heap) where
  trail := h.trail.backTo (Nat.le_of_lt hl)
  decided k hk := by
    rw [decisionLevel_backTo (Nat.le_of_lt hl)] at hk
    obtain ⟨p, hp, hlevel⟩ := h.decided k (Nat.lt_trans hk hl)
    exact ⟨p, mem_trail_backTo.mpr ⟨hp, hlevel ▸ hk⟩, hlevel⟩
  clauses := ⟨h.clauses.length, h.clauses.nodup, h.clauses.usable, h.clauses.live,
    h.clauses.learnt, h.clauses.distinct, h.clauses.fresh⟩
  reasons := h.reasons_backTo
  watches := ⟨h.watches.mem_iff, h.watches.blocker, h.watches.nodup, h.watches.binary,
    h.watches.binary_mem⟩
  settled := h.settled_backTo hl
  done_mem _ _ hp := hp
  earlier _ hp _ _ := hp
  represents := by
    refine ⟨h.represents.clause, fun p hp hzero => ?_, fun v hv hclauses hunits => ?_⟩
    · exact h.represents.unit p (mem_trail_backTo.mp hp).1 hzero
    · refine h.represents.satisfies v hv hclauses fun p hp hzero => hunits p ?_ hzero
      exact mem_trail_backTo.mpr ⟨hp, hzero ▸ Nat.zero_le l⟩
  order_mem x husable hnone := by
    by_cases hx : s.assigns x = none
    · exact hheap.subset (h.order_mem x husable hx)
    · refine hheap.decision x (h.trail.mem_abandoned.mpr ⟨?_, hx⟩) husable.2
      by_contra hle
      simp [Solver.backTo, Nat.not_lt.mp hle, hx] at hnone
  order_lt x hx := by
    rcases hheap.origin x hx with hmem | hmem
    · exact h.order_lt x hmem
    · obtain ⟨p, hp, rfl⟩ := List.mem_map.mp hmem
      exact (h.trail.usable p (List.mem_filter.mp hp).1).1
  seen := h.seen

end BackTo

/-- The state after `cancelUntil` to an earlier level. -/
theorem cancelUntil (h : Inv F done s) {l : ℕ} (hl : l < s.decisionLevel) :
    Inv F (fun q _ => q ∈ (s.cancelUntil l).trail) (s.cancelUntil l) := by
  obtain ⟨heap, heq, hheap⟩ := h.trail.exists_cancelUntil hl
  rw [heq]
  exact h.backTo hl hheap

/-! ## Other orders of the literals -/

/-- Other orders of the literals, and other lists of watchers for them. -/
theorem rewatch (h : Inv F done s) {ca : CRef → List Lit} {watches : Lit → List Watcher}
    (hca : s.Permuted ca) (hwatches : WatchesOk { s with ca, watches })
    (hsettled : SettledFor { s with ca, watches } done) : Inv F done { s with ca, watches } where
  trail := ⟨h.trail.nodup, h.trail.mem_iff, h.trail.descending, h.trail.level_le, h.trail.lim,
    h.trail.usable, h.trail.qhead_le⟩
  decided := h.decided
  clauses :=
    have hclauses := hca.clausesOk h.clauses
    ⟨hclauses.length, hclauses.nodup, hclauses.usable, hclauses.live, hclauses.learnt,
      hclauses.distinct, hclauses.fresh⟩
  reasons := hca.reasonsOk h.trail h.reasons
  watches := hwatches
  settled := hsettled
  done_mem := h.done_mem
  earlier := h.earlier
  represents :=
    have hrepresents := hca.represents h.represents
    ⟨hrepresents.clause, hrepresents.unit, hrepresents.satisfies⟩
  order_mem := h.order_mem
  order_lt := h.order_lt
  seen := h.seen

/-- The literals watched stay the first two. -/
theorem permute (h : Inv F done s) {ca : CRef → List Lit} (hca : s.Permuted ca)
    (htake : ∀ cr x, x ∈ (ca cr).take 2 ↔ x ∈ (s.ca cr).take 2) : Inv F done { s with ca } := by
  refine h.rewatch hca ⟨fun q cr hmark => ?_, fun q w hw hmark => ?_, h.watches.nodup,
    fun q w hw hmark => ?_, fun cr hlive hlen q hq => ?_⟩ fun cr hlive x hx hdone => ?_
  · rw [htake, (hca.perm cr).length_eq]
    exact h.watches.mem_iff q cr hmark
  · exact (hca.perm _).mem_iff.mpr (h.watches.blocker q w hw hmark)
  · obtain ⟨hlive, hperm⟩ := h.watches.binary q w hw hmark
    exact ⟨hlive, (hca.perm _).trans hperm⟩
  · exact h.watches.binary_mem cr hlive ((hca.perm cr).length_eq ▸ hlen) q
      ((hca.perm cr).mem_iff.mp hq)
  · obtain ⟨t, ht, htrue⟩ := h.settled cr hlive x ((htake cr x).mp hx) hdone
    exact ⟨t, (hca.perm cr).mem_iff.mpr ht, htrue⟩

/-! ## The watchers of removed clauses -/

theorem cleanAll (h : Inv F done s) : Inv F done s.cleanAll where
  trail := ⟨h.trail.nodup, h.trail.mem_iff, h.trail.descending, h.trail.level_le, h.trail.lim,
    h.trail.usable, h.trail.qhead_le⟩
  decided := h.decided
  clauses := ⟨h.clauses.length, h.clauses.nodup, h.clauses.usable, h.clauses.live,
    h.clauses.learnt, h.clauses.distinct, h.clauses.fresh⟩
  reasons := h.reasons
  watches := by
    have hmem : ∀ (ws : List Watcher) cr, s.mark cr = false →
        (cr ∈ (ws.filter fun w => !s.mark w.cref).map Watcher.cref ↔
          cr ∈ ws.map Watcher.cref) := by
      intro ws cr hmark
      simp only [List.mem_map, List.mem_filter]
      constructor
      · rintro ⟨w, hw, rfl⟩
        exact ⟨w, hw.1, rfl⟩
      · rintro ⟨w, hw, rfl⟩
        exact ⟨w, ⟨hw, by simp [hmark]⟩, rfl⟩
    refine ⟨fun q cr hmark => ?_, fun q w hw => ?_, fun q => ?_, fun q w hw => ?_,
      fun cr hlive hlen q hq => ?_⟩
    · exact (hmem _ cr hmark).trans (h.watches.mem_iff q cr hmark)
    · exact h.watches.blocker q w (List.mem_filter.mp hw).1
    · exact (h.watches.nodup q).sublist ((List.filter_sublist.map _).filter _)
    · exact h.watches.binary q w (List.mem_filter.mp hw).1
    · exact (hmem _ cr hlive.2).mpr (h.watches.binary_mem cr hlive hlen q hq)
  settled := h.settled
  done_mem := h.done_mem
  earlier := h.earlier
  represents := ⟨h.represents.clause, h.represents.unit, h.represents.satisfies⟩
  order_mem := h.order_mem
  order_lt := h.order_lt
  seen := h.seen

end Inv

end Solver

end Glucose

end Sato
