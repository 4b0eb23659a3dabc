import Sato.Glucose.Removal

/-! # The search

Each pass of the search keeps the invariant, whatever the heuristics choose. It ends
with a model or with a conflict at level `0`, or the trail has grown in the order in
which earlier levels count more. -/

open Foundation

namespace Sato

namespace Glucose

namespace Solver

variable {F : List (List Lit)} {done : Lit → CRef → Prop} {s s' : Solver} {p q : Lit}
  {cr : CRef} {choices : Choices}

/-! ## Simplification -/

/-- A false clause at level `0` refutes the formula. -/
theorem Conflict.unsatisfiable (h : Conflict F s cr) (hzero : s.decisionLevel = 0) :
    Unsatisfiable F := by
  obtain ⟨hlive, hfalse⟩ := h.falsified
  refine (h.inv.represents.clause cr hlive).unsatisfiable fun q hq => ?_
  have hmem : -q ∈ s.trail := h.inv.trail.neg_mem_iff.mpr (hfalse q hq)
  have hle : s.level (-q).var ≤ s.decisionLevel := h.inv.trail.level_le (-q) hmem
  exact h.inv.represents.unit (-q) hmem (by omega)

theorem Stable.rebuildOrderHeap (h : Stable F s) : Stable F s.rebuildOrderHeap := by
  refine ⟨h.inv.withHeap (fun x husable hnone => ?_) fun x hx => ?_, h.qhead⟩
  · refine List.mem_filter.mpr ⟨List.mem_range.mpr husable.1, ?_⟩
    simp [husable.2, hnone]
  · exact List.mem_range.mp (List.mem_filter.mp hx).1

/-- The satisfied learnt clauses are removed at level `0`. -/
theorem Stable.dropLearnts (h : Stable F s) (hzero : s.decisionLevel = 0) :
    Stable F { (removeSatisfied s.learnts s).2 with learnts := (removeSatisfied s.learnts s).1 } ∧
      s.Extends
        { (removeSatisfied s.learnts s).2 with learnts := (removeSatisfied s.learnts s).1 } := by
  obtain ⟨hinv, hpruned, hsublist⟩ :=
    removeSatisfied_learnts s.learnts h.inv hzero h.inv.clauses.learnt
  have hlearnts : (removeSatisfied s.learnts s).2.learnts = s.learnts := by rw [hpruned.eq]
  have hstable := h.pruned hpruned hinv
  have hgrown := hpruned.grown
  refine ⟨⟨?_, hstable.qhead⟩, ?_⟩
  · refine hstable.inv.withLists (List.Sublist.refl _) ?_ fun c hc hnot => absurd hc hnot
    rw [hlearnts]
    exact hsublist.subset
  · exact ⟨hgrown.trail, hgrown.level, hgrown.trailLim, hgrown.nVars, hgrown.decision, hgrown.ok⟩

theorem Stable.dropClauses (h : Stable F s) (hzero : s.decisionLevel = 0) :
    Stable F { (removeSatisfied s.clauses s).2 with clauses := (removeSatisfied s.clauses s).1 } ∧
      s.Extends
        { (removeSatisfied s.clauses s).2 with clauses := (removeSatisfied s.clauses s).1 } := by
  obtain ⟨hinv, hpruned⟩ := removeSatisfied_clauses s.clauses [] h.inv hzero
  have hgrown := hpruned.grown
  have htrail : (removeSatisfied s.clauses s).2.trail = s.trail := by rw [hpruned.eq]
  have hqhead : (removeSatisfied s.clauses s).2.qhead = s.qhead := by rw [hpruned.eq]
  refine ⟨⟨?_, ?_⟩, ?_⟩
  · exact hinv.restrict (fun q _ hq => htrail ▸ hq) fun q hq _ _ => hq
  · exact hqhead.trans (h.qhead.trans (congrArg List.length htrail.symm))
  · exact ⟨hgrown.trail, hgrown.level, hgrown.trailLim, hgrown.nVars, hgrown.decision, hgrown.ok⟩

theorem extends_rebuildOrderHeap (s : Solver) : s.Extends s.rebuildOrderHeap :=
  ⟨List.suffix_refl _, fun _ _ => rfl, rfl, rfl, rfl, rfl⟩

/-- What `simplify` returns. -/
structure Simplified (F : List (List Lit)) (s : Solver) (result : Bool × Solver) : Prop where
  stable : result.1 = true → Stable F result.2 ∧ s.Extends result.2
  unsatisfiable : result.1 = false → Unsatisfiable F

theorem Ready.exists_simplify (h : Ready F s) (hok : s.ok = true) (hzero : s.decisionLevel = 0)
    (look removeClauses : Bool) :
    ∃ result, s.simplify look removeClauses = some result ∧ Simplified F s result := by
  obtain ⟨⟨t, confl⟩, hpropagate, hpropagated⟩ := h.exists_propagate
  unfold simplify
  rw [if_neg (by simp [hok]), hpropagate]
  simp only [Option.bind_eq_bind, Option.bind_some]
  have hzero' : t.decisionLevel = 0 := hpropagated.grown.decisionLevel.trans hzero
  cases confl with
  | some confl =>
      refine ⟨_, rfl, nofun, fun _ => ?_⟩
      exact (hpropagated.conflict confl rfl).unsatisfiable hzero'
  | none =>
      have hstable := hpropagated.stable rfl
      rw [if_neg (by simp)]
      split
      next => exact ⟨_, rfl, fun _ => ⟨hstable, hpropagated.grown⟩, nofun⟩
      next =>
        obtain ⟨hlearnts, hgrown⟩ := hstable.dropLearnts hzero'
        have hgrown' := hpropagated.grown.trans hgrown
        have hzero'' := hgrown'.decisionLevel.trans hzero
        cases removeClauses with
        | false =>
            refine ⟨_, rfl, fun _ => ⟨hlearnts.rebuildOrderHeap, ?_⟩, nofun⟩
            exact hgrown'.trans (extends_rebuildOrderHeap _)
        | true =>
            obtain ⟨hclauses, hgrown''⟩ := hlearnts.dropClauses hzero''
            refine ⟨_, rfl, fun _ => ⟨hclauses.rebuildOrderHeap, ?_⟩, nofun⟩
            exact (hgrown'.trans hgrown'').trans (extends_rebuildOrderHeap _)

/-! ## A decision -/

theorem removeMin_some {heap heap' : List Var} {x : Var}
    (h : removeMin choices heap = some (x, heap')) : heap.Perm (x :: heap') := by
  unfold removeMin at h
  split at h
  next y hy =>
    obtain ⟨rfl, rfl⟩ := Prod.mk.inj (Option.some.inj h)
    obtain ⟨hlt, rfl⟩ := List.getElem?_eq_some_iff.mp hy
    exact (List.getElem_cons_eraseIdx_perm hlt).symm
  next => cases h

theorem removeMin_none {heap : List Var} (h : removeMin choices heap = none) : heap = [] := by
  unfold removeMin at h
  split at h
  next => cases h
  next hget =>
    rw [List.getElem?_eq_none_iff] at hget
    by_contra hne
    have hpos := List.length_pos_iff.mpr hne
    exact absurd (Nat.mod_lt _ hpos) (Nat.not_lt.mpr hget)

/-- What `pickBranchLit` returns. -/
structure Picked (s : Solver) (result : Option Lit × Solver) : Prop where
  eq : result.2 = { s with orderHeap := result.2.orderHeap }
  lt : ∀ x ∈ result.2.orderHeap, x < s.nVars
  some : ∀ p, result.1 = some p → s.value p = none ∧ s.Usable p.var ∧
    ∀ x, s.Usable x → s.assigns x = none → x = p.var ∨ x ∈ result.2.orderHeap
  none : result.1 = none → ∀ x, s.Usable x → s.assigns x ≠ none

theorem pickLoop_spec (fuel : ℕ) (hfuel : s.orderHeap.length ≤ fuel)
    (hmem : ∀ x, s.Usable x → s.assigns x = none → x ∈ s.orderHeap)
    (hlt : ∀ x ∈ s.orderHeap, x < s.nVars) : Picked s (pickLoop choices fuel s) := by
  induction fuel generalizing s with
  | zero =>
      have hempty : s.orderHeap = [] := List.length_eq_zero_iff.mp (Nat.le_zero.mp hfuel)
      refine ⟨rfl, hlt, nofun, fun _ x husable hnone => ?_⟩
      exact absurd (hmem x husable hnone) (hempty ▸ List.not_mem_nil)
  | succ fuel ih =>
      unfold pickLoop
      split
      next hmin =>
        refine ⟨rfl, hlt, nofun, fun _ x husable hnone => ?_⟩
        exact absurd (hmem x husable hnone) (removeMin_none hmin ▸ List.not_mem_nil)
      next x heap hmin =>
        have hperm := removeMin_some hmin
        have hlt' : ∀ y ∈ heap, y < s.nVars :=
          fun y hy => hlt y (hperm.mem_iff.mpr (List.mem_cons_of_mem x hy))
        simp only
        split
        next hx =>
          refine ⟨rfl, hlt', fun p hp => ?_, nofun⟩
          cases hp
          refine ⟨value_eq_none_iff.mpr hx.1, ⟨hlt x (hperm.mem_iff.mpr List.mem_cons_self), hx.2⟩,
            fun y husable hnone => ?_⟩
          exact List.mem_cons.mp (hperm.mem_iff.mp (hmem y husable hnone))
        next hx =>
          have hlen := hperm.length_eq
          rw [List.length_cons] at hlen
          have hrest : Picked { s with orderHeap := heap }
              (pickLoop choices fuel { s with orderHeap := heap }) := by
            have hfuel' : heap.length ≤ fuel := by omega
            refine ih hfuel' (fun y husable hnone => ?_) hlt'
            have hy := hperm.mem_iff.mp (hmem y husable hnone)
            refine (List.mem_cons.mp hy).resolve_left ?_
            rintro rfl
            exact hx ⟨hnone, husable.2⟩
          exact ⟨hrest.eq, hrest.lt, hrest.some, hrest.none⟩

/-! ## The weight of the trail -/

/-- The weight of the trail, which a search raises. -/
def weight (s : Solver) : ℕ := levelWeight (fun p => s.level p.var) s.nVars s.trail

theorem Extends.weight_le (h : s.Extends s') : s.weight ≤ s'.weight := by
  unfold weight
  rw [h.nVars, ← levelWeight_congr s.nVars h.level]
  exact levelWeight_le_of_suffix _ h.trail

theorem Inv.weight_le (h : Inv F done s) : s.weight ≤ s.nVars * (s.nVars + 1) ^ s.nVars :=
  levelWeight_le_of_length h.trail.length_le

/-- Every level has a literal, so there are no more levels than variables. -/
theorem Inv.decisionLevel_le (h : Inv F done s) : s.decisionLevel ≤ s.nVars := by
  have hsubset : (List.range s.decisionLevel).map Nat.succ ⊆
      s.trail.map fun p => s.level p.var := by
    intro l hl
    obtain ⟨k, hk, rfl⟩ := List.mem_map.mp hl
    obtain ⟨p, hp, hlevel⟩ := h.decided k (List.mem_range.mp hk)
    exact List.mem_map.mpr ⟨p, hp, hlevel⟩
  have hnodup : ((List.range s.decisionLevel).map Nat.succ).Nodup :=
    List.nodup_range.map Nat.succ_injective
  have hle := (List.subperm_of_subset hnodup hsubset).length_le
  rw [List.length_map, List.length_range, List.length_map] at hle
  exact Nat.le_trans hle h.trail.length_le

theorem Backjumped.weight_lt (h : Backjumped s s') (hinv : Inv F done s) :
    s.weight < s'.weight := by
  obtain ⟨p, -, hlevel, htrail⟩ := h.trail
  have hlt : s'.decisionLevel < s.nVars := Nat.lt_of_lt_of_le h.lt hinv.decisionLevel_le
  have hkept : ∀ q ∈ s.trail.filter (fun q => s.level q.var ≤ s'.decisionLevel),
      s'.level q.var = s.level q.var := by
    intro q hq
    obtain ⟨hq, hle⟩ := List.mem_filter.mp hq
    exact h.level q hq (of_decide_eq_true hle)
  unfold weight
  rw [htrail, levelWeight_cons, h.nVars, hlevel, levelWeight_congr _ hkept]
  exact levelWeight_lt hinv.trail.length_le hlt

/-! ## A pass -/

/-- All the variables that may occur in the clauses have values. -/
def Complete (s : Solver) : Prop := ∀ x, s.Usable x → s.assigns x ≠ none

/-- What the search leaves as it is. -/
structure Frame (s s' : Solver) : Prop where
  nVars : s'.nVars = s.nVars
  decision : s'.decision = s.decision
  ok : s'.ok = s.ok

theorem Frame.trans {s'' : Solver} (h : Frame s s') (h' : Frame s' s'') : Frame s s'' :=
  ⟨h'.nVars.trans h.nVars, h'.decision.trans h.decision, h'.ok.trans h.ok⟩

theorem Extends.frame (h : s.Extends s') : Frame s s' := ⟨h.nVars, h.decision, h.ok⟩

/-- What a pass of the search makes of the state. -/
def PassOk (F : List (List Lit)) (s : Solver) : Pass → Prop
  | .done (some true) s' => Stable F s' ∧ s'.Complete ∧ Frame s s'
  | .done (some false) _ => Unsatisfiable F
  | .done none s' => Stable F s' ∧ s'.decisionLevel = 0 ∧ Frame s s'
  | .next s' => Ready F s' ∧ Frame s s' ∧ s.weight < s'.weight

theorem PassOk.of_extends {pass : Pass} (hpass : PassOk F s' pass) (h : s.Extends s') :
    PassOk F s pass := by
  match pass, hpass with
  | .done (some true) _, ⟨hstable, hcomplete, hframe⟩ =>
      exact ⟨hstable, hcomplete, h.frame.trans hframe⟩
  | .done (some false) _, hunsatisfiable => exact hunsatisfiable
  | .done none _, ⟨hstable, hzero, hframe⟩ => exact ⟨hstable, hzero, h.frame.trans hframe⟩
  | .next _, ⟨hready, hframe, hlt⟩ =>
      exact ⟨hready, h.frame.trans hframe, Nat.lt_of_le_of_lt h.weight_le hlt⟩

theorem Stable.withHeap (h : Stable F s) {heap : List Var}
    (hmem : ∀ x, s.Usable x → s.assigns x = none → x ∈ heap) (hlt : ∀ x ∈ heap, x < s.nVars) :
    Stable F { s with orderHeap := heap } := ⟨h.inv.withHeap hmem hlt, h.qhead⟩

theorem Stable.decide (h : Stable F s) (choices : Choices) : PassOk F s (decide choices s) := by
  have hpicked : Picked s (s.pickBranchLit choices) :=
    pickLoop_spec s.orderHeap.length (Nat.le_refl _) h.inv.order_mem h.inv.order_lt
  unfold Solver.decide
  generalize s.pickBranchLit choices = result at hpicked
  obtain ⟨picked, t⟩ := result
  cases picked with
  | none =>
      have ht := hpicked.eq
      simp only at ht ⊢
      have hnone := hpicked.none rfl
      rw [ht]
      refine ⟨h.withHeap (fun x husable hx => absurd hx (hnone x husable)) hpicked.lt, hnone, ?_⟩
      exact ⟨rfl, rfl, rfl⟩
  | some p =>
      obtain ⟨hp, husable, hmem⟩ := hpicked.some p rfl
      have ht := hpicked.eq
      simp only at ht ⊢
      rw [ht]
      have hassume := h.inv.assume hp husable
      have hlevel : ∀ q ∈ s.trail,
          (s.newDecisionLevel.uncheckedEnqueue p none).level q.var = s.level q.var := by
        intro q hq
        have hp' : s.newDecisionLevel.value p = none := hp
        exact level_uncheckedEnqueue hp' (h.inv.trail.newDecisionLevel.value_eq_true hq)
      have hheap : Inv F (fun q _ => q ∈ s.trail) { s.newDecisionLevel.uncheckedEnqueue p none with
          orderHeap := t.orderHeap } := by
        refine hassume.withHeap (fun x hx hnone => ?_) hpicked.lt
        by_cases heq : x = p.var
        · simp [Solver.uncheckedEnqueue, heq] at hnone
        · refine (hmem x hx ?_).resolve_left heq
          simpa [Solver.uncheckedEnqueue, newDecisionLevel, heq] using hnone
      refine ⟨?_, ⟨rfl, rfl, rfl⟩, ?_⟩
      · exact h.ready_uncheckedEnqueue (t := newDecisionLevel { s with orderHeap := t.orderHeap })
          rfl rfl hheap
      · change s.weight < levelWeight (fun q =>
          (s.newDecisionLevel.uncheckedEnqueue p none).level q.var) s.nVars (p :: s.trail)
        rw [levelWeight_cons, levelWeight_congr s.nVars hlevel]
        exact Nat.lt_add_of_pos_left (Nat.pow_pos (Nat.succ_pos _))

/-- A restart. -/
theorem Stable.restart (h : Stable F s) :
    Stable F (s.cancelUntil 0) ∧ (s.cancelUntil 0).decisionLevel = 0 ∧
      Frame s (s.cancelUntil 0) := by
  rcases Nat.eq_zero_or_pos s.decisionLevel with hzero | hpos
  · rw [cancelUntil_of_le (Nat.le_of_eq hzero)]
    exact ⟨h, hzero, rfl, rfl, rfl⟩
  · refine ⟨h.inv.stable_cancelUntil hpos, ?_⟩
    obtain ⟨heap, heq, -⟩ := h.inv.trail.exists_cancelUntil hpos
    rw [heq]
    exact ⟨decisionLevel_backTo (Nat.zero_le _), rfl, rfl, rfl⟩

/-- What follows `simplify` in a pass. -/
theorem Simplified.exists_pass {result : Bool × Solver} (h : Simplified F s result)
    (choices : Choices) :
    ∃ pass, (if result.1 = false then some (Pass.done (some false) result.2)
      else some (Solver.decide choices (match choices.reduce with
        | some may => result.2.reduceDB may
        | none => result.2))) = some pass ∧ PassOk F s pass := by
  obtain ⟨ok, t⟩ := result
  cases ok with
  | false => exact ⟨_, rfl, h.unsatisfiable rfl⟩
  | true =>
      obtain ⟨hstable, hgrown⟩ := h.stable rfl
      rw [if_neg (by simp)]
      refine ⟨_, rfl, PassOk.of_extends ?_ hgrown⟩
      cases choices.reduce with
      | none => exact hstable.decide choices
      | some may =>
          obtain ⟨hreduced, hgrown'⟩ := hstable.reduceDB may
          exact (hreduced.decide choices).of_extends hgrown'

theorem Ready.exists_searchPass (h : Ready F s) (hok : s.ok = true) (choices : Choices) :
    ∃ pass, searchPass choices s = some pass ∧ PassOk F s pass := by
  obtain ⟨⟨t, confl⟩, hpropagate, hpropagated⟩ := h.exists_propagate
  have hgrown := hpropagated.grown
  unfold searchPass
  rw [hpropagate]
  simp only [Option.bind_eq_bind, Option.bind_some]
  cases confl with
  | some confl =>
      have hconflict := hpropagated.conflict confl rfl
      simp only
      split
      next hzero => exact ⟨_, rfl, hconflict.unsatisfiable hzero⟩
      next hdecided =>
        obtain ⟨u, hresolve, hready, hback⟩ :=
          hconflict.exists_resolveConflict (Nat.pos_of_ne_zero hdecided)
        rw [hresolve]
        refine ⟨_, rfl, PassOk.of_extends ?_ hgrown⟩
        exact ⟨hready, ⟨hback.nVars, hback.decision, hback.ok⟩, hback.weight_lt hconflict.inv⟩
  | none =>
      have hstable := hpropagated.stable rfl
      simp only
      split
      next hrestart =>
        refine ⟨_, rfl, PassOk.of_extends ?_ hgrown⟩
        obtain ⟨hcancel, hzero, hframe⟩ := hstable.restart
        exact ⟨hcancel, hzero, hframe⟩
      next hrestart =>
        have hpass : ∀ result, Simplified F t result → ∃ pass,
            (if result.1 = false then some (Pass.done (some false) result.2)
            else some (Solver.decide choices (match choices.reduce with
              | some may => result.2.reduceDB may
              | none => result.2))) = some pass ∧ PassOk F s pass := by
          intro result hsimplified
          obtain ⟨pass, hpass, hok⟩ := hsimplified.exists_pass choices
          exact ⟨pass, hpass, hok.of_extends hgrown⟩
        split
        next hzero =>
          obtain ⟨result, hresult, hsimplified⟩ :=
            hstable.ready.exists_simplify (hgrown.ok.trans hok) hzero choices.simplify true
          rw [hresult]
          exact hpass result hsimplified
        next => exact hpass (true, t) ⟨fun _ => ⟨hstable, .refl t⟩, nofun⟩

/-! ## A run -/

theorem PassOk.of_frame {status : Option Bool} {t : Solver}
    (hpass : PassOk F s' (.done status t)) (h : Frame s s') : PassOk F s (.done status t) := by
  match status, hpass with
  | some true, ⟨hstable, hcomplete, hframe⟩ => exact ⟨hstable, hcomplete, h.trans hframe⟩
  | some false, hunsatisfiable => exact hunsatisfiable
  | none, ⟨hstable, hzero, hframe⟩ => exact ⟨hstable, hzero, h.trans hframe⟩

/-- What a search returns, whatever is chosen in its passes. -/
theorem Ready.search (fuel : ℕ) {choices : ℕ → Choices} {status : Option Bool} {t : Solver}
    (h : Ready F s) (hok : s.ok = true)
    (hsearch : Solver.search choices fuel s = some (status, t)) :
    PassOk F s (.done status t) := by
  induction fuel generalizing s choices with
  | zero => cases hsearch
  | succ fuel ih =>
      obtain ⟨pass, hpass, hpassOk⟩ := h.exists_searchPass hok (choices 0)
      unfold Solver.search at hsearch
      rw [hpass] at hsearch
      cases pass with
      | done status' u =>
          obtain ⟨rfl, rfl⟩ := Prod.mk.inj (Option.some.inj hsearch)
          exact hpassOk
      | next u =>
          obtain ⟨hready, hframe, -⟩ := hpassOk
          exact (ih hready (hframe.ok.trans hok) hsearch).of_frame hframe

/-- A search ends, whatever is chosen in its passes: the weight of the trail grows in
each pass that goes on, and it is bounded. -/
theorem Ready.exists_search (fuel : ℕ) (h : Ready F s) (hok : s.ok = true) (choices : ℕ → Choices)
    (hfuel : s.nVars * (s.nVars + 1) ^ s.nVars < fuel + s.weight) :
    ∃ result, Solver.search choices fuel s = some result := by
  induction fuel generalizing s choices with
  | zero =>
      have hle := h.weight_le
      omega
  | succ fuel ih =>
      obtain ⟨pass, hpass, hpassOk⟩ := h.exists_searchPass hok (choices 0)
      unfold Solver.search
      rw [hpass]
      cases pass with
      | done status t => exact ⟨_, rfl⟩
      | next t =>
          obtain ⟨hready, hframe, hlt⟩ := hpassOk
          refine ih hready (hframe.ok.trans hok) _ ?_
          rw [hframe.nVars]
          omega

end Solver

end Glucose

end Sato
