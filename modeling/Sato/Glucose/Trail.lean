import Mathlib.Data.List.GetD
import Mathlib.Data.List.Perm.Subperm
import Sato.Foundation.Levels
import Sato.Source.Glucose.Solver

/-! # The trail

The trail lists the true literals, those of the higher decision levels first. -/

open Foundation

namespace Sato

namespace Glucose

/-- A variable has two literals. -/
theorem Lit.eq_or_eq_neg {p q : Lit} (h : p.var = q.var) : p = q ∨ p = -q := by
  obtain ⟨x, a⟩ := p
  obtain ⟨y, b⟩ := q
  obtain rfl : x = y := h
  cases a <;> cases b <;> simp [Neg.neg]

theorem Lit.neg_ne (p : Lit) : -p ≠ p := by
  intro h
  simpa using congrArg Lit.sign h

namespace Solver

variable {s : Solver} {p q : Lit}

/-! ## Values -/

theorem value_neg (s : Solver) (p : Lit) : s.value (-p) = (s.value p).map Bool.not := by
  simp only [value, Lit.var_neg, Lit.sign_neg]
  cases s.assigns p.var <;> simp

@[simp] theorem value_neg_eq_true : s.value (-p) = some true ↔ s.value p = some false := by
  simp [value_neg]

@[simp] theorem value_neg_eq_false : s.value (-p) = some false ↔ s.value p = some true := by
  simp [value_neg]

@[simp] theorem value_neg_eq_none : s.value (-p) = none ↔ s.value p = none := by
  simp [value_neg]

theorem value_eq_none_iff : s.value p = none ↔ s.assigns p.var = none := by
  simp [value]

theorem value_eq_none (htrue : s.value p ≠ some true) (hfalse : s.value p ≠ some false) :
    s.value p = none := by
  cases hp : s.value p with
  | none => rfl
  | some b => cases b <;> contradiction

/-- A literal with a value and one without have different variables. -/
theorem var_ne_of_value (hp : s.value p = none) (hq : s.value q ≠ none) : q.var ≠ p.var := by
  intro h
  rw [value_eq_none_iff] at hp
  rw [Ne, value_eq_none_iff, h] at hq
  exact hq hp

/-! ## Assignment of a literal -/

section Enqueue

variable {reason : Option CRef}

@[simp] theorem trail_uncheckedEnqueue :
    (s.uncheckedEnqueue p reason).trail = p :: s.trail := rfl

@[simp] theorem decisionLevel_uncheckedEnqueue :
    (s.uncheckedEnqueue p reason).decisionLevel = s.decisionLevel := rfl

/-- The literal that is enqueued becomes true. -/
@[simp] theorem value_uncheckedEnqueue_self :
    (s.uncheckedEnqueue p reason).value p = some true := by
  cases hsign : p.sign <;> simp [uncheckedEnqueue, value, hsign]

theorem value_uncheckedEnqueue_of_ne (h : q.var ≠ p.var) :
    (s.uncheckedEnqueue p reason).value q = s.value q := by
  simp [uncheckedEnqueue, value, Function.update_of_ne h]

@[simp] theorem level_uncheckedEnqueue_self :
    (s.uncheckedEnqueue p reason).level p.var = s.decisionLevel := by
  simp [uncheckedEnqueue, level]

theorem level_uncheckedEnqueue_of_ne {x : Var} (h : x ≠ p.var) :
    (s.uncheckedEnqueue p reason).level x = s.level x := by
  simp [uncheckedEnqueue, level, Function.update_of_ne h]

@[simp] theorem reason_uncheckedEnqueue_self :
    (s.uncheckedEnqueue p reason).reason p.var = reason := by
  simp [uncheckedEnqueue, Solver.reason]

theorem reason_uncheckedEnqueue_of_ne {x : Var} (h : x ≠ p.var) :
    (s.uncheckedEnqueue p reason).reason x = s.reason x := by
  simp [uncheckedEnqueue, Solver.reason, Function.update_of_ne h]

/-- What has a value keeps it. -/
theorem value_uncheckedEnqueue (hp : s.value p = none) {b : Bool} (hq : s.value q = some b) :
    (s.uncheckedEnqueue p reason).value q = some b := by
  rw [value_uncheckedEnqueue_of_ne (var_ne_of_value hp (by simp [hq])), hq]

/-- What has a value keeps its level. -/
theorem level_uncheckedEnqueue (hp : s.value p = none) {b : Bool} (hq : s.value q = some b) :
    (s.uncheckedEnqueue p reason).level q.var = s.level q.var :=
  level_uncheckedEnqueue_of_ne (var_ne_of_value hp (by simp [hq]))

end Enqueue

/-! ## The invariant -/

/-- A variable that may occur in the clauses. -/
def Usable (s : Solver) (x : Var) : Prop := x < s.nVars ∧ s.decision x = true

/-- The trail lists the true literals, one for each variable, from the last decision level
down. An entry of `trailLim` counts the literals up to its level. -/
structure TrailOk (s : Solver) : Prop where
  nodup : (s.trail.map Lit.var).Nodup
  mem_iff : ∀ p, p ∈ s.trail ↔ s.value p = some true
  descending : Descending (fun p => s.level p.var) s.trail
  level_le : ∀ p ∈ s.trail, s.level p.var ≤ s.decisionLevel
  lim : ∀ l < s.decisionLevel,
    s.trailLim.getD l 0 = s.trail.countP fun p => s.level p.var ≤ l
  usable : ∀ p ∈ s.trail, s.Usable p.var
  qhead_le : s.qhead ≤ s.trail.length

namespace TrailOk

theorem value_eq_true (h : s.TrailOk) (hp : p ∈ s.trail) : s.value p = some true :=
  (h.mem_iff p).mp hp

/-- A literal is false when its negation is on the trail. -/
theorem neg_mem_iff (h : s.TrailOk) : -p ∈ s.trail ↔ s.value p = some false := by
  rw [h.mem_iff, value_neg_eq_true]

theorem not_mem_of_none (h : s.TrailOk) (hp : s.value p = none) : p ∉ s.trail := by
  simp [h.mem_iff, hp]

/-- The trail has at most one literal for each variable. -/
theorem length_le (h : s.TrailOk) : s.trail.length ≤ s.nVars := by
  have hsubset : s.trail.map Lit.var ⊆ List.range s.nVars := by
    intro x hx
    obtain ⟨p, hp, rfl⟩ := List.mem_map.mp hx
    exact List.mem_range.mpr (h.usable p hp).1
  simpa using (List.subperm_of_subset h.nodup hsubset).length_le

theorem eq_of_var (h : s.TrailOk) (hp : p ∈ s.trail) (hq : q ∈ s.trail) (hvar : p.var = q.var) :
    p = q := by
  rcases Lit.eq_or_eq_neg hvar with rfl | rfl
  · rfl
  · rw [h.neg_mem_iff, h.value_eq_true hq] at hp
    simp at hp

/-- Assigning a literal that has no value. -/
theorem uncheckedEnqueue (h : s.TrailOk) (hp : s.value p = none) (husable : s.Usable p.var)
    (reason : Option CRef) : (s.uncheckedEnqueue p reason).TrailOk := by
  have hlevel : ∀ q ∈ s.trail, (s.uncheckedEnqueue p reason).level q.var = s.level q.var :=
    fun q hq => level_uncheckedEnqueue hp (h.value_eq_true hq)
  refine ⟨?_, fun q => ?_, ?_, ?_, fun l hl => ?_, ?_, Nat.le_succ_of_le h.qhead_le⟩
  · rw [trail_uncheckedEnqueue, List.map_cons, List.nodup_cons]
    refine ⟨fun hmem => ?_, h.nodup⟩
    obtain ⟨q, hq, hvar⟩ := List.mem_map.mp hmem
    exact var_ne_of_value hp (by simp [h.value_eq_true hq]) hvar
  · rw [trail_uncheckedEnqueue, List.mem_cons]
    by_cases hvar : q.var = p.var
    · rcases Lit.eq_or_eq_neg hvar with rfl | rfl
      · simp
      · have hnot : -p ∉ s.trail := h.not_mem_of_none (by simpa using hp)
        simp [hnot, Lit.neg_ne]
    · rw [value_uncheckedEnqueue_of_ne hvar, h.mem_iff]
      exact or_iff_right fun heq => hvar (congrArg Lit.var heq)
  · rw [trail_uncheckedEnqueue, Descending, List.pairwise_cons]
    constructor
    · intro q hq
      rw [hlevel q hq, level_uncheckedEnqueue_self]
      exact h.level_le q hq
    · apply List.Pairwise.imp_of_mem _ h.descending
      intro a b ha hb hle
      rwa [hlevel a ha, hlevel b hb]
  · rw [trail_uncheckedEnqueue, List.forall_mem_cons, level_uncheckedEnqueue_self]
    refine ⟨Nat.le_refl _, fun q hq => ?_⟩
    rw [hlevel q hq]
    exact h.level_le q hq
  · have hhead : ¬ s.decisionLevel ≤ l := Nat.not_le_of_lt hl
    rw [trail_uncheckedEnqueue, List.countP_cons_of_neg (by simpa using hhead)]
    rw [List.countP_congr fun q hq => by rw [hlevel q hq]]
    exact h.lim l hl
  · rw [trail_uncheckedEnqueue, List.forall_mem_cons]
    exact ⟨husable, h.usable⟩

/-- A new level is above every literal of the trail. -/
theorem newDecisionLevel (h : s.TrailOk) : s.newDecisionLevel.TrailOk := by
  have hlevel : s.newDecisionLevel.decisionLevel = s.decisionLevel + 1 := by
    simp [Solver.newDecisionLevel, decisionLevel]
  refine ⟨h.nodup, h.mem_iff, h.descending, fun p hp => ?_, fun l hl => ?_, h.usable, h.qhead_le⟩
  · rw [hlevel]
    exact Nat.le_succ_of_le (h.level_le p hp)
  · rw [hlevel] at hl
    rcases Nat.lt_succ_iff_lt_or_eq.mp hl with hlt | rfl
    · exact (List.getD_append _ _ _ _ hlt).trans (h.lim l hlt)
    · have hall : s.trail.countP (fun p => s.level p.var ≤ s.decisionLevel) = s.trail.length :=
        List.countP_eq_length.mpr fun p hp => decide_eq_true (h.level_le p hp)
      refine Eq.trans ?_ hall.symm
      simp [Solver.newDecisionLevel, decisionLevel]

end TrailOk

/-! ## Going back -/

/-- The heap has got the variables among the given ones that may be decided. -/
structure Requeued (s : Solver) (xs heap : List Var) : Prop where
  subset : s.orderHeap ⊆ heap
  origin : ∀ x ∈ heap, x ∈ s.orderHeap ∨ x ∈ xs
  decision : ∀ x ∈ xs, s.decision x = true → x ∈ heap

/-- Taking back one value changes the value and, perhaps, the heap. -/
theorem exists_unassign (s : Solver) (p : Lit) :
    ∃ heap, s.unassign p = { s with
        assigns := Function.update s.assigns p.var none
        orderHeap := heap } ∧ s.Requeued [p.var] heap := by
  unfold unassign insertVarOrder
  split
  next h =>
    refine ⟨_, rfl, List.subset_append_left _ _, fun x hx => List.mem_append.mp hx, ?_⟩
    intro x hx _
    exact List.mem_append_right _ hx
  next h =>
    refine ⟨_, rfl, List.Subset.refl _, fun x hx => Or.inl hx, ?_⟩
    intro x hx hdecision
    by_contra hnot
    rw [List.mem_singleton.mp hx] at hnot hdecision
    exact h ⟨hnot, hdecision⟩

/-- Taking back values one after the other takes back all of them. -/
theorem exists_foldl_unassign (ls : List Lit) (s : Solver) :
    ∃ heap, ls.foldl unassign s = { s with
        assigns := fun x => if x ∈ ls.map Lit.var then none else s.assigns x
        orderHeap := heap } ∧ s.Requeued (ls.map Lit.var) heap := by
  induction ls generalizing s with
  | nil =>
      refine ⟨s.orderHeap, by simp, List.Subset.refl _, fun x hx => Or.inl hx, ?_⟩
      simp
  | cons p ls ih =>
      obtain ⟨first, hunassign, hfirst⟩ := s.exists_unassign p
      obtain ⟨heap, hfold, hheap⟩ := ih (s.unassign p)
      rw [hunassign] at hheap
      refine ⟨heap, ?_, ?_, ?_, ?_⟩
      · rw [List.foldl_cons, hfold, hunassign]
        congr 1
        funext x
        by_cases hx : x = p.var <;> simp [hx]
      · exact List.Subset.trans hfirst.subset hheap.subset
      · intro x hx
        rw [List.map_cons, List.mem_cons]
        rcases hheap.origin x hx with hmem | hmem
        · rcases hfirst.origin x hmem with hmem | hmem
          · exact Or.inl hmem
          · exact Or.inr (Or.inl (List.mem_singleton.mp hmem))
        · exact Or.inr (Or.inr hmem)
      · intro x hx hdecision
        rcases List.mem_cons.mp hx with rfl | hmem
        · exact hheap.subset (hfirst.decision _ (List.mem_singleton_self _) hdecision)
        · exact hheap.decision x hmem hdecision

/-- The state at an earlier level, up to the heap. -/
def backTo (s : Solver) (l : ℕ) (heap : List Var) : Solver :=
  { s with
    assigns := fun x => if s.level x ≤ l then s.assigns x else none
    orderHeap := heap
    qhead := (s.trail.filter fun p => s.level p.var ≤ l).length
    trail := s.trail.filter fun p => s.level p.var ≤ l
    trailLim := s.trailLim.take l }

/-- The variables whose values are taken back. -/
def abandoned (s : Solver) (l : ℕ) : List Var :=
  (s.trail.filter fun p => l < s.level p.var).map Lit.var

theorem TrailOk.mem_abandoned (h : s.TrailOk) {l : ℕ} {x : Var} :
    x ∈ s.abandoned l ↔ l < s.level x ∧ s.assigns x ≠ none := by
  unfold abandoned
  constructor
  · intro hx
    obtain ⟨p, hp, rfl⟩ := List.mem_map.mp hx
    rw [List.mem_filter, decide_eq_true_eq] at hp
    refine ⟨hp.2, ?_⟩
    rw [Ne, ← value_eq_none_iff, h.value_eq_true hp.1]
    simp
  · rintro ⟨hlevel, hsome⟩
    obtain ⟨b, hb⟩ := Option.ne_none_iff_exists'.mp hsome
    have hmem : (⟨x, !b⟩ : Lit) ∈ s.trail := by
      rw [h.mem_iff]
      simp [value, hb]
    exact List.mem_map.mpr ⟨_, List.mem_filter.mpr ⟨hmem, decide_eq_true hlevel⟩, rfl⟩

/-- `cancelUntil` goes back to a lower level. -/
theorem TrailOk.exists_cancelUntil (h : s.TrailOk) {l : ℕ} (hl : l < s.decisionLevel) :
    ∃ heap, s.cancelUntil l = s.backTo l heap ∧ s.Requeued (s.abandoned l) heap := by
  obtain ⟨heap, hfold, hheap⟩ :=
    exists_foldl_unassign (s.trail.take (s.trail.length - s.trailLim.getD l 0)) s
  have htake := h.descending.filter_gt l
  have hdrop := h.descending.filter_le l
  rw [← h.lim l hl] at htake hdrop
  rw [← htake] at hfold hheap
  refine ⟨heap, ?_, hheap⟩
  have hlen : (s.trail.filter fun p => s.level p.var ≤ l).length = s.trailLim.getD l 0 := by
    rw [h.lim l hl, List.countP_eq_length_filter]
  unfold cancelUntil backTo
  rw [if_pos hl, hlen, hdrop]
  simp only [← htake, hfold]
  congr 1
  funext x
  change (if x ∈ s.abandoned l then none else s.assigns x) = _
  by_cases hx : s.assigns x = none
  · simp [hx]
  · by_cases hle : s.level x ≤ l
    · rw [if_pos hle, if_neg fun hmem => absurd (h.mem_abandoned.mp hmem).1 (Nat.not_lt.mpr hle)]
    · rw [if_neg hle, if_pos (h.mem_abandoned.mpr ⟨Nat.lt_of_not_le hle, hx⟩)]

theorem cancelUntil_of_le {l : ℕ} (hl : s.decisionLevel ≤ l) : s.cancelUntil l = s := by
  unfold cancelUntil
  rw [if_neg (Nat.not_lt.mpr hl)]

section BackTo

variable {l : ℕ} {heap : List Var}

theorem value_backTo (hq : s.level q.var ≤ l) : (s.backTo l heap).value q = s.value q := by
  simp [backTo, value, hq]

theorem value_backTo_eq_none (hq : l < s.level q.var) : (s.backTo l heap).value q = none := by
  simp [backTo, value, Nat.not_le_of_lt hq]

/-- The values up to the level are kept, and no others. -/
theorem value_backTo_eq_some {b : Bool} :
    (s.backTo l heap).value q = some b ↔ s.value q = some b ∧ s.level q.var ≤ l := by
  by_cases hq : s.level q.var ≤ l
  · simp [value_backTo hq, hq]
  · simp [value_backTo_eq_none (Nat.lt_of_not_le hq), hq]

theorem mem_trail_backTo :
    p ∈ (s.backTo l heap).trail ↔ p ∈ s.trail ∧ s.level p.var ≤ l := by
  simp [backTo]

theorem decisionLevel_backTo (hl : l ≤ s.decisionLevel) :
    (s.backTo l heap).decisionLevel = l := by
  exact (List.length_take ..).trans (Nat.min_eq_left hl)

/-- Going back keeps the invariant. -/
theorem TrailOk.backTo (h : s.TrailOk) (hl : l ≤ s.decisionLevel) : (s.backTo l heap).TrailOk := by
  have hsublist : (s.backTo l heap).trail.Sublist s.trail := List.filter_sublist
  refine ⟨h.nodup.sublist (hsublist.map _), fun p => ?_, h.descending.sublist hsublist, ?_, ?_, ?_,
    Nat.le_refl _⟩
  · rw [mem_trail_backTo, value_backTo_eq_some, h.mem_iff]
  · intro p hp
    rw [decisionLevel_backTo hl]
    exact (mem_trail_backTo.mp hp).2
  · intro k hk
    rw [decisionLevel_backTo hl] at hk
    have hget : (s.trailLim.take l).getD k 0 = s.trailLim.getD k 0 := by
      simp [List.getD_eq_getElem?_getD, hk]
    refine hget.trans ((h.lim k (Nat.lt_of_lt_of_le hk hl)).trans ?_)
    change _ = (s.trail.filter fun p => s.level p.var ≤ l).countP fun p => s.level p.var ≤ k
    rw [List.countP_filter]
    apply List.countP_congr
    intro p _
    simp only [decide_eq_true_eq, Bool.and_eq_true]
    omega
  · intro p hp
    exact h.usable p (mem_trail_backTo.mp hp).1

end BackTo

/-! ## The part of the trail that has been propagated -/

/-- The literals before `qhead`. -/
def processed (s : Solver) : List Lit := s.trail.drop (s.trail.length - s.qhead)

theorem processed_uncheckedEnqueue (h : s.qhead ≤ s.trail.length) (p : Lit)
    (reason : Option CRef) : (s.uncheckedEnqueue p reason).processed = s.processed := by
  have hlen : (p :: s.trail).length - s.qhead = s.trail.length - s.qhead + 1 := by
    rw [List.length_cons]
    omega
  change (p :: s.trail).drop ((p :: s.trail).length - s.qhead) = _
  rw [hlen, List.drop_succ_cons, processed]

theorem processed_eq_trail (h : s.trail.length ≤ s.qhead) : s.processed = s.trail := by
  rw [processed, Nat.sub_eq_zero_of_le h, List.drop_zero]

end Solver

end Glucose

end Sato
