import Mathlib.Data.List.Nodup
import Sato.Glucose.Invariant
import Sato.Source.Glucose.Propagate

/-! # Propagation

A pass over the watchers of a literal leaves each clause settled that was visited, or
it finds a false one. -/

open Foundation

namespace Sato

namespace Glucose

namespace Solver

variable {F : List (List Lit)} {done : Lit → CRef → Prop} {s : Solver} {p q : Lit}

/-- No watcher belongs to a removed clause. -/
def Clean (s : Solver) : Prop :=
  ∀ q, (∀ cr ∈ (s.watches q).map Watcher.cref, s.mark cr = false) ∧
    ∀ cr ∈ (s.watchesBin q).map Watcher.cref, s.mark cr = false

/-- A clause without a true or an undefined literal. -/
def Falsified (s : Solver) (cr : CRef) : Prop :=
  s.Live cr ∧ ∀ q ∈ s.ca cr, s.value q = some false

/-! ## Growth of the trail -/

/-- The trail has grown at its last level. -/
structure Extends (s s' : Solver) : Prop where
  trail : s.trail <:+ s'.trail
  level : ∀ p ∈ s.trail, s'.level p.var = s.level p.var
  trailLim : s'.trailLim = s.trailLim
  nVars : s'.nVars = s.nVars
  decision : s'.decision = s.decision
  ok : s'.ok = s.ok

namespace Extends

theorem refl (s : Solver) : s.Extends s :=
  ⟨List.suffix_refl _, fun _ _ => rfl, rfl, rfl, rfl, rfl⟩

theorem trans {s' s'' : Solver} (h : s.Extends s') (h' : s'.Extends s'') : s.Extends s'' := by
  refine ⟨h.trail.trans h'.trail, fun p hp => ?_, h'.trailLim.trans h.trailLim,
    h'.nVars.trans h.nVars, h'.decision.trans h.decision, h'.ok.trans h.ok⟩
  exact (h'.level p (h.trail.subset hp)).trans (h.level p hp)

theorem decisionLevel {s' : Solver} (h : s.Extends s') : s'.decisionLevel = s.decisionLevel :=
  congrArg List.length h.trailLim

theorem uncheckedEnqueue (htrail : s.TrailOk) (hp : s.value p = none) (reason : Option CRef) :
    s.Extends (s.uncheckedEnqueue p reason) :=
  ⟨List.suffix_cons p _, fun _ hq => level_uncheckedEnqueue hp (htrail.value_eq_true hq),
    rfl, rfl, rfl, rfl⟩

/-- What is true stays true. -/
theorem value {s' : Solver} (h : s.Extends s') (htrail : s.TrailOk) (htrail' : s'.TrailOk)
    (hp : s.value p = some true) : s'.value p = some true :=
  htrail'.value_eq_true (h.trail.subset ((htrail.mem_iff p).mpr hp))

end Extends

theorem processed_of_suffix {s' : Solver} (htrail : s.trail <:+ s'.trail)
    (hqhead : s'.qhead = s.qhead) (hle : s.qhead ≤ s.trail.length) :
    s'.processed = s.processed := by
  obtain ⟨newer, hnewer⟩ := htrail
  have hlen : s'.trail.length - s'.qhead = newer.length + (s.trail.length - s.qhead) := by
    rw [← hnewer, List.length_append, hqhead]
    omega
  rw [processed, hlen, ← hnewer, List.drop_length_add_append, processed]

/-! ## Binary clauses -/

/-- What a loop over watchers keeps. -/
structure Stepped (F : List (List Lit)) (done : Lit → CRef → Prop) (s s' : Solver) : Prop where
  inv : Inv F done s'
  clean : s'.Clean
  grown : s.Extends s'

theorem implies_of_binary {cr : CRef} {b : Lit} (hperm : (s.ca cr).Perm [-p, b])
    (hp : p ∈ s.trail) : Implies (s.ca cr) b s.trail := by
  refine ⟨hperm.mem_iff.mpr (by simp), fun hlen => ?_, fun q hq hne => ?_⟩
  · rw [hperm.length_eq] at hlen
    exact absurd hlen (Nat.lt_irrefl 2)
  · rcases List.mem_pair.mp (hperm.mem_iff.mp hq) with rfl | rfl
    · rwa [neg_neg]
    · exact absurd rfl hne

/-- The loop over the binary clauses of a true literal. -/
theorem propagateBinary_spec (ws : List Watcher) (h : Inv F done s) (hclean : s.Clean)
    (hp : p ∈ s.trail) (hws : ∀ w ∈ ws, w ∈ s.watchesBin p) :
    Stepped F done s (propagateBinary ws s).1 ∧
      (propagateBinary ws s).1.qhead = s.qhead ∧
      (propagateBinary ws s).1.watchesBin = s.watchesBin ∧
      ((propagateBinary ws s).2 = none →
        ∀ w ∈ ws, (propagateBinary ws s).1.value w.blocker = some true) ∧
      ∀ confl, (propagateBinary ws s).2 = some confl →
        (propagateBinary ws s).1.Falsified confl := by
  induction ws generalizing s with
  | nil => exact ⟨⟨h, hclean, .refl s⟩, rfl, rfl, fun _ => List.forall_mem_nil _, nofun⟩
  | cons w ws ih =>
      obtain ⟨hw, hws⟩ := List.forall_mem_cons.mp hws
      obtain ⟨hlive, hperm⟩ := h.watches.binary p w hw ((hclean p).2 _ (List.mem_map_of_mem hw))
      unfold propagateBinary
      cases hv : s.value w.blocker with
      | none =>
          have hnext := h.uncheckedEnqueue_implied hv hlive (implies_of_binary hperm hp)
          obtain ⟨hstep, hqhead, hbin, hnone, hconfl⟩ :=
            ih hnext hclean (List.mem_cons_of_mem _ hp) hws
          have hgrown := Extends.uncheckedEnqueue h.trail hv (some w.cref)
          refine ⟨⟨hstep.inv, hstep.clean, hgrown.trans hstep.grown⟩, hqhead, hbin, fun hr => ?_,
            hconfl⟩
          rw [List.forall_mem_cons]
          refine ⟨?_, hnone hr⟩
          exact hstep.grown.value hnext.trail hstep.inv.trail value_uncheckedEnqueue_self
      | some b =>
          cases b with
          | true =>
              obtain ⟨hstep, hqhead, hbin, hnone, hconfl⟩ := ih h hclean hp hws
              refine ⟨hstep, hqhead, hbin, fun hr => ?_, hconfl⟩
              rw [List.forall_mem_cons]
              exact ⟨hstep.grown.value h.trail hstep.inv.trail hv, hnone hr⟩
          | false =>
              refine ⟨⟨h, hclean, .refl s⟩, rfl, rfl, nofun, fun confl hr => ?_⟩
              cases hr
              refine ⟨hlive, fun q hq => ?_⟩
              rcases List.mem_pair.mp (hperm.mem_iff.mp hq) with rfl | rfl
              · rw [value_neg_eq_false]
                exact h.trail.value_eq_true hp
              · exact hv

/-! ## The search for another literal to watch -/

theorem findWatch_none {falseLit : Lit} {ls : List Lit} (h : findWatch s falseLit ls = none) :
    ∀ q ∈ ls, s.value q = some false := by
  induction ls with
  | nil => exact List.forall_mem_nil _
  | cons a ls ih =>
      unfold findWatch at h
      split at h
      · exact nomatch h
      next ha =>
        rw [Option.map_eq_none_iff] at h
        exact List.forall_mem_cons.mpr ⟨not_not.mp ha, ih h⟩

theorem findWatch_some {falseLit : Lit} {ls ls' : List Lit}
    (h : findWatch s falseLit ls = some (q, ls')) :
    q ∈ ls ∧ s.value q ≠ some false ∧ (q :: ls').Perm (falseLit :: ls) := by
  induction ls generalizing ls' with
  | nil => exact nomatch h
  | cons a ls ih =>
      unfold findWatch at h
      split at h
      next ha =>
        obtain ⟨rfl, rfl⟩ := Prod.mk.inj (Option.some.inj h)
        exact ⟨List.mem_cons_self, ha, List.Perm.swap _ _ _⟩
      next =>
        obtain ⟨found, hfound, heq⟩ := Option.map_eq_some_iff.mp h
        obtain ⟨rfl, rfl⟩ := Prod.mk.inj heq
        obtain ⟨hmem, hvalue, hperm⟩ := ih hfound
        refine ⟨List.mem_cons_of_mem _ hmem, hvalue, ?_⟩
        exact (List.Perm.swap _ _ _).trans ((hperm.cons a).trans (List.Perm.swap _ _ _))

/-! ## Watched clauses -/

def withWatches (s : Solver) (p : Lit) (ws : List Watcher) : Solver :=
  { s with watches := Function.update s.watches p ws }

/-- The state after the clause of a watcher has got another literal to watch. -/
def moved (s : Solver) (w : Watcher) (first q : Lit) (tail : List Lit) : Solver :=
  { s with
    ca := Function.update s.ca w.cref (first :: q :: tail)
    watches := pushWatch s.watches (-q) ⟨w.cref, first⟩ }

/-- The literal has been propagated in the clauses that are not to be visited. -/
def upTo (done : Lit → CRef → Prop) (p : Lit) (ws : List Watcher) : Lit → CRef → Prop :=
  fun q cr => done q cr ∨ q = p ∧ cr ∉ ws.map Watcher.cref

/-- A visited clause is settled, unless the literal is not watched in it any more. -/
theorem Inv.visited {w : Watcher} {ws : List Watcher} (h : Inv F (upTo done p (w :: ws)) s)
    (hp : p ∈ s.trail)
    (hw : s.Live w.cref → -p ∈ (s.ca w.cref).take 2 → s.Settled w.cref (-p)) :
    Inv F (upTo done p ws) s := by
  refine h.extend ?_ ?_ fun cr hlive x hx hdone => ?_
  · rintro q cr (hdone | ⟨rfl, -⟩)
    · exact h.done_mem q cr (Or.inl hdone)
    · exact hp
  · rintro q cr (hdone | ⟨rfl, hcr⟩)
    · exact Or.inl hdone
    · exact Or.inr ⟨rfl, fun hmem => hcr (List.mem_cons_of_mem _ hmem)⟩
  · by_cases hcr : -x = p ∧ cr = w.cref
    · obtain ⟨hxp, rfl⟩ := hcr
      have hx' : x = -p := neg_eq_iff_eq_neg.mp hxp
      subst hx'
      exact hw hlive hx
    · refine h.settled cr hlive x hx (hdone.imp_right fun hmem => ⟨hmem.1, ?_⟩)
      rw [List.map_cons, List.mem_cons, not_or]
      exact ⟨fun heq => hcr ⟨hmem.1, heq⟩, hmem.2⟩

theorem Inv.withQhead (h : Inv F done s) {n : ℕ} (hn : n ≤ s.trail.length) :
    Inv F done { s with qhead := n } where
  trail := ⟨h.trail.nodup, h.trail.mem_iff, h.trail.descending, h.trail.level_le, h.trail.lim,
    h.trail.usable, hn⟩
  decided := h.decided
  clauses := ⟨h.clauses.length, h.clauses.nodup, h.clauses.usable, h.clauses.live,
    h.clauses.learnt, h.clauses.distinct, h.clauses.fresh⟩
  reasons := h.reasons
  watches := ⟨h.watches.mem_iff, h.watches.blocker, h.watches.nodup, h.watches.binary,
    h.watches.binary_mem⟩
  settled := h.settled
  done_mem := h.done_mem
  earlier := h.earlier
  represents := ⟨h.represents.clause, h.represents.unit, h.represents.satisfies⟩
  order_mem := h.order_mem
  order_lt := h.order_lt
  seen := h.seen

/-- The state in the loop over the watchers of a true literal, with those that are in
its list and those that are to be visited. -/
structure Visiting (F : List (List Lit)) (done : Lit → CRef → Prop) (p : Lit)
    (all ws : List Watcher) (s : Solver) : Prop where
  inv : Inv F (upTo done p ws) (s.withWatches p all)
  clean : (s.withWatches p all).Clean
  mem : p ∈ s.trail
  level : s.level p.var = s.decisionLevel

namespace Visiting

variable {w : Watcher} {all ws kept : List Watcher}

theorem trail (h : Visiting F done p all ws s) : s.TrailOk :=
  ⟨h.inv.trail.nodup, h.inv.trail.mem_iff, h.inv.trail.descending, h.inv.trail.level_le,
    h.inv.trail.lim, h.inv.trail.usable, h.inv.trail.qhead_le⟩

theorem value (h : Visiting F done p all ws s) : s.value (-p) = some false := by
  rw [value_neg_eq_false]
  exact h.trail.value_eq_true h.mem

/-- The clause of a watcher in the list. -/
theorem watched (h : Visiting F done p all ws s) {cr : CRef} (hcr : cr ∈ all.map Watcher.cref) :
    s.Live cr ∧ 2 < (s.ca cr).length ∧ -p ∈ (s.ca cr).take 2 := by
  have hmem : cr ∈ ((s.withWatches p all).watches p).map Watcher.cref := by
    simpa [withWatches] using hcr
  exact (h.inv.watches.mem_iff p cr ((h.clean p).1 cr hmem)).mp hmem

theorem watched_iff (h : Visiting F done p all ws s) {r : Lit} (hr : r ≠ p) {cr : CRef}
    (hlive : s.Live cr) (hlen : 2 < (s.ca cr).length) :
    cr ∈ (s.watches r).map Watcher.cref ↔ -r ∈ (s.ca cr).take 2 := by
  have hiff := h.inv.watches.mem_iff r cr hlive.2
  simp only [withWatches, Function.update_of_ne hr] at hiff
  rw [hiff]
  exact ⟨fun hmem => hmem.2.2, fun hmem => ⟨hlive, hlen, hmem⟩⟩

/-- A clause with a true literal needs no further visit. -/
theorem settle (h : Visiting F done p all (w :: ws) s) {t : Lit} (ht : t ∈ s.ca w.cref)
    (htrue : s.value t = some true) : Visiting F done p all ws s := by
  refine ⟨h.inv.visited h.mem fun _ _ => ⟨t, ht, htrue, ?_⟩, h.clean, h.mem, h.level⟩
  exact (h.trail.level_le t ((h.trail.mem_iff t).mpr htrue)).trans_eq h.level.symm

/-- Another literal of the clause as its blocker. -/
theorem reblock {left : List Watcher} (h : Visiting F done p (kept ++ w :: ws) left s) {b : Lit}
    (hb : b ∈ s.ca w.cref) : Visiting F done p (kept ++ ⟨w.cref, b⟩ :: ws) left s := by
  have hcrefs : ∀ q, ((s.withWatches p (kept ++ ⟨w.cref, b⟩ :: ws)).watches q).map Watcher.cref =
      ((s.withWatches p (kept ++ w :: ws)).watches q).map Watcher.cref := by
    intro q
    by_cases hq : q = p <;> simp [withWatches, hq]
  refine ⟨h.inv.rewatch (.refl _) ⟨fun q cr hmark => ?_, fun q a ha hmark => ?_, fun q => ?_,
    h.inv.watches.binary, h.inv.watches.binary_mem⟩ h.inv.settled, fun q => ⟨?_, (h.clean q).2⟩,
    h.mem, h.level⟩
  · exact hcrefs q ▸ h.inv.watches.mem_iff q cr hmark
  · have hmem : a = ⟨w.cref, b⟩ ∨ a ∈ (s.withWatches p (kept ++ w :: ws)).watches q := by
      by_cases hq : q = p
      · simp only [withWatches, hq, Function.update_self, List.mem_append, List.mem_cons] at ha ⊢
        tauto
      · simp only [withWatches, Function.update_of_ne hq] at ha ⊢
        exact Or.inr ha
    rcases hmem with rfl | hmem
    · exact hb
    · exact h.inv.watches.blocker q a hmem hmark
  · exact hcrefs q ▸ h.inv.watches.nodup q
  · exact hcrefs q ▸ (h.clean q).1

section Move

variable {first : Lit} {tail tail' : List Lit}

/-- What is in the lists of watchers then. -/
theorem mem_watches_moved {r : Lit} {a : Watcher}
    (ha : a ∈ ((s.moved w first q tail).withWatches p (kept ++ ws)).watches r) :
    a ∈ (s.withWatches p (kept ++ w :: ws)).watches r ∨ r = -q ∧ a = ⟨w.cref, first⟩ := by
  simp only [withWatches, moved, pushWatch] at ha ⊢
  by_cases hp : r = p
  · simp only [hp, Function.update_self, List.mem_append, List.mem_cons] at ha ⊢
    tauto
  · simp only [Function.update_of_ne hp] at ha ⊢
    by_cases hq : r = -q
    · simp only [hq, Function.update_self, List.mem_append, List.mem_singleton] at ha ⊢
      tauto
    · rw [Function.update_of_ne hq] at ha
      exact Or.inl ha

theorem crefs_nodup (h : Visiting F done p all ws s) : (all.map Watcher.cref).Nodup := by
  have hnodup := h.inv.watches.nodup p
  have hclean := (h.clean p).1
  simp only [withWatches, Function.update_self] at hnodup hclean
  rwa [List.filter_eq_self.mpr fun cr hcr => by rw [hclean cr hcr, Bool.not_false]] at hnodup

/-- The references in the lists of watchers then. -/
theorem mem_crefs_moved (h : Visiting F done p (kept ++ w :: ws) (w :: ws) s) (hq : -q ≠ p)
    (r : Lit) (cr : CRef) :
    cr ∈ (((s.moved w first q tail).withWatches p (kept ++ ws)).watches r).map Watcher.cref ↔
      if cr = w.cref then r ≠ p ∧ (r = -q ∨ cr ∈ (s.watches r).map Watcher.cref)
      else cr ∈ ((s.withWatches p (kept ++ w :: ws)).watches r).map Watcher.cref := by
  have hnodup := h.crefs_nodup
  rw [List.map_append, List.map_cons, List.nodup_middle, List.nodup_cons] at hnodup
  simp only [withWatches, moved, pushWatch]
  by_cases hp : r = p
  · rw [hp, Function.update_self, Function.update_self, List.map_append, List.map_append,
      List.map_cons, List.mem_append, List.mem_append, List.mem_cons]
    split
    next hcr =>
      rw [hcr, ← List.mem_append]
      simp [hnodup.1]
    next hcr => simp [hcr]
  · rw [Function.update_of_ne hp, Function.update_of_ne hp]
    by_cases hr : r = -q
    · rw [hr, Function.update_self, List.map_append, List.mem_append]
      split
      next hcr => simp [hcr, hq]
      next hcr => simp [hcr]
    · rw [Function.update_of_ne hr]
      split
      next hcr => simp [hcr, hp, hr]
      next hcr => rfl

/-- The clause with the new literal in the place of the false one. -/
theorem permuted_moved (hclause : s.ca w.cref = first :: -p :: tail)
    (hperm : (q :: tail').Perm (-p :: tail)) :
    s.Permuted (Function.update s.ca w.cref (first :: q :: tail')) := by
  refine (Permuted.refl s).update ?_ fun a _ _ hhead => ?_
  · rw [hclause]
    exact hperm.cons first
  · rw [hclause] at hhead
    exact hhead

theorem clause_nodup (h : Visiting F done p all ws s) {cr : CRef} (hlive : s.Live cr) :
    (s.ca cr).Nodup := (h.inv.clauses.nodup cr hlive).of_map

theorem watches_moved (h : Visiting F done p (kept ++ w :: ws) (w :: ws) s)
    (hclause : s.ca w.cref = first :: -p :: tail) (hq : q ∈ tail)
    (hperm : (q :: tail').Perm (-p :: tail)) :
    ((s.moved w first q tail').withWatches p (kept ++ ws)).WatchesOk := by
  obtain ⟨hlive, hlen, -⟩ : s.Live w.cref ∧ 2 < (s.ca w.cref).length ∧ _ := h.watched (by simp)
  have hdistinct := h.clause_nodup hlive
  have hpermuted := permuted_moved hclause hperm
  simp only [hclause, List.nodup_cons, List.mem_cons, not_or] at hdistinct
  have hfirst : first ≠ q := fun heq => hdistinct.1.2 (heq ▸ hq)
  have hnew : q ≠ -p := fun heq => hdistinct.2.1 (heq ▸ hq)
  have hnew' : -q ≠ p := fun heq => hnew (by rw [← heq, neg_neg])
  refine ⟨fun r cr hmark => ?_, fun r a ha hmark => ?_, fun r => ?_, fun r a ha hmark => ?_,
    fun cr hcr hlen' x hx => ?_⟩
  · rw [h.mem_crefs_moved hnew']
    split
    next hcr =>
      subst hcr
      have hca : ((s.moved w first q tail').withWatches p (kept ++ ws)).ca w.cref =
          first :: q :: tail' := Function.update_self ..
      have hlen' : 2 < (first :: q :: tail').length := by
        rw [(hperm.cons first).length_eq, ← hclause]
        exact hlen
      rw [hca, List.take_succ_cons, List.take_succ_cons, List.take_zero, List.mem_pair]
      by_cases hr : r = p
      · subst hr
        refine iff_of_false (fun hself => hself.1 rfl) fun hmem => ?_
        rcases hmem.2.2 with heq | heq
        · exact hdistinct.1.1 heq.symm
        · exact hnew heq.symm
      · rw [h.watched_iff hr hlive hlen, hclause, List.take_succ_cons, List.take_succ_cons,
          List.take_zero, List.mem_pair, neg_inj, ← neg_eq_iff_eq_neg]
        constructor
        · rintro ⟨-, heq | heq | heq⟩
          · exact ⟨hlive, hlen', Or.inr heq⟩
          · exact ⟨hlive, hlen', Or.inl heq⟩
          · exact absurd heq hr
        · rintro ⟨-, -, heq | heq⟩
          · exact ⟨hr, Or.inr (Or.inl heq)⟩
          · exact ⟨hr, Or.inl heq⟩
    next hcr =>
      rw [h.inv.watches.mem_iff r cr hmark]
      have hca : ((s.moved w first q tail').withWatches p (kept ++ ws)).ca cr = s.ca cr :=
        Function.update_of_ne hcr ..
      rw [hca]
      rfl
  · rcases mem_watches_moved ha with hmem | ⟨rfl, rfl⟩
    · exact (hpermuted.perm _).mem_iff.mpr (h.inv.watches.blocker r a hmem hmark)
    · refine (hpermuted.perm _).mem_iff.mpr ?_
      rw [hclause]
      exact List.mem_cons_self
  · by_cases hr : r = p
    · have hsublist : (kept ++ ws).Sublist (kept ++ w :: ws) :=
        (List.Sublist.refl kept).append (List.sublist_cons_self w ws)
      simp only [withWatches, moved, hr, Function.update_self]
      exact (h.crefs_nodup.sublist (hsublist.map _)).filter _
    · have hold := h.inv.watches.nodup r
      simp only [withWatches, moved, pushWatch, Function.update_of_ne hr] at hold ⊢
      by_cases hr' : r = -q
      · have hnot : w.cref ∉ (s.watches r).map Watcher.cref := by
          rw [h.watched_iff hr hlive hlen, hclause, hr', neg_neg]
          simp [Ne.symm hfirst, hnew]
        rw [hr'] at hold hnot
        rw [hr', Function.update_self, List.map_append, List.filter_append, List.nodup_append]
        refine ⟨hold, (List.nodup_singleton _).filter _, fun a ha b hb heq => hnot ?_⟩
        rw [← List.mem_singleton.mp (List.mem_filter.mp hb).1, ← heq]
        exact (List.mem_filter.mp ha).1
      · rw [Function.update_of_ne hr']
        exact hold
  · obtain ⟨hcr, hperm'⟩ := h.inv.watches.binary r a ha hmark
    exact ⟨hcr, (hpermuted.perm _).trans hperm'⟩
  · exact h.inv.watches.binary_mem cr hcr ((hpermuted.perm cr).length_eq ▸ hlen') x
      ((hpermuted.perm cr).mem_iff.mp hx)

theorem settled_moved (h : Visiting F done p (kept ++ w :: ws) (w :: ws) s)
    (hclause : s.ca w.cref = first :: -p :: tail) (hvalue : s.value q ≠ some false)
    (hperm : (q :: tail').Perm (-p :: tail)) :
    ((s.moved w first q tail').withWatches p (kept ++ ws)).SettledFor (upTo done p (w :: ws)) := by
  have hpermuted := permuted_moved hclause hperm
  intro cr hlive x hx hdone
  have hold : x ∈ (s.ca cr).take 2 := by
    by_cases hcr : cr = w.cref
    · subst hcr
      have hca : ((s.moved w first q tail').withWatches p (kept ++ ws)).ca w.cref =
          first :: q :: tail' := Function.update_self ..
      rw [hca, List.take_succ_cons, List.take_succ_cons, List.take_zero, List.mem_pair] at hx
      rcases hx with rfl | rfl
      · rw [hclause]
        exact List.mem_cons_self
      · exact absurd (h.trail.neg_mem_iff.mp (h.inv.done_mem _ _ hdone)) hvalue
    · have hca : ((s.moved w first q tail').withWatches p (kept ++ ws)).ca cr = s.ca cr :=
        Function.update_of_ne hcr ..
      rwa [hca] at hx
  obtain ⟨t, ht, htrue⟩ := h.inv.settled cr hlive x hold hdone
  exact ⟨t, (hpermuted.perm cr).mem_iff.mpr ht, htrue⟩

/-- A clause with another literal to watch is not visited again. -/
theorem move (h : Visiting F done p (kept ++ w :: ws) (w :: ws) s)
    (hclause : s.ca w.cref = first :: -p :: tail) (hq : q ∈ tail)
    (hvalue : s.value q ≠ some false) (hperm : (q :: tail').Perm (-p :: tail)) :
    Visiting F done p (kept ++ ws) ws (s.moved w first q tail') := by
  have hpermuted := permuted_moved hclause hperm
  have hinv : Inv F (upTo done p (w :: ws))
      ((s.moved w first q tail').withWatches p (kept ++ ws)) :=
    h.inv.rewatch ⟨hpermuted.perm, hpermuted.head⟩ (h.watches_moved hclause hq hperm)
      (h.settled_moved hclause hvalue hperm)
  have hlive : s.Live w.cref := (h.watched (by simp)).1
  have hdistinct := h.clause_nodup hlive
  simp only [hclause, List.nodup_cons, List.mem_cons, not_or] at hdistinct
  have hnew : q ≠ -p := fun heq => hdistinct.2.1 (heq ▸ hq)
  have hnew' : -q ≠ p := fun heq => hnew (neg_eq_iff_eq_neg.mp heq)
  refine ⟨hinv.visited h.mem fun _ hmem => ?_, fun r => ⟨fun cr hcr => ?_, (h.clean r).2⟩, h.mem,
    h.level⟩
  · have hca : ((s.moved w first q tail').withWatches p (kept ++ ws)).ca w.cref =
        first :: q :: tail' := Function.update_self ..
    rw [hca, List.take_succ_cons, List.take_succ_cons, List.take_zero, List.mem_pair] at hmem
    rcases hmem with heq | heq
    · exact absurd heq.symm hdistinct.1.1
    · exact absurd heq.symm hnew
  · rw [h.mem_crefs_moved hnew'] at hcr
    split at hcr
    next heq => exact heq ▸ hlive.2
    next => exact (h.clean r).1 cr hcr

end Move

/-- The false literal is put second. -/
theorem swap (h : Visiting F done p all ws s) {cr : CRef} {a b : Lit} {tail : List Lit}
    (hclause : s.ca cr = a :: b :: tail) (ha : s.value a ≠ some true) :
    Visiting F done p all ws { s with ca := Function.update s.ca cr (b :: a :: tail) } := by
  have hpermuted : (s.withWatches p all).Permuted (Function.update s.ca cr (b :: a :: tail)) := by
    refine (Permuted.refl _).update ?_ fun q hq _ hhead => ?_
    · change (b :: a :: tail).Perm (s.ca cr)
      rw [hclause]
      exact List.Perm.swap _ _ _
    · change (s.ca cr).head? = some q at hhead
      rw [hclause, List.head?_cons, Option.some_inj] at hhead
      exact absurd (hhead ▸ hq) ha
  refine ⟨h.inv.permute hpermuted fun c x => ?_, h.clean, h.mem, h.level⟩
  change x ∈ (Function.update s.ca cr (b :: a :: tail) c).take 2 ↔ x ∈ (s.ca c).take 2
  by_cases hc : c = cr
  · subst hc
    rw [Function.update_self, hclause]
    simp [or_comm]
  · rw [Function.update_of_ne hc]

/-- The last literal left of a clause. -/
theorem enqueue (h : Visiting F done p all ws s) {cr : CRef} {first : Lit} {tail : List Lit}
    (hlive : s.Live cr) (hclause : s.ca cr = first :: -p :: tail) (hfirst : s.value first = none)
    (htail : ∀ q ∈ tail, s.value q = some false) :
    Visiting F done p all ws (s.uncheckedEnqueue first (some cr)) := by
  have himplies : Implies (s.ca cr) first s.trail := by
    rw [hclause]
    refine ⟨List.mem_cons_self, fun _ => rfl, fun q hq hne => ?_⟩
    rcases List.mem_cons.mp hq with rfl | hq
    · exact absurd rfl hne
    · rw [h.trail.neg_mem_iff]
      rcases List.mem_cons.mp hq with rfl | hq
      · exact h.value
      · exact htail q hq
  refine ⟨h.inv.uncheckedEnqueue_implied hfirst hlive himplies, h.clean,
    List.mem_cons_of_mem _ h.mem, ?_⟩
  rw [level_uncheckedEnqueue hfirst (h.trail.value_eq_true h.mem)]
  exact h.level

/-- A conflict empties the queue. -/
theorem toEnd (h : Visiting F done p all ws s) :
    Visiting F done p all ws { s with qhead := s.trail.length } :=
  ⟨h.inv.withQhead (Nat.le_refl _), h.clean, h.mem, h.level⟩

end Visiting

/-- What a visit makes of the state and of the lists of watchers. -/
def VisitOk (F : List (List Lit)) (done : Lit → CRef → Prop) (p : Lit) (kept ws : List Watcher)
    (s : Solver) : Visit → Prop
  | .keep s' w => Visiting F done p (kept ++ w :: ws) ws s' ∧ s.Extends s' ∧ s'.qhead = s.qhead
  | .move s' => Visiting F done p (kept ++ ws) ws s' ∧ s.Extends s' ∧ s'.qhead = s.qhead
  | .conflict s' w =>
      (∃ w', Visiting F done p (kept ++ w :: ws) (w' :: ws) s') ∧ s.Extends s' ∧
        s'.Falsified w.cref

section Visit

variable {w : Watcher} {ws kept : List Watcher}

theorem visitOk_of_swapped {s₀ : Solver} {first : Lit} {tail : List Lit}
    (h : Visiting F done p (kept ++ w :: ws) (w :: ws) s)
    (hclause : s.ca w.cref = first :: -p :: tail) (hgrown : s₀.Extends s)
    (hqhead : s.qhead = s₀.qhead) (hblocker : s.value w.blocker ≠ some true) :
    VisitOk F done p kept ws s₀
      (if first ≠ w.blocker ∧ s.value first = some true then .keep s ⟨w.cref, first⟩
      else
        match findWatch s (-p) tail with
        | some (q, tail) => .move (s.moved w first q tail)
        | none =>
            if s.value first = some false then
              .conflict { s with qhead := s.trail.length } ⟨w.cref, first⟩
            else .keep (s.uncheckedEnqueue first (some w.cref)) ⟨w.cref, first⟩) := by
  have hlive : s.Live w.cref := (h.watched (by simp)).1
  have hmem : first ∈ s.ca w.cref := by
    rw [hclause]
    exact List.mem_cons_self
  split
  next htrue => exact ⟨(h.settle hmem htrue.2).reblock hmem, hgrown, hqhead⟩
  next hnot =>
    have hnottrue : s.value first ≠ some true := by
      intro htrue
      by_cases heq : first = w.blocker
      · exact hblocker (heq ▸ htrue)
      · exact hnot ⟨heq, htrue⟩
    cases hfind : findWatch s (-p) tail with
    | some found =>
        obtain ⟨hq, hvalue, hperm⟩ := findWatch_some hfind
        refine ⟨h.move hclause hq hvalue hperm, ?_, hqhead⟩
        exact ⟨hgrown.trail, hgrown.level, hgrown.trailLim, hgrown.nVars, hgrown.decision,
          hgrown.ok⟩
    | none =>
        have htail := findWatch_none hfind
        simp only
        split
        next hfalse =>
          refine ⟨⟨w, (h.reblock hmem).toEnd⟩, ?_, hlive, ?_⟩
          · exact ⟨hgrown.trail, hgrown.level, hgrown.trailLim, hgrown.nVars, hgrown.decision,
              hgrown.ok⟩
          · change ∀ q ∈ s.ca w.cref, s.value q = some false
            rw [hclause, List.forall_mem_cons, List.forall_mem_cons]
            exact ⟨hfalse, h.value, htail⟩
        next hnotfalse =>
          have hnone : s.value first = none := value_eq_none hnottrue hnotfalse
          have hnext := h.enqueue hlive hclause hnone htail
          refine ⟨(hnext.settle hmem value_uncheckedEnqueue_self).reblock hmem, ?_, hqhead⟩
          exact hgrown.trans (.uncheckedEnqueue h.trail hnone _)

theorem visit_ok (h : Visiting F done p (kept ++ w :: ws) (w :: ws) s) :
    VisitOk F done p kept ws s (s.visit p w) := by
  obtain ⟨hlive, hlen, hwatched⟩ : _ ∧ _ ∧ -p ∈ (s.ca w.cref).take 2 := h.watched (by simp)
  have hblocker : w.blocker ∈ s.ca w.cref := by
    refine h.inv.watches.blocker p w ?_ hlive.2
    simp [withWatches]
  unfold visit
  split
  next htrue => exact ⟨h.settle hblocker htrue, .refl s, rfl⟩
  next hnot =>
    match hclause : s.ca w.cref with
    | [] | [_] =>
        rw [hclause] at hlen
        simp at hlen
    | a :: b :: tail =>
        by_cases ha : a = -p
        · subst ha
          have hswap := h.swap hclause (by simp [h.value])
          simp only [if_true]
          refine visitOk_of_swapped hswap (Function.update_self ..) ?_ rfl hnot
          exact ⟨List.suffix_refl _, fun _ _ => rfl, rfl, rfl, rfl, rfl⟩
        · rw [hclause, List.take_succ_cons, List.take_succ_cons, List.take_zero,
            List.mem_pair] at hwatched
          obtain rfl : -p = b := hwatched.resolve_left (Ne.symm ha)
          simp only [ha, if_false]
          rw [← hclause, Function.update_eq_self]
          exact visitOk_of_swapped h hclause (.refl s) rfl hnot

/-- The loop over the watchers of a true literal. -/
theorem propagateWatches_spec (ws kept : List Watcher)
    (h : Visiting F done p (kept ++ ws) ws s) :
    s.Extends (propagateWatches p ws kept s).1 ∧ (propagateWatches p ws kept s).1.Clean ∧
      ((propagateWatches p ws kept s).2 = none →
        Inv F (upTo done p []) (propagateWatches p ws kept s).1 ∧
          (propagateWatches p ws kept s).1.qhead = s.qhead) ∧
      ∀ confl, (propagateWatches p ws kept s).2 = some confl →
        (∃ left, Inv F (upTo done p left) (propagateWatches p ws kept s).1) ∧
          (propagateWatches p ws kept s).1.Falsified confl := by
  induction ws generalizing kept s with
  | nil =>
      rw [List.append_nil] at h
      refine ⟨⟨List.suffix_refl _, fun _ _ => rfl, rfl, rfl, rfl, rfl⟩, h.clean, fun _ => ?_, nofun⟩
      exact ⟨h.inv, rfl⟩
  | cons w ws ih =>
      have hvisit := visit_ok h
      unfold propagateWatches
      cases hv : s.visit p w with
      | keep s' w' =>
          rw [hv] at hvisit
          obtain ⟨hnext, hgrown, hqhead⟩ := hvisit
          rw [List.append_cons] at hnext
          obtain ⟨hgrown', hclean, hnone, hconfl⟩ := ih (kept ++ [w']) hnext
          refine ⟨hgrown.trans hgrown', hclean, fun hr => ?_, hconfl⟩
          obtain ⟨hinv, hqhead'⟩ := hnone hr
          exact ⟨hinv, hqhead'.trans hqhead⟩
      | move s' =>
          rw [hv] at hvisit
          obtain ⟨hnext, hgrown, hqhead⟩ := hvisit
          obtain ⟨hgrown', hclean, hnone, hconfl⟩ := ih kept hnext
          refine ⟨hgrown.trans hgrown', hclean, fun hr => ?_, hconfl⟩
          obtain ⟨hinv, hqhead'⟩ := hnone hr
          exact ⟨hinv, hqhead'.trans hqhead⟩
      | conflict s' w' =>
          rw [hv] at hvisit
          obtain ⟨⟨first, hnext⟩, hgrown, hfalse⟩ := hvisit
          refine ⟨?_, hnext.clean, nofun, fun confl hr => ?_⟩
          · exact ⟨hgrown.trail, hgrown.level, hgrown.trailLim, hgrown.nVars, hgrown.decision,
              hgrown.ok⟩
          · cases hr
            exact ⟨⟨_, hnext.inv⟩, hfalse⟩

end Visit

/-! ## The queue -/

/-- The state before `propagate`. -/
def Ready (F : List (List Lit)) (s : Solver) : Prop := Inv F (fun q _ => q ∈ s.processed) s

/-- The state after `propagate` without a conflict. -/
structure Stable (F : List (List Lit)) (s : Solver) : Prop where
  inv : Inv F (fun q _ => q ∈ s.trail) s
  qhead : s.qhead = s.trail.length

/-- The state after a conflict, when only the earlier levels have been propagated. -/
structure Conflict (F : List (List Lit)) (s : Solver) (confl : CRef) : Prop where
  inv : Inv F (fun q _ => q ∈ s.trail ∧ s.level q.var < s.decisionLevel) s
  clean : s.Clean
  falsified : s.Falsified confl

theorem Stable.ready (h : Stable F s) : Ready F s := by
  have hprocessed : s.processed = s.trail := processed_eq_trail (Nat.le_of_eq h.qhead.symm)
  unfold Ready
  rw [hprocessed]
  exact h.inv

theorem Inv.conflict (h : Inv F done s) (hclean : s.Clean) {confl : CRef}
    (hfalse : s.Falsified confl) : Conflict F s confl := by
  refine ⟨h.restrict (fun q cr hq => ?_) fun q hq hlevel _ => ⟨hq, hlevel⟩, hclean, hfalse⟩
  exact h.earlier q hq.1 hq.2 cr

theorem processed_of_queueHead (h : s.queueHead = some p) :
    s.qhead < s.trail.length ∧
      { s with qhead := s.qhead + 1 }.processed = p :: s.processed := by
  obtain ⟨hlt, hget⟩ := List.getElem?_eq_some_iff.mp h
  rw [List.length_reverse] at hlt
  rw [List.getElem_reverse] at hget
  refine ⟨hlt, ?_⟩
  have hsub : s.trail.length - (s.qhead + 1) = s.trail.length - 1 - s.qhead := by omega
  have hsucc : s.trail.length - 1 - s.qhead + 1 = s.trail.length - s.qhead := by omega
  change s.trail.drop (s.trail.length - (s.qhead + 1)) = _
  rw [hsub, List.drop_eq_getElem_cons (by omega), hget, hsucc, processed]

theorem queueHead_eq_none : s.queueHead = none ↔ s.trail.length ≤ s.qhead := by
  rw [queueHead, List.getElem?_eq_none_iff, List.length_reverse]

/-- A run over the queue. -/
structure Propagated (F : List (List Lit)) (s : Solver) (r : Solver × Option CRef) : Prop where
  grown : s.Extends r.1
  stable : r.2 = none → Stable F r.1
  conflict : ∀ confl, r.2 = some confl → Conflict F r.1 confl

/-- A literal of the queue is at the last level. -/
theorem Ready.level_queueHead (h : Ready F s) (hp : s.queueHead = some p) :
    p ∈ s.trail ∧ s.level p.var = s.decisionLevel := by
  obtain ⟨hlt, hprocessed⟩ := processed_of_queueHead hp
  have hsuffix : p :: s.processed <:+ s.trail := by
    rw [← hprocessed]
    exact List.drop_suffix _ _
  have hmem : p ∈ s.trail := hsuffix.subset List.mem_cons_self
  refine ⟨hmem, Nat.le_antisymm (h.trail.level_le p hmem) ?_⟩
  by_contra hlevel
  have hnodup := h.trail.nodup.of_map.sublist hsuffix.sublist
  exact (List.nodup_cons.mp hnodup).1 (h.earlier p hmem (Nat.lt_of_not_le hlevel) 0)

/-- The binary clauses have been propagated, and the others are to be visited. -/
theorem Inv.visiting (h : Inv F done s) (hclean : s.Clean) (hp : p ∈ s.trail)
    (hlevel : s.level p.var = s.decisionLevel)
    (hbinary : ∀ w ∈ s.watchesBin p, s.value w.blocker = some true) :
    Visiting F done p (s.watches p) (s.watches p) s := by
  have hself : s.withWatches p (s.watches p) = s := by
    rw [withWatches, Function.update_eq_self]
  refine ⟨hself.symm ▸ h.extend ?_ (fun _ _ => Or.inl) ?_, hself.symm ▸ hclean, hp, hlevel⟩
  · rintro q cr (hdone | ⟨rfl, -⟩)
    · exact h.done_mem q cr hdone
    · exact hp
  · rintro cr hlive x hx (hdone | ⟨hxp, hcr⟩)
    · exact h.settled cr hlive x hx hdone
    · obtain rfl : x = -p := neg_eq_iff_eq_neg.mp hxp
      have hlong : ¬ 2 < (s.ca cr).length := by
        intro hlong
        exact hcr ((h.watches.mem_iff p cr hlive.2).mpr ⟨hlive, hlong, hx⟩)
      have hlen := Nat.le_antisymm (Nat.not_lt.mp hlong) (h.clauses.length cr hlive)
      have hwatch := h.watches.binary_mem cr hlive hlen _ (List.mem_of_mem_take hx)
      rw [neg_neg] at hwatch
      obtain ⟨w, hw, rfl⟩ := List.mem_map.mp hwatch
      obtain ⟨-, hperm⟩ := h.watches.binary p w hw hlive.2
      refine ⟨w.blocker, hperm.mem_iff.mpr (by simp), hbinary w hw, ?_⟩
      rw [Lit.var_neg, hlevel]
      exact h.trail.level_le _ ((h.trail.mem_iff _).mpr (hbinary w hw))

theorem propagateLoop_spec (fuel : ℕ) (h : Ready F s) (hclean : s.Clean)
    (hfuel : s.nVars < fuel + s.qhead) :
    ∃ r, propagateLoop fuel s = some r ∧ Propagated F s r := by
  induction fuel generalizing s with
  | zero =>
      have hle := h.trail.qhead_le
      have hle' := h.trail.length_le
      omega
  | succ fuel ih =>
      unfold propagateLoop
      cases hp : s.queueHead with
      | none =>
          rw [queueHead_eq_none] at hp
          refine ⟨_, rfl, .refl s, fun _ => ?_, nofun⟩
          refine ⟨?_, Nat.le_antisymm h.trail.qhead_le hp⟩
          unfold Ready at h
          rwa [processed_eq_trail hp] at h
      | some p =>
          obtain ⟨hlt, hprocessed⟩ := processed_of_queueHead hp
          obtain ⟨hmem, hlevel⟩ := h.level_queueHead hp
          obtain ⟨hbinary, hqhead, hbin, hnone, hconfl⟩ := propagateBinary_spec (s.watchesBin p)
            (h.withQhead hlt) hclean hmem fun _ hw => hw
          simp only
          generalize propagateBinary (s.watchesBin p) { s with qhead := s.qhead + 1 } = r
            at hbinary hqhead hbin hnone hconfl
          obtain ⟨s₁, confl⟩ := r
          have hgrown : s.Extends s₁ := ⟨hbinary.grown.trail, hbinary.grown.level,
            hbinary.grown.trailLim, hbinary.grown.nVars, hbinary.grown.decision, hbinary.grown.ok⟩
          cases confl with
          | some confl =>
              refine ⟨_, rfl, hgrown, nofun, fun c hc => ?_⟩
              cases hc
              exact hbinary.inv.conflict hbinary.clean (hconfl confl rfl)
          | none =>
              have hmem' : p ∈ s₁.trail := hgrown.trail.subset hmem
              have hlevel' : s₁.level p.var = s₁.decisionLevel := by
                rw [hgrown.level p hmem, hgrown.decisionLevel, hlevel]
              have htrue : ∀ w ∈ s₁.watchesBin p, s₁.value w.blocker = some true := by
                rw [hbin]
                exact hnone rfl
              have hvisiting := hbinary.inv.visiting hbinary.clean hmem' hlevel' htrue
              obtain ⟨hgrown', hclean', hnone', hconfl'⟩ :=
                propagateWatches_spec (s₁.watches p) [] hvisiting
              simp only
              generalize propagateWatches p (s₁.watches p) [] s₁ = r
                at hgrown' hclean' hnone' hconfl'
              obtain ⟨s₂, confl⟩ := r
              cases confl with
              | some confl =>
                  refine ⟨_, rfl, hgrown.trans hgrown', nofun, fun c hc => ?_⟩
                  cases hc
                  obtain ⟨⟨left, hinv⟩, hfalse⟩ := hconfl' confl rfl
                  exact hinv.conflict hclean' hfalse
              | none =>
                  obtain ⟨hinv, hqhead'⟩ := hnone' rfl
                  have hqhead'' : s₂.qhead = s.qhead + 1 := hqhead'.trans hqhead
                  have hdone : s₂.processed = p :: s.processed := by
                    rw [← hprocessed]
                    exact processed_of_suffix (hgrown.trail.trans hgrown'.trail) hqhead'' hlt
                  have hready : Ready F s₂ := by
                    unfold Ready
                    rw [hdone]
                    refine hinv.restrict (fun q cr hq => ?_) fun q hq hl cr => ?_
                    · rcases List.mem_cons.mp hq with rfl | hq
                      · exact Or.inr ⟨rfl, List.not_mem_nil⟩
                      · exact Or.inl hq
                    · rcases hinv.earlier q hq hl cr with hq | ⟨rfl, -⟩
                      · exact List.mem_cons_of_mem _ hq
                      · exact List.mem_cons_self
                  obtain ⟨r, hr, hpropagated⟩ := ih hready hclean' (by
                    rw [hqhead'', hgrown'.nVars, hgrown.nVars]
                    omega)
                  exact ⟨r, hr, (hgrown.trans hgrown').trans hpropagated.grown,
                    hpropagated.stable, hpropagated.conflict⟩

/-- `propagate` ends with an empty queue or a false clause, whatever the state. -/
theorem Ready.exists_propagate (h : Ready F s) :
    ∃ r, s.propagate = some r ∧ Propagated F s r := by
  have hclean : s.cleanAll.Clean := by
    intro q
    constructor <;>
    · intro cr hcr
      obtain ⟨w, hw, rfl⟩ := List.mem_map.mp hcr
      change s.mark w.cref = false
      simpa using (List.mem_filter.mp hw).2
  have hready : Ready F s.cleanAll := h.cleanAll
  obtain ⟨r, hr, hpropagated⟩ := propagateLoop_spec (s.nVars + 1) hready hclean (by
    change s.nVars < s.nVars + 1 + s.qhead
    omega)
  refine ⟨r, hr, ?_, hpropagated.stable, hpropagated.conflict⟩
  exact ⟨hpropagated.grown.trail, hpropagated.grown.level, hpropagated.grown.trailLim,
    hpropagated.grown.nVars, hpropagated.grown.decision, hpropagated.grown.ok⟩

/-! ## Clauses after propagation -/

/-- A clause that is neither true nor left with one literal. -/
theorem Stable.satisfied_or_open (h : Stable F s) {cr : CRef} (hlive : s.Live cr) :
    (∃ t ∈ s.ca cr, s.value t = some true) ∨
      ∃ a b rest, s.ca cr = a :: b :: rest ∧ s.value a = none ∧ s.value b = none := by
  have hlen := h.inv.clauses.length cr hlive
  match hclause : s.ca cr with
  | [] | [_] =>
      rw [hclause] at hlen
      simp at hlen
  | a :: b :: rest =>
      have hwatched : ∀ x ∈ [a, b],
          (∃ t ∈ s.ca cr, s.value t = some true) ∨ s.value x = none := by
        intro x hx
        cases hv : s.value x with
        | none => exact Or.inr rfl
        | some v =>
            left
            have htake : x ∈ (s.ca cr).take 2 := by
              rwa [hclause, List.take_succ_cons, List.take_succ_cons, List.take_zero]
            cases v with
            | true => exact ⟨x, List.mem_of_mem_take htake, hv⟩
            | false =>
                obtain ⟨t, ht, htrue, -⟩ :=
                  h.inv.settled cr hlive x htake (h.inv.trail.neg_mem_iff.mpr hv)
                exact ⟨t, ht, htrue⟩
      rw [← hclause]
      rcases hwatched a (by simp) with htrue | ha
      · exact Or.inl htrue
      · rcases hwatched b (by simp) with htrue | hb
        · exact Or.inl htrue
        · exact Or.inr ⟨a, b, rest, hclause, ha, hb⟩

end Solver

end Glucose

end Sato
