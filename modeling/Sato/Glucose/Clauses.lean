import Sato.Glucose.Learnt
import Sato.Source.Glucose.Search

/-! # New and removed clauses

A new clause has a reference that no list of watchers has. A clause is removed when it
is not the reason of a literal that may be resolved. -/

open Foundation

namespace Sato

namespace Glucose

namespace Solver

variable {F : List (List Lit)} {done : Lit → CRef → Prop} {s : Solver} {p q a b : Lit}
  {cr : CRef} {ps rest : List Lit} {cs ls : List CRef}

/-! ## Watchers of a clause -/

/-- The watchers of a new clause. -/
def watchers (cr : CRef) (a b : Lit) (q : Lit) : List Watcher :=
  if q = -a then [⟨cr, b⟩] else if q = -b then [⟨cr, a⟩] else []

theorem pushWatch_pushWatch (watches : Lit → List Watcher) (hne : a ≠ b) (q : Lit) :
    pushWatch (pushWatch watches (-a) ⟨cr, b⟩) (-b) ⟨cr, a⟩ q = watches q ++ watchers cr a b q := by
  have hne' : -a ≠ -b := fun h => hne (neg_inj.mp h)
  unfold pushWatch watchers
  by_cases hb : q = -b
  · have ha : q ≠ -a := fun h => hne' (h.symm.trans hb)
    rw [hb] at ha ⊢
    rw [Function.update_self, Function.update_of_ne ha, if_neg ha, if_pos rfl]
  · rw [Function.update_of_ne hb]
    by_cases ha : q = -a
    · rw [ha, Function.update_self, if_pos rfl]
    · rw [Function.update_of_ne ha, if_neg ha, if_neg hb, List.append_nil]

theorem mem_crefs_watchers {c : CRef} :
    c ∈ (watchers cr a b q).map Watcher.cref ↔ c = cr ∧ (q = -a ∨ q = -b) := by
  unfold watchers
  split
  next ha => simp [ha]
  next ha =>
    split
    next hb => simp [hb]
    next hb => simp [ha, hb]

theorem nodup_crefs_watchers (cr : CRef) (a b q : Lit) (rest : List Lit) :
    ((if rest = [] then [] else watchers cr a b q).map Watcher.cref).Nodup := by
  unfold watchers
  split
  · exact List.nodup_nil
  · split
    · exact List.nodup_singleton _
    · split
      · exact List.nodup_singleton _
      · exact List.nodup_nil

theorem mem_watchers {w : Watcher} (hw : w ∈ watchers cr a b q) :
    w.cref = cr ∧ ([a, b].Perm [-q, w.blocker]) := by
  unfold watchers at hw
  split at hw
  next ha =>
    obtain rfl := List.mem_singleton.mp hw
    rw [ha, neg_neg]
    exact ⟨rfl, List.Perm.refl _⟩
  next =>
    split at hw
    next hb =>
      obtain rfl := List.mem_singleton.mp hw
      rw [hb, neg_neg]
      exact ⟨rfl, List.Perm.swap _ _ _⟩
    next => exact absurd hw List.not_mem_nil

/-- The lists after a clause is attached. -/
theorem attachClause_eq (hclause : s.ca cr = a :: b :: rest) (hne : a ≠ b) :
    s.attachClause cr = { s with
      watches := fun q => s.watches q ++ if rest = [] then [] else watchers cr a b q
      watchesBin := fun q => s.watchesBin q ++ if rest = [] then watchers cr a b q else [] } := by
  unfold attachClause
  rw [hclause]
  cases rest with
  | nil =>
      simp only [if_true, List.append_nil]
      congr 1
      funext q
      exact pushWatch_pushWatch s.watchesBin hne q
  | cons c rest =>
      simp only [List.cons_ne_nil, if_false, List.append_nil]
      congr 1
      funext q
      exact pushWatch_pushWatch s.watches hne q

/-! ## A new clause -/

/-- The state with a new clause, which is attached, and its lists of clauses. -/
def withClause (s : Solver) (ps : List Lit) (cs ls : List CRef) : Solver :=
  ({ s.alloc ps with clauses := cs, learnts := ls }).attachClause s.next

theorem withClause_eq (hne : a ≠ b) :
    s.withClause (a :: b :: rest) cs ls = { s with
      ca := Function.update s.ca s.next (a :: b :: rest)
      mark := Function.update s.mark s.next false
      next := s.next + 1
      clauses := cs
      learnts := ls
      watches := fun q => s.watches q ++ if rest = [] then [] else watchers s.next a b q
      watchesBin := fun q =>
        s.watchesBin q ++ if rest = [] then watchers s.next a b q else [] } := by
  have hclause := Function.update_self s.next (a :: b :: rest) s.ca
  exact (attachClause_eq (s := { s.alloc (a :: b :: rest) with clauses := cs, learnts := ls })
    hclause hne).trans rfl

/-- No watcher has the reference of the next clause. -/
theorem WatchesOk.ne_next (h : s.WatchesOk) (hclauses : s.ClausesOk) {c : CRef}
    (hc : c ∈ (s.watches q).map Watcher.cref) : c ≠ s.next := by
  rintro rfl
  have hlive := ((h.mem_iff q s.next (hclauses.fresh _ (Nat.le_refl _))).mp hc).1
  exact absurd hlive.1 (Nat.lt_irrefl _)

theorem WatchesOk.binary_ne_next (h : s.WatchesOk) (hclauses : s.ClausesOk) {w : Watcher}
    (hw : w ∈ s.watchesBin q) : w.cref ≠ s.next := by
  intro heq
  have hmark : s.mark w.cref = false := hclauses.fresh _ (Nat.le_of_eq heq.symm)
  exact absurd (h.binary q w hw hmark).1.1 (Nat.not_lt.mpr (Nat.le_of_eq heq.symm))

theorem live_withClause (hne : a ≠ b) {c : CRef} :
    (s.withClause (a :: b :: rest) cs ls).Live c ↔ c = s.next ∨ s.Live c := by
  rw [withClause_eq hne]
  unfold Live
  simp only
  by_cases hc : c = s.next
  · simp [hc]
  · rw [Function.update_of_ne hc]
    simp only [hc, false_or]
    exact and_congr_left' ⟨fun h => Nat.lt_of_le_of_ne (Nat.le_of_lt_succ h) hc, Nat.lt_succ_of_lt⟩

theorem ca_withClause_next (hne : a ≠ b) :
    (s.withClause (a :: b :: rest) cs ls).ca s.next = a :: b :: rest := by
  rw [withClause_eq hne]
  exact Function.update_self ..

theorem ca_withClause (hne : a ≠ b) {c : CRef} (hc : c ≠ s.next) :
    (s.withClause (a :: b :: rest) cs ls).ca c = s.ca c := by
  rw [withClause_eq hne]
  exact Function.update_of_ne hc ..

theorem ca_withClause_of_live (hne : a ≠ b) {c : CRef} (hlive : s.Live c) :
    (s.withClause (a :: b :: rest) cs ls).ca c = s.ca c :=
  ca_withClause hne (Nat.ne_of_lt hlive.1)

theorem watches_withClause (hne : a ≠ b) (q : Lit) :
    (s.withClause (a :: b :: rest) cs ls).watches q =
      s.watches q ++ if rest = [] then [] else watchers s.next a b q := by
  rw [withClause_eq hne]

theorem watchesBin_withClause (hne : a ≠ b) (q : Lit) :
    (s.withClause (a :: b :: rest) cs ls).watchesBin q =
      s.watchesBin q ++ if rest = [] then watchers s.next a b q else [] := by
  rw [withClause_eq hne]

theorem mark_withClause (hne : a ≠ b) {c : CRef} (hc : c ≠ s.next) :
    (s.withClause (a :: b :: rest) cs ls).mark c = s.mark c := by
  rw [withClause_eq hne]
  exact Function.update_of_ne hc ..

theorem mem_crefs_withClause (hne : a ≠ b) {c : CRef} (hc : c ≠ s.next) (q : Lit) :
    (c ∈ ((s.withClause (a :: b :: rest) cs ls).watches q).map Watcher.cref ↔
        c ∈ (s.watches q).map Watcher.cref) ∧
      (c ∈ ((s.withClause (a :: b :: rest) cs ls).watchesBin q).map Watcher.cref ↔
        c ∈ (s.watchesBin q).map Watcher.cref) := by
  rw [watches_withClause hne, watchesBin_withClause hne]
  have hnot : c ∉ (watchers s.next a b q).map Watcher.cref :=
    fun hmem => hc (mem_crefs_watchers.mp hmem).1
  split <;> simp [List.map_append, hnot]

theorem WatchesOk.withClause (h : s.WatchesOk) (hclauses : s.ClausesOk) (hne : a ≠ b) :
    (s.withClause (a :: b :: rest) cs ls).WatchesOk := by
  refine ⟨fun q c hmark => ?_, fun q w hw hmark => ?_, fun q => ?_, fun q w hw hmark => ?_,
    fun c hlive hlen x hx => ?_⟩
  · by_cases hc : c = s.next
    · subst hc
      have hold : s.next ∉ (s.watches q).map Watcher.cref :=
        fun hmem => h.ne_next hclauses hmem rfl
      rw [watches_withClause hne, List.map_append, List.mem_append, ca_withClause_next hne,
        live_withClause hne, or_iff_right hold, List.take_succ_cons, List.take_succ_cons,
        List.take_zero, List.mem_pair, neg_eq_iff_eq_neg, neg_eq_iff_eq_neg]
      cases rest with
      | nil => simp
      | cons c rest =>
          rw [if_neg (List.cons_ne_nil _ _), mem_crefs_watchers]
          simp
    · rw [mark_withClause hne hc] at hmark
      rw [(mem_crefs_withClause hne hc q).1, h.mem_iff q c hmark, ca_withClause hne hc,
        live_withClause hne, or_iff_right hc]
  · rw [watches_withClause hne, List.mem_append] at hw
    rcases hw with hw | hw
    · have hc := h.ne_next hclauses (List.mem_map_of_mem hw)
      rw [mark_withClause hne hc] at hmark
      rw [ca_withClause hne hc]
      exact h.blocker q w hw hmark
    · split at hw
      next => exact absurd hw List.not_mem_nil
      next =>
        obtain ⟨hcref, hperm⟩ := mem_watchers hw
        rw [hcref, ca_withClause_next hne]
        have hmem : w.blocker ∈ [a, b] := hperm.mem_iff.mpr (by simp)
        exact List.mem_append_left rest hmem
  · rw [watches_withClause hne, List.map_append, List.filter_append, List.nodup_append]
    refine ⟨?_, (nodup_crefs_watchers _ _ _ _ _).filter _, fun c hc d hd heq => ?_⟩
    · rw [List.filter_congr fun c hc => by rw [mark_withClause hne (h.ne_next hclauses hc)]]
      exact h.nodup q
    · refine h.ne_next hclauses (List.mem_filter.mp hc).1 ?_
      have hd := (List.mem_filter.mp hd).1
      split at hd
      next => exact absurd hd List.not_mem_nil
      next => exact heq.trans (mem_crefs_watchers.mp hd).1
  · rw [watchesBin_withClause hne, List.mem_append] at hw
    rcases hw with hw | hw
    · have hc := h.binary_ne_next hclauses hw
      rw [mark_withClause hne hc] at hmark
      obtain ⟨hlive, hperm⟩ := h.binary q w hw hmark
      exact ⟨(live_withClause hne).mpr (Or.inr hlive), (ca_withClause hne hc).symm ▸ hperm⟩
    · split at hw
      next hrest =>
        obtain ⟨hcref, hperm⟩ := mem_watchers hw
        rw [hcref, ca_withClause_next hne, hrest]
        exact ⟨(live_withClause hne).mpr (Or.inl rfl), hperm⟩
      next => exact absurd hw List.not_mem_nil
  · by_cases hc : c = s.next
    · subst hc
      rw [ca_withClause_next hne] at hlen hx
      obtain rfl : rest = [] := by simpa using hlen
      rw [watchesBin_withClause hne, if_pos rfl, List.map_append]
      refine List.mem_append_right _ (mem_crefs_watchers.mpr ⟨rfl, ?_⟩)
      rwa [neg_inj, neg_inj, ← List.mem_pair]
    · have hlive' := ((live_withClause hne).mp hlive).resolve_left hc
      rw [ca_withClause hne hc] at hlen hx
      exact (mem_crefs_withClause hne hc _).2.mpr (h.binary_mem c hlive' hlen x hx)

/-- A literal has been propagated in the new clause if it is of an earlier level. -/
def exceptNext (s : Solver) (done : Lit → CRef → Prop) : Lit → CRef → Prop :=
  fun q c => done q c ∧ (c = s.next → s.level q.var < s.decisionLevel)

theorem Inv.withClause {F' : List (List Lit)} (h : Inv F done s) (cs ls : List CRef)
    (hnodup : ((a :: b :: rest).map Lit.var).Nodup)
    (husable : ∀ q ∈ a :: b :: rest, s.Usable q.var)
    (hcs : ∀ c ∈ cs, c = s.next ∨ s.Live c) (hdistinct : cs.Nodup)
    (hls : ∀ c ∈ ls, c < s.next + 1 ∧ c ∉ cs)
    (hwatched : ∀ x ∈ [a, b], -x ∈ s.trail → ¬ s.level x.var < s.decisionLevel)
    (hrepresents : (s.withClause (a :: b :: rest) cs ls).Represents F') :
    Inv F' (s.exceptNext done) (s.withClause (a :: b :: rest) cs ls) := by
  have hne : a ≠ b := by
    rintro rfl
    simp at hnodup
  have hlive : ∀ c, (s.withClause (a :: b :: rest) cs ls).Live c ↔ c = s.next ∨ s.Live c :=
    fun _ => live_withClause hne
  have hold : ∀ c, s.Live c → (s.withClause (a :: b :: rest) cs ls).ca c = s.ca c :=
    fun _ => ca_withClause_of_live hne
  have hall : ∀ P : List Lit → Prop, P (a :: b :: rest) → (∀ c, s.Live c → P (s.ca c)) →
      ∀ c, (s.withClause (a :: b :: rest) cs ls).Live c →
        P ((s.withClause (a :: b :: rest) cs ls).ca c) := by
    intro P hnew hP c hc
    rcases (hlive c).mp hc with rfl | hc
    · exact (ca_withClause_next hne).symm ▸ hnew
    · exact (hold c hc).symm ▸ hP c hc
  have hwatches : (s.withClause (a :: b :: rest) cs ls).WatchesOk :=
    h.watches.withClause h.clauses hne
  have hnext : (s.withClause (a :: b :: rest) cs ls).ca s.next = a :: b :: rest :=
    ca_withClause_next hne
  rw [withClause_eq hne] at hlive hold hall hnext hwatches hrepresents ⊢
  refine
    { trail := ⟨h.trail.nodup, h.trail.mem_iff, h.trail.descending, h.trail.level_le, h.trail.lim,
        h.trail.usable, h.trail.qhead_le⟩
      decided := h.decided
      clauses := ⟨hall (fun ps => 2 ≤ ps.length) (by simp) h.clauses.length,
        hall (fun ps => (ps.map Lit.var).Nodup) hnodup h.clauses.nodup,
        hall (fun ps => ∀ q ∈ ps, s.Usable q.var) husable h.clauses.usable,
        fun c hc => (hlive c).mpr (hcs c hc), hls, hdistinct, fun c hc => ?_⟩
      reasons := fun p rest hsuffix hlevel => ?_
      watches := hwatches
      settled := fun c hc x hx hdone => ?_
      done_mem := fun q c hq => h.done_mem q c hq.1
      earlier := fun q hq hlevel c => ⟨h.earlier q hq hlevel c, fun _ => hlevel⟩
      represents := hrepresents
      order_mem := h.order_mem
      order_lt := h.order_lt
      seen := h.seen }
  · have hne : c ≠ s.next := Nat.ne_of_gt hc
    exact (Function.update_of_ne hne ..).trans (h.clauses.fresh c (Nat.le_of_succ_le hc))
  · have hreason := h.reasons p rest hsuffix hlevel
    change ReasonFor _ p rest (s.reason p.var)
    cases hr : s.reason p.var with
    | none =>
        rw [hr] at hreason
        exact hreason
    | some cr =>
        rw [hr] at hreason
        refine ⟨(hlive cr).mpr (Or.inr hreason.1), ?_⟩
        rw [hold cr hreason.1]
        exact hreason.2
  · rcases (hlive c).mp hc with rfl | hc
    · rw [hnext] at hx
      exact absurd (hdone.2 rfl) (hwatched x hx (h.done_mem _ _ hdone.1))
    · rw [hold c hc] at hx
      obtain ⟨t, ht, htrue⟩ := h.settled c hc x hx hdone.1
      exact ⟨t, (hold c hc).symm ▸ ht, htrue⟩

/-! ## A clause learnt -/

theorem trail_withClause (hne : a ≠ b) : (s.withClause (a :: b :: rest) cs ls).trail = s.trail := by
  rw [withClause_eq hne]

theorem value_withClause (hne : a ≠ b) (q : Lit) :
    (s.withClause (a :: b :: rest) cs ls).value q = s.value q := by
  rw [withClause_eq hne]
  rfl

theorem level_withClause (hne : a ≠ b) (x : Var) :
    (s.withClause (a :: b :: rest) cs ls).level x = s.level x := by
  rw [withClause_eq hne]
  rfl

theorem decisionLevel_withClause (hne : a ≠ b) :
    (s.withClause (a :: b :: rest) cs ls).decisionLevel = s.decisionLevel := by
  rw [withClause_eq hne]
  rfl

theorem qhead_withClause (hne : a ≠ b) : (s.withClause (a :: b :: rest) cs ls).qhead = s.qhead := by
  rw [withClause_eq hne]

theorem Represents.withClause (h : s.Represents F) (hclauses : s.ClausesOk) (hne : a ≠ b)
    (hentails : Entails F (a :: b :: rest)) :
    (s.withClause (a :: b :: rest) s.clauses ls).Represents F := by
  refine ⟨fun c hc => ?_, fun p hp hzero => ?_, fun v hv hcs hunits => ?_⟩
  · rcases (live_withClause hne).mp hc with rfl | hc
    · rwa [ca_withClause_next hne]
    · rw [ca_withClause_of_live hne hc]
      exact h.clause c hc
  · rw [trail_withClause hne] at hp
    rw [level_withClause hne] at hzero
    exact h.unit p hp hzero
  · refine h.satisfies v hv (fun c hc => ?_) fun p hp hzero => ?_
    · rw [← ca_withClause_of_live hne (hclauses.live c hc)]
      refine hcs c ?_
      rw [withClause_eq hne]
      exact hc
    · refine hunits p ?_ ((level_withClause hne _).trans hzero)
      rwa [trail_withClause hne]

/-- The next literal to propagate follows those that have been propagated. -/
theorem Stable.ready_uncheckedEnqueue (h : Stable F s) {t : Solver} (htrail : t.trail = s.trail)
    (hqhead : t.qhead = s.qhead) {F' : List (List Lit)} {reason : Option CRef}
    (hinv : Inv F' (fun q _ => q ∈ s.trail) (t.uncheckedEnqueue p reason)) :
    Ready F' (t.uncheckedEnqueue p reason) := by
  have hle : t.trail.length ≤ t.qhead := by rw [htrail, hqhead, h.qhead]
  have hge : t.qhead ≤ t.trail.length := by rw [htrail, hqhead, h.qhead]
  unfold Ready
  rw [processed_uncheckedEnqueue hge, processed_eq_trail hle, htrail]
  exact hinv

/-- A clause whose first literal is the only one that is not false. -/
theorem Stable.learn (h : Stable F s) (hnodup : ((a :: b :: rest).map Lit.var).Nodup)
    (ha : s.value a = none) (husable : s.Usable a.var)
    (hfalse : ∀ q ∈ b :: rest, -q ∈ s.trail) (hlevel : s.level b.var = s.decisionLevel)
    (hentails : Entails F (a :: b :: rest)) :
    Ready F ((s.withClause (a :: b :: rest) s.clauses (s.learnts ++ [s.next])).uncheckedEnqueue a
      (some s.next)) := by
  have hne : a ≠ b := by
    rintro rfl
    simp at hnodup
  have hnot : -a ∉ s.trail := h.inv.trail.not_mem_of_none (by simpa using ha)
  have hinv := h.inv.withClause s.clauses (s.learnts ++ [s.next]) hnodup ?_ ?_
    h.inv.clauses.distinct ?_ ?_
    (h.inv.represents.withClause h.inv.clauses hne hentails)
  · have htrail : (s.withClause (a :: b :: rest) s.clauses (s.learnts ++ [s.next])).trail =
        s.trail := trail_withClause hne
    have hvalue : (s.withClause (a :: b :: rest) s.clauses (s.learnts ++ [s.next])).value a =
        none := (value_withClause hne a).trans ha
    have hclause : (s.withClause (a :: b :: rest) s.clauses (s.learnts ++ [s.next])).ca s.next =
        a :: b :: rest := ca_withClause_next hne
    have himplies : Implies (a :: b :: rest) a s.trail :=
      ⟨List.mem_cons_self, fun _ => rfl,
        fun q hq hq' => hfalse q ((List.mem_cons.mp hq).resolve_left hq')⟩
    have hnext := hinv.uncheckedEnqueue_implied hvalue ((live_withClause hne).mpr (Or.inl rfl))
      (hclause.symm ▸ htrail.symm ▸ himplies)
    refine h.ready_uncheckedEnqueue htrail (qhead_withClause hne) (hnext.extend ?_ ?_ ?_)
    · exact fun q _ hq => List.mem_cons_of_mem _ (htrail.symm ▸ hq)
    · exact fun q _ hq => hq.1
    · intro c hc x hx hmem
      by_cases hcn : c = s.next
      · subst hcn
        change x ∈ ((s.withClause (a :: b :: rest) s.clauses (s.learnts ++ [s.next])).ca
          s.next).take 2 at hx
        rw [hclause] at hx
        rcases List.mem_pair.mp hx with rfl | rfl
        · exact absurd hmem hnot
        · refine ⟨a, ?_, value_uncheckedEnqueue_self, ?_⟩
          · exact hclause.symm ▸ List.mem_cons_self
          · have hvar : x.var ≠ a.var := by
              rw [List.map_cons, List.map_cons, List.nodup_cons, List.mem_cons, not_or] at hnodup
              exact Ne.symm hnodup.1.1
            rw [level_uncheckedEnqueue_self, level_uncheckedEnqueue_of_ne hvar,
              level_withClause hne, decisionLevel_withClause hne, hlevel]
      · exact hnext.settled c hc x hx ⟨hmem, fun heq => absurd heq hcn⟩
  · rw [List.forall_mem_cons]
    exact ⟨husable, fun q hq => h.inv.trail.usable (-q) (hfalse q hq)⟩
  · exact fun c hc => Or.inr (h.inv.clauses.live c hc)
  · intro c hc
    rcases List.mem_append.mp hc with hc | hc
    · exact ⟨Nat.lt_succ_of_lt (h.inv.clauses.learnt c hc).1, (h.inv.clauses.learnt c hc).2⟩
    · obtain rfl := List.mem_singleton.mp hc
      refine ⟨Nat.lt_succ_self _, fun hmem => ?_⟩
      exact absurd (h.inv.clauses.live _ hmem).1 (Nat.lt_irrefl _)
  · intro x hx hmem
    rcases List.mem_pair.mp hx with rfl | rfl
    · exact absurd hmem hnot
    · rw [hlevel]
      exact Nat.lt_irrefl _

/-! ## The end of a conflict -/

theorem Marked.inv {t : Solver} (h : Marked s t) (hseen : ∀ x, t.seen x = false)
    (hinv : Inv F done s) : Inv F done t := by
  have hseen' : t.seen = s.seen := by
    funext x
    rw [hseen, hinv.seen]
  rw [h.eq, hseen']
  exact hinv.permute h.permuted h.mem_take

theorem Inv.stable_cancelUntil (h : Inv F done s) {l : ℕ} (hl : l < s.decisionLevel) :
    Stable F (s.cancelUntil l) := by
  refine ⟨h.cancelUntil hl, ?_⟩
  obtain ⟨heap, heq, -⟩ := h.trail.exists_cancelUntil hl
  rw [heq]
  rfl

/-- The state after a conflict: the earlier level, with one more literal. -/
structure Backjumped (s s' : Solver) : Prop where
  lt : s'.decisionLevel < s.decisionLevel
  trail : ∃ p, s.value p ≠ none ∧ s'.level p.var = s'.decisionLevel ∧
    s'.trail = p :: s.trail.filter fun q => s.level q.var ≤ s'.decisionLevel
  level : ∀ q ∈ s.trail, s.level q.var ≤ s'.decisionLevel → s'.level q.var = s.level q.var
  nVars : s'.nVars = s.nVars
  decision : s'.decision = s.decision
  ok : s'.ok = s.ok

theorem Backjumped.uncheckedEnqueue {u : Solver} {reason : Option CRef} (hp : s.value p ≠ none)
    (hlevel : s.level p.var = s.decisionLevel) (hlt : u.decisionLevel < s.decisionLevel)
    (htrail : u.trail = s.trail.filter fun q => s.level q.var ≤ u.decisionLevel)
    (hlevels : ∀ x, u.level x = s.level x) (hnVars : u.nVars = s.nVars)
    (hdecision : u.decision = s.decision) (hok : u.ok = s.ok) :
    Backjumped s (u.uncheckedEnqueue p reason) := by
  refine ⟨hlt, ⟨p, hp, level_uncheckedEnqueue_self, ?_⟩, fun q _ hle => ?_, hnVars, hdecision, hok⟩
  · rw [trail_uncheckedEnqueue, htrail]
    rfl
  · have hne : q.var ≠ p.var := by
      intro heq
      rw [heq, hlevel] at hle
      exact absurd (Nat.lt_of_le_of_lt hle hlt) (Nat.lt_irrefl _)
    rw [level_uncheckedEnqueue_of_ne hne, hlevels]

theorem Conflict.exists_resolveConflict {confl : CRef} (h : Conflict F s confl)
    (hdecided : 0 < s.decisionLevel) :
    ∃ s', s.resolveConflict confl = some s' ∧ Ready F s' ∧ Backjumped s s' := by
  obtain ⟨t, p, kept, btlevel, hanalyze, hlearned⟩ := h.exists_analyze hdecided
  have ht := hlearned.marked.inv hlearned.seen h.inv
  have hl : btlevel < t.decisionLevel := hlearned.marked.decisionLevel ▸ hlearned.lt
  have hstable := ht.stable_cancelUntil hl
  obtain ⟨heap, hcancel, -⟩ := ht.trail.exists_cancelUntil hl
  rw [hcancel] at hstable
  unfold resolveConflict
  rw [hanalyze]
  simp only [Option.bind_eq_bind, Option.bind_some, hcancel]
  have htrail : t.trail = s.trail := by rw [hlearned.marked.eq]
  have hlevel : ∀ x, t.level x = s.level x := hlearned.marked.level
  have hasserting := hlearned.asserting
  have hdecision : (t.backTo btlevel heap).decisionLevel = btlevel :=
    decisionLevel_backTo (Nat.le_of_lt hl)
  have hnone : (t.backTo btlevel heap).value (-p) = none := by
    refine value_backTo_eq_none ?_
    rw [hlevel, Lit.var_neg, hasserting.level]
    exact hlearned.lt
  have husable : t.Usable (-p).var := ht.trail.usable p (htrail.symm ▸ hasserting.mem)
  have hfalse : ∀ q ∈ kept, -q ∈ (t.backTo btlevel heap).trail := by
    intro q hq
    rw [mem_trail_backTo, htrail, hlevel]
    exact ⟨(hasserting.earlier q hq).1, hlearned.greatest q hq⟩
  have hvalue : s.value (-p) ≠ none := by
    rw [Ne, value_neg_eq_none, h.inv.trail.value_eq_true hasserting.mem]
    exact nofun
  have hkept : (t.backTo btlevel heap).trail =
      s.trail.filter fun q => s.level q.var ≤ (t.backTo btlevel heap).decisionLevel := by
    rw [hdecision, ← htrail]
    simp only [← hlevel]
    rfl
  have hlt : (t.backTo btlevel heap).decisionLevel < s.decisionLevel := by
    rw [hdecision]
    exact hlearned.lt
  have hnVars : t.nVars = s.nVars := by rw [hlearned.marked.eq]
  have hvars : t.decision = s.decision := by rw [hlearned.marked.eq]
  have hok : t.ok = s.ok := by rw [hlearned.marked.eq]
  match kept with
  | [] =>
      refine ⟨_, rfl, ?_,
        .uncheckedEnqueue hvalue hasserting.level hlt hkept hlevel hnVars hvars hok⟩
      refine hstable.ready_uncheckedEnqueue rfl rfl ?_
      exact hstable.inv.uncheckedEnqueue_unit hnone husable
        (hdecision.trans (hlearned.unit rfl)) hasserting.entails
  | q :: rest =>
      have hnodup : ((-p :: q :: rest).map Lit.var).Nodup := by
        refine List.nodup_cons.mpr ⟨fun hmem => ?_, hasserting.nodup⟩
        obtain ⟨r, hr, hvar⟩ := List.mem_map.mp hmem
        have hearlier := (hasserting.earlier r hr).2.2
        rw [hvar, Lit.var_neg, hasserting.level] at hearlier
        exact absurd hearlier (Nat.lt_irrefl _)
      have hne : -p ≠ q := by
        rintro rfl
        simp at hnodup
      have hsecond : (t.backTo btlevel heap).level q.var =
          (t.backTo btlevel heap).decisionLevel := by
        rw [hdecision, hlearned.second q rest rfl]
        exact hlevel _
      have hready := hstable.learn hnodup hnone husable hfalse hsecond hasserting.entails
      refine ⟨_, rfl, hready, Backjumped.uncheckedEnqueue (u := (t.backTo btlevel heap).withClause
        (-p :: q :: rest) t.clauses (t.learnts ++ [t.next])) hvalue hasserting.level ?_ ?_
        (fun x => ?_) ?_ ?_ ?_⟩
      · rw [decisionLevel_withClause hne]
        exact hlt
      · rw [trail_withClause hne, decisionLevel_withClause hne]
        exact hkept
      · rw [level_withClause hne]
        exact hlevel x
      · rw [withClause_eq hne]
        exact hnVars
      · rw [withClause_eq hne]
        exact hvars
      · rw [withClause_eq hne]
        exact hok

end Solver

end Glucose

end Sato
