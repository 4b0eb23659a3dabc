import Sato.Glucose.Search

/-! # New clauses

`addClause` leaves out false and repeated literals, which are next to each other once
the clause is sorted. -/

open Foundation

namespace Sato

namespace Glucose

namespace Solver

variable {F : List (List Lit)} {done : Lit → CRef → Prop} {s s' : Solver} {p q : Lit}
  {ps ls : List Lit}

/-! ## The literals kept -/

/-- The clause is true in every valuation of the true literals. -/
def Redundant (s : Solver) (ps : List Lit) : Prop :=
  (∃ q ∈ ps, s.value q = some true) ∨ ∃ q ∈ ps, -q ∈ ps

/-- What is kept of a sorted clause, after the literal kept last. -/
structure Kept (s : Solver) (last : Option Lit) (ps ls : List Lit) : Prop where
  subset : ls ⊆ ps
  value : ∀ q ∈ ls, s.value q = none
  cover : ∀ q ∈ ps, q ∈ ls ∨ s.value q = some false ∨ last = some q
  after : ∀ q ∈ ls, ∀ a, last = some a → a.var < q.var
  increasing : ls.Pairwise fun a b => a.var < b.var

theorem var_lt {a b : Lit} (hle : a.toInt ≤ b.toInt) (hne : a ≠ b) (hneg : -a ≠ b) :
    a.var < b.var := by
  obtain ⟨x, c⟩ := a
  obtain ⟨y, d⟩ := b
  simp only [Lit.toInt] at hle
  have hc := Bool.toNat_le c
  have hd := Bool.toNat_le d
  have hle' : @LE.le ℕ _ x y := by omega
  refine Nat.lt_of_le_of_ne hle' ?_
  rintro rfl
  cases c <;> cases d <;> simp [Neg.neg] at hne hneg

theorem sorted_toInt (ps : List Lit) :
    (ps.insertionSort fun p q => p.toInt ≤ q.toInt).Pairwise fun p q => p.toInt ≤ q.toInt := by
  have : Std.Total fun p q : Lit => p.toInt ≤ q.toInt := ⟨fun p q => Nat.le_total _ _⟩
  have : IsTrans Lit fun p q => p.toInt ≤ q.toInt := ⟨fun _ _ _ => Nat.le_trans⟩
  exact List.pairwise_insertionSort _ ps

namespace Kept

variable {last : Option Lit}

/-- A literal without a value is kept. -/
theorem cons (h : Kept s (some p) ps ls) (hp : s.value p = none)
    (hafter : ∀ a, last = some a → a.var < p.var) : Kept s last (p :: ps) (p :: ls) := by
  refine ⟨List.cons_subset_cons p h.subset, List.forall_mem_cons.mpr ⟨hp, h.value⟩, ?_, ?_,
    List.pairwise_cons.mpr ⟨fun q hq => h.after q hq p rfl, h.increasing⟩⟩
  · refine List.forall_mem_cons.mpr ⟨Or.inl List.mem_cons_self, fun q hq => ?_⟩
    rcases h.cover q hq with hq | hq | hq
    · exact Or.inl (List.mem_cons_of_mem p hq)
    · exact Or.inr (Or.inl hq)
    · exact Or.inl (Option.some.inj hq ▸ List.mem_cons_self)
  · refine List.forall_mem_cons.mpr ⟨hafter, fun q hq a ha => ?_⟩
    exact Nat.lt_trans (hafter a ha) (h.after q hq p rfl)

/-- A false or a repeated literal is left out. -/
theorem skip (h : Kept s last ps ls) (hp : s.value p = some false ∨ last = some p) :
    Kept s last (p :: ps) ls :=
  ⟨fun _ hq => List.mem_cons_of_mem p (h.subset hq), h.value,
    List.forall_mem_cons.mpr ⟨Or.inr hp, h.cover⟩, h.after, h.increasing⟩

end Kept

theorem removeFalse_spec (last : Option Lit) (hsorted : ps.Pairwise fun a b => a.toInt ≤ b.toInt)
    (hlast : ∀ a, last = some a → ∀ q ∈ ps, a.toInt ≤ q.toInt) :
    (removeFalse s last ps = none →
      (∃ q ∈ ps, s.value q = some true) ∨ ∃ q ∈ ps, -q ∈ ps ∨ last = some (-q)) ∧
    ∀ ls, removeFalse s last ps = some ls → Kept s last ps ls := by
  induction ps generalizing last with
  | nil =>
      refine ⟨nofun, fun ls hls => ?_⟩
      cases hls
      exact ⟨List.Subset.refl _, List.forall_mem_nil _, List.forall_mem_nil _,
        List.forall_mem_nil _, List.Pairwise.nil⟩
  | cons p ps ih =>
      obtain ⟨hp, hsorted⟩ := List.pairwise_cons.mp hsorted
      unfold removeFalse
      split
      next htrue =>
        refine ⟨fun _ => ?_, nofun⟩
        rcases htrue with htrue | hneg
        · exact Or.inl ⟨p, List.mem_cons_self, htrue⟩
        · obtain ⟨a, ha, rfl⟩ := Option.map_eq_some_iff.mp hneg
          exact Or.inr ⟨-a, List.mem_cons_self, Or.inr (by rw [neg_neg, ha])⟩
      next hnot =>
        obtain ⟨hnottrue, hnotneg⟩ := not_or.mp hnot
        split
        next hkeep =>
          have hlast' : ∀ a, some p = some a → ∀ q ∈ ps, a.toInt ≤ q.toInt := by
            rintro a ⟨⟩
            exact hp
          obtain ⟨hnone, hsome⟩ := ih (some p) hsorted hlast'
          refine ⟨fun hr => ?_, fun ls hls => ?_⟩
          · rcases hnone (Option.map_eq_none_iff.mp hr) with ⟨q, hq, htrue⟩ | ⟨q, hq, hneg⟩
            · exact Or.inl ⟨q, List.mem_cons_of_mem _ hq, htrue⟩
            · refine Or.inr ⟨q, List.mem_cons_of_mem _ hq, Or.inl ?_⟩
              rcases hneg with hneg | hneg
              · exact List.mem_cons_of_mem _ hneg
              · exact Option.some.inj hneg ▸ List.mem_cons_self
          · obtain ⟨ls', hls', rfl⟩ := Option.map_eq_some_iff.mp hls
            exact (hsome ls' hls').cons (value_eq_none hnottrue hkeep.1) fun a ha =>
              var_lt (hlast a ha p List.mem_cons_self) (fun heq => hkeep.2 (heq ▸ ha))
                fun heq => hnotneg (by rw [ha, Option.map_some, heq])
        next hdrop =>
          obtain ⟨hnone, hsome⟩ :=
            ih last hsorted fun a ha q hq => hlast a ha q (List.mem_cons_of_mem _ hq)
          refine ⟨fun hr => ?_, fun ls hls => (hsome ls hls).skip ?_⟩
          · rcases hnone hr with ⟨q, hq, htrue⟩ | ⟨q, hq, hneg⟩
            · exact Or.inl ⟨q, List.mem_cons_of_mem _ hq, htrue⟩
            · exact Or.inr ⟨q, List.mem_cons_of_mem _ hq, hneg.imp_left (List.mem_cons_of_mem _)⟩
          · rw [not_and_or, not_not, not_not] at hdrop
            exact hdrop

/-! ## The formula with a new clause -/

/-- A state between the calls: its clauses stand for the formula, or it is refuted. -/
structure StateOk (F : List (List Lit)) (s : Solver) : Prop where
  stable : s.ok = true → Stable F s ∧ s.decisionLevel = 0
  decision : s.ok = true → ∀ x < s.nVars, s.decision x = true
  bounded : s.ok = true → ∀ clause ∈ F, ∀ q ∈ clause, q.var < s.nVars
  unsatisfiable : s.ok = false → Unsatisfiable F

theorem StateOk.refuted {t : Solver} (hok : t.ok = false) (h : Unsatisfiable F) : StateOk F t :=
  have hne : t.ok ≠ true := by simp [hok]
  ⟨fun htrue => absurd htrue hne, fun htrue => absurd htrue hne, fun htrue => absurd htrue hne,
    fun _ => h⟩

/-- A state that has got the variables of another one. -/
theorem StateOk.of_frame {G : List (List Lit)} {t : Solver} (h : StateOk F s) (hok : s.ok = true)
    (hframe : Frame s t) (hstable : Stable G t) (hzero : t.decisionLevel = 0)
    (hbounded : ∀ clause ∈ G, clause ∈ F ∨ ∀ q ∈ clause, q.var < s.nVars) : StateOk G t := by
  refine ⟨fun _ => ⟨hstable, hzero⟩, fun _ => ?_, fun _ clause hclause => ?_, fun hfalse => ?_⟩
  · rw [hframe.nVars, hframe.decision]
    exact h.decision hok
  · rw [hframe.nVars]
    rcases hbounded clause hclause with hmem | hlt
    · exact h.bounded hok clause hmem
    · exact hlt
  · exact absurd ((hframe.ok.trans hok).symm.trans hfalse) nofun

theorem Represents.weaken {G : List (List Lit)} (h : s.Represents F) (hsubset : F ⊆ G)
    (hsatisfies : ∀ v, IsValuation v → (∀ cr ∈ s.clauses, ∃ q ∈ s.ca cr, v q) →
      (∀ p ∈ s.trail, s.level p.var = 0 → v p) → CnfTrue v F → CnfTrue v G) :
    s.Represents G :=
  ⟨fun cr hlive => (h.clause cr hlive).weaken hsubset,
    fun p hp hzero => (h.unit p hp hzero).weaken hsubset, fun v hv hclauses hunits =>
      hsatisfies v hv hclauses hunits (h.satisfies v hv hclauses hunits)⟩

theorem Stable.withOk (h : Stable F s) {ok : Bool} : Stable F { s with ok } where
  inv := { h.inv with
    trail := ⟨h.inv.trail.nodup, h.inv.trail.mem_iff, h.inv.trail.descending, h.inv.trail.level_le,
      h.inv.trail.lim, h.inv.trail.usable, h.inv.trail.qhead_le⟩
    clauses := ⟨h.inv.clauses.length, h.inv.clauses.nodup, h.inv.clauses.usable,
      h.inv.clauses.live, h.inv.clauses.learnt, h.inv.clauses.distinct, h.inv.clauses.fresh⟩
    watches := ⟨h.inv.watches.mem_iff, h.inv.watches.blocker, h.inv.watches.nodup,
      h.inv.watches.binary, h.inv.watches.binary_mem⟩
    represents := ⟨h.inv.represents.clause, h.inv.represents.unit, h.inv.represents.satisfies⟩ }
  qhead := h.qhead

theorem Stable.level_eq_zero (h : Stable F s) (hzero : s.decisionLevel = 0) (hp : p ∈ s.trail) :
    s.level p.var = 0 :=
  Nat.le_zero.mp (hzero ▸ h.inv.trail.level_le p hp)

/-- The clause of the literals kept follows from the new one. -/
theorem Stable.entails_kept (h : Stable F s) (hzero : s.decisionLevel = 0)
    (hkept : ∀ q ∈ ps, q ∈ ls ∨ s.value q = some false) : Entails (F ++ [ps]) ls := by
  have hps : Entails (F ++ [ps]) ps :=
    .of_mem (List.mem_append_right _ (List.mem_singleton_self ps))
  refine hps.drop fun q hq => (hkept q hq).imp_right fun hfalse => ?_
  have hmem := h.inv.trail.neg_mem_iff.mpr hfalse
  exact (h.inv.represents.unit _ hmem (h.level_eq_zero hzero hmem)).weaken
    (List.subset_append_left _ _)

/-- A redundant clause. -/
theorem Stable.addRedundant (h : Stable F s) (hzero : s.decisionLevel = 0)
    (hredundant : s.Redundant ps) : Stable (F ++ [ps]) s := by
  refine ⟨{ h.inv with represents := ?_ }, h.qhead⟩
  refine h.inv.represents.weaken (List.subset_append_left _ _) fun v hv _ hunits htrue => ?_
  rw [CnfTrue, List.forall_mem_append, List.forall_mem_singleton]
  refine ⟨htrue, ?_⟩
  rcases hredundant with ⟨q, hq, hvalue⟩ | ⟨q, hq, hneg⟩
  · have hmem := (h.inv.trail.mem_iff q).mpr hvalue
    exact ⟨q, hq, hunits q hmem (h.level_eq_zero hzero hmem)⟩
  · by_cases hvq : v q
    · exact ⟨q, hq, hvq⟩
    · exact ⟨-q, hneg, (hv q).mpr hvq⟩

/-- A clause with one literal kept. -/
theorem Stable.addUnit (h : Stable F s) (hzero : s.decisionLevel = 0) (hp : s.value p = none)
    (husable : s.Usable p.var) (hmem : p ∈ ps) (hkept : Entails (F ++ [ps]) [p]) :
    Ready (F ++ [ps]) (s.uncheckedEnqueue p none) := by
  refine h.ready_uncheckedEnqueue rfl rfl (h.inv.uncheckedEnqueue_represents hp husable
    (fun hlevel => absurd hzero (Nat.ne_of_gt hlevel)) ?_)
  have hsubset : F ⊆ F ++ [ps] := List.subset_append_left _ _
  have hlevel : ∀ q ∈ s.trail, (s.uncheckedEnqueue p none).level q.var = 0 := by
    intro q hq
    rw [level_uncheckedEnqueue hp (h.inv.trail.value_eq_true hq), h.level_eq_zero hzero hq]
  refine ⟨fun cr hlive => (h.inv.represents.clause cr hlive).weaken hsubset, ?_,
    fun v hv hclauses hunits => ?_⟩
  · rw [trail_uncheckedEnqueue, List.forall_mem_cons]
    refine ⟨fun _ => hkept, fun q hq _ => ?_⟩
    exact (h.inv.represents.unit q hq (h.level_eq_zero hzero hq)).weaken hsubset
  · rw [trail_uncheckedEnqueue, List.forall_mem_cons, level_uncheckedEnqueue_self] at hunits
    rw [CnfTrue, List.forall_mem_append, List.forall_mem_singleton]
    refine ⟨h.inv.represents.satisfies v hv hclauses fun q hq _ => ?_, p, hmem, hunits.1 hzero⟩
    exact hunits.2 q hq (hlevel q hq)

theorem Stable.represents_addWatched (h : Stable F s) {a b : Lit} {rest : List Lit} (hne : a ≠ b)
    (hsubset : a :: b :: rest ⊆ ps) (hkept : Entails (F ++ [ps]) (a :: b :: rest)) :
    (s.withClause (a :: b :: rest) (s.clauses ++ [s.next]) s.learnts).Represents (F ++ [ps]) := by
  have hF : F ⊆ F ++ [ps] := List.subset_append_left _ _
  refine ⟨fun c hc => ?_, fun p hp hzero => ?_, fun v hv hclauses hunits => ?_⟩
  · rcases (live_withClause hne).mp hc with rfl | hc
    · rwa [ca_withClause_next hne]
    · rw [ca_withClause_of_live hne hc]
      exact (h.inv.represents.clause c hc).weaken hF
  · rw [trail_withClause hne] at hp
    rw [level_withClause hne] at hzero
    exact (h.inv.represents.unit p hp hzero).weaken hF
  · rw [trail_withClause hne] at hunits
    simp only [level_withClause hne] at hunits
    have hcs : (s.withClause (a :: b :: rest) (s.clauses ++ [s.next]) s.learnts).clauses =
        s.clauses ++ [s.next] := by rw [withClause_eq hne]
    rw [hcs, List.forall_mem_append, List.forall_mem_singleton, ca_withClause_next hne] at hclauses
    obtain ⟨hold, q, hq, hvq⟩ := hclauses
    rw [CnfTrue, List.forall_mem_append, List.forall_mem_singleton]
    refine ⟨h.inv.represents.satisfies v hv (fun c hc => ?_) hunits, q, hsubset hq, hvq⟩
    rw [← ca_withClause_of_live hne (h.inv.clauses.live c hc)]
    exact hold c hc

theorem frame_withClause {a b : Lit} {rest : List Lit} {cs cs' : List CRef} (hne : a ≠ b) :
    Frame s (s.withClause (a :: b :: rest) cs cs') := by
  rw [withClause_eq hne]
  exact ⟨rfl, rfl, rfl⟩

/-- A clause with several literals kept, which is watched. -/
theorem Stable.addWatched (h : Stable F s) {a b : Lit} {rest : List Lit}
    (hnodup : ((a :: b :: rest).map Lit.var).Nodup) (hnone : ∀ q ∈ a :: b :: rest, s.value q = none)
    (husable : ∀ q ∈ a :: b :: rest, s.Usable q.var) (hsubset : a :: b :: rest ⊆ ps)
    (hkept : Entails (F ++ [ps]) (a :: b :: rest)) :
    Stable (F ++ [ps]) (s.withClause (a :: b :: rest) (s.clauses ++ [s.next]) s.learnts) := by
  have hne : a ≠ b := by
    rintro rfl
    simp at hnodup
  have hnew : s.next ∉ s.clauses :=
    fun hmem => absurd (h.inv.clauses.live _ hmem).1 (Nat.lt_irrefl _)
  have hopen : ∀ x ∈ [a, b], -x ∉ s.trail := by
    intro x hx
    refine h.inv.trail.not_mem_of_none (value_neg_eq_none.mpr (hnone x ?_))
    exact List.mem_append_left rest hx
  have hinv := h.inv.withClause (s.clauses ++ [s.next]) s.learnts hnodup husable ?_ ?_ ?_
    (fun x hx hmem => absurd hmem (hopen x hx)) (h.represents_addWatched hne hsubset hkept)
  · have htrail : (s.withClause (a :: b :: rest) (s.clauses ++ [s.next]) s.learnts).trail =
        s.trail := trail_withClause hne
    refine ⟨hinv.extend (fun _ _ hq => hq) (fun q c hq => ?_) ?_, ?_⟩
    · rw [htrail]
      exact hq.1
    · intro c hc x hx hmem
      rw [htrail] at hmem
      by_cases hcn : c = s.next
      · rw [hcn, ca_withClause_next hne] at hx
        exact absurd hmem (hopen x hx)
      · exact hinv.settled c hc x hx ⟨hmem, fun heq => absurd heq hcn⟩
    · rw [htrail, qhead_withClause hne, h.qhead]
  · rw [List.forall_mem_append, List.forall_mem_singleton]
    exact ⟨fun c hc => Or.inr (h.inv.clauses.live c hc), Or.inl rfl⟩
  · exact List.nodup_append.mpr ⟨h.inv.clauses.distinct, List.nodup_singleton _,
      fun c hc d hd heq => hnew (List.mem_singleton.mp hd ▸ heq ▸ hc)⟩
  · intro c hc
    obtain ⟨hlt, hnot⟩ := h.inv.clauses.learnt c hc
    refine ⟨Nat.lt_succ_of_lt hlt, fun hmem => ?_⟩
    rcases List.mem_append.mp hmem with hmem | hmem
    · exact hnot hmem
    · exact absurd hlt (Nat.not_lt.mpr (Nat.le_of_eq (List.mem_singleton.mp hmem).symm))

/-- The call of `propagate` after a clause with one literal kept. -/
theorem Ready.exists_propagate_ok (h : Ready F s) (hok : s.ok = true)
    (hzero : s.decisionLevel = 0) :
    ∃ s', (s.propagate.map fun result => { result.1 with ok := result.2.isNone }) = some s' ∧
      (s'.ok = true → Frame s s' ∧ Stable F s' ∧ s'.decisionLevel = 0) ∧
      (s'.ok = false → Unsatisfiable F) ∧ s'.nVars = s.nVars := by
  obtain ⟨⟨t, confl⟩, hpropagate, hpropagated⟩ := h.exists_propagate
  have hgrown := hpropagated.grown
  have hzero' : t.decisionLevel = 0 := hgrown.decisionLevel.trans hzero
  rw [hpropagate]
  cases confl with
  | some confl =>
      have hconflict := hpropagated.conflict confl rfl
      exact ⟨_, rfl, nofun, fun _ => hconflict.unsatisfiable hzero', hgrown.nVars⟩
  | none =>
      refine ⟨_, rfl, fun _ => ⟨?_, (hpropagated.stable rfl).withOk, hzero'⟩, nofun, hgrown.nVars⟩
      exact ⟨hgrown.nVars, hgrown.decision, hok.symm⟩

/-- A new clause, of variables there are. -/
theorem StateOk.exists_addClause (h : StateOk F s) (hps : ∀ q ∈ ps, q.var < s.nVars) :
    ∃ s', s.addClause ps = some s' ∧ StateOk (F ++ [ps]) s' ∧ s'.nVars = s.nVars := by
  unfold addClause
  cases hok : s.ok with
  | false =>
      rw [if_pos rfl]
      exact ⟨s, rfl, .refuted hok ((h.unsatisfiable hok).weaken (List.subset_append_left _ _)), rfl⟩
  | true =>
      obtain ⟨hstable, hzero⟩ := h.stable hok
      have hperm := List.perm_insertionSort (fun p q : Lit => p.toInt ≤ q.toInt) ps
      obtain ⟨hnone, hsome⟩ := removeFalse_spec (s := s) none (sorted_toInt ps) nofun
      have hbounded : ∀ clause ∈ F ++ [ps], clause ∈ F ∨ ∀ q ∈ clause, q.var < s.nVars := by
        rw [List.forall_mem_append, List.forall_mem_singleton]
        exact ⟨fun clause hclause => Or.inl hclause, Or.inr hps⟩
      rw [if_neg nofun]
      generalize ps.insertionSort (fun p q => p.toInt ≤ q.toInt) = sorted at hperm hnone hsome
      cases hls : removeFalse s none sorted with
      | none =>
          refine ⟨s, rfl, h.of_frame hok ⟨rfl, rfl, rfl⟩ ?_ hzero hbounded, rfl⟩
          refine hstable.addRedundant hzero ?_
          rcases hnone hls with ⟨q, hq, htrue⟩ | ⟨q, hq, hneg | hlast⟩
          · exact Or.inl ⟨q, hperm.mem_iff.mp hq, htrue⟩
          · exact Or.inr ⟨q, hperm.mem_iff.mp hq, hperm.mem_iff.mp hneg⟩
          · cases hlast
      | some ls =>
          have hkept := hsome ls hls
          have hsubset : ls ⊆ ps := fun q hq => hperm.mem_iff.mp (hkept.subset hq)
          have husable : ∀ q ∈ ls, s.Usable q.var := fun q hq =>
            ⟨hps q (hsubset hq), h.decision hok _ (hps q (hsubset hq))⟩
          have hentails : Entails (F ++ [ps]) ls := by
            refine hstable.entails_kept hzero fun q hq => ?_
            rcases hkept.cover q (hperm.mem_iff.mpr hq) with hq | hq | hq
            · exact Or.inl hq
            · exact Or.inr hq
            · cases hq
          match ls with
          | [] => exact ⟨_, rfl, .refuted rfl hentails.unsatisfiable_of_nil, rfl⟩
          | [p] =>
              have hready := hstable.addUnit hzero (hkept.value p List.mem_cons_self)
                (husable p List.mem_cons_self) (hsubset List.mem_cons_self) hentails
              obtain ⟨s', hs', htrue, hfalse, hnVars⟩ := hready.exists_propagate_ok hok hzero
              refine ⟨s', hs', ?_, hnVars⟩
              cases hok' : s'.ok with
              | false => exact .refuted hok' (hfalse hok')
              | true =>
                  obtain ⟨hframe, hstable', hzero'⟩ := htrue hok'
                  exact h.of_frame hok ⟨hframe.nVars, hframe.decision, hframe.ok⟩ hstable' hzero'
                    hbounded
          | a :: b :: rest =>
              have hnodup : ((a :: b :: rest).map Lit.var).Nodup :=
                List.pairwise_map.mpr (hkept.increasing.imp Nat.ne_of_lt)
              have hne : a ≠ b := by
                rintro rfl
                simp at hnodup
              have hframe : Frame s
                  (s.withClause (a :: b :: rest) (s.clauses ++ [s.next]) s.learnts) :=
                frame_withClause hne
              refine ⟨_, rfl, h.of_frame hok hframe ?_ ?_ hbounded, hframe.nVars⟩
              · exact hstable.addWatched hnodup hkept.value husable hsubset hentails
              · exact (decisionLevel_withClause hne).trans hzero

end Solver

end Glucose

end Sato
