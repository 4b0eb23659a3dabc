import Sato.Glucose.Analyze

/-! # Smaller clauses

A literal is redundant when marked literals imply its opposite. The marks that
`litRedundant` sets stay only where it succeeds. -/

open Foundation

namespace Sato

namespace Glucose

namespace Solver

variable {F : List (List Lit)} {done : Lit → CRef → Prop} {s t : Solver} {p q : Lit}
  {base : Var → Bool}

/-! ## Marks -/

theorem seen_clearSeen (t : Solver) (lits : List Lit) (x : Var) :
    (t.clearSeen lits).seen x = if x ∈ lits.map Lit.var then false else t.seen x := by
  induction lits generalizing t with
  | nil => rfl
  | cons q lits ih =>
      refine (ih _).trans ?_
      by_cases hx : x = q.var <;> simp [setSeen, hx]

theorem Marked.clearSeen (h : Marked s t) (lits : List Lit) : Marked s (t.clearSeen lits) := by
  induction lits generalizing t with
  | nil => exact h
  | cons q lits ih => exact ih (h.setSeen q.var false)

/-- Marked literals before the literal imply it. -/
def Explained (F : List (List Lit)) (s : Solver) (marks : Var → Bool) (p : Lit) : Prop :=
  ∀ rest, p :: rest <:+ s.trail → ∃ others, Entails F (p :: others) ∧
    ∀ q ∈ others, -q ∈ rest ∧ (s.level q.var = 0 ∨ marks q.var = true)

theorem Explained.mono {marks marks' : Var → Bool} (h : Explained F s marks p)
    (hmarks : ∀ x, marks x = true → marks' x = true) : Explained F s marks' p := by
  intro rest hsuffix
  obtain ⟨others, hentails, hothers⟩ := h rest hsuffix
  exact ⟨others, hentails, fun q hq => ⟨(hothers q hq).1, (hothers q hq).2.imp_right (hmarks _)⟩⟩

/-! ## The literals of a reason -/

/-- The marks are those before the check and those of the literals added by it. -/
structure Checking (s : Solver) (base : Var → Bool) (r : Redundancy) : Prop where
  marked : Marked s r.solver
  seen_iff : ∀ x, r.solver.seen x = true ↔ base x = true ∨ x ∈ r.added.map Lit.var
  fresh : ∀ q ∈ r.added, base q.var = false
  added : ∀ q ∈ r.added, -q ∈ s.trail
  stack : ∀ q ∈ r.stack, -q ∈ s.trail ∧ 0 < s.level q.var ∧ s.reason q.var ≠ none

/-- How many literals can still be taken off the stack. -/
def pending (s : Solver) (r : Redundancy) : ℕ :=
  r.stack.length + (s.nVars - (List.range s.nVars).countP r.solver.seen)

structure Pushed (s : Solver) (base : Var → Bool) (lits : List Lit) (r : Redundancy)
    (result : Redundancy × Bool) : Prop where
  checking : Checking s base result.1
  seen : ∀ x, r.solver.seen x = true → result.1.solver.seen x = true
  stack : r.stack ⊆ result.1.stack
  added : ∀ q ∈ result.1.added, q ∈ r.added ∨ q ∈ result.1.stack
  pending : pending s result.1 = pending s r
  marked : result.2 = true → ∀ q ∈ lits, s.level q.var = 0 ∨ result.1.solver.seen q.var = true

theorem Checking.push {r : Redundancy} (h : Checking s base r) (htrail : s.TrailOk)
    (hq : -q ∈ s.trail) (hseen : ¬ r.solver.seen q.var = true) (hlevel : ¬ s.level q.var = 0)
    (hreason : s.reason q.var ≠ none) :
    Checking s base ⟨r.solver.setSeen q.var true, q :: r.stack, r.added ++ [q]⟩ ∧
      pending s ⟨r.solver.setSeen q.var true, q :: r.stack, r.added ++ [q]⟩ = pending s r := by
  rw [Bool.not_eq_true] at hseen
  have hbase : base q.var = false := by
    by_contra hbase
    rw [Bool.not_eq_false] at hbase
    rw [(h.seen_iff q.var).mpr (Or.inl hbase)] at hseen
    cases hseen
  refine ⟨⟨h.marked.setSeen _ _, fun x => ?_, fun x hx => ?_, fun x hx => ?_, ?_⟩, ?_⟩
  · rw [List.map_append, List.mem_append, List.map_singleton, List.mem_singleton]
    by_cases hx : x = q.var
    · simp [setSeen, hx]
    · simp [setSeen, hx, h.seen_iff x]
  · rcases List.mem_append.mp hx with hx | hx
    · exact h.fresh x hx
    · exact List.mem_singleton.mp hx ▸ hbase
  · rcases List.mem_append.mp hx with hx | hx
    · exact h.added x hx
    · exact List.mem_singleton.mp hx ▸ hq
  · rw [List.forall_mem_cons]
    exact ⟨⟨hq, Nat.pos_of_ne_zero hlevel, hreason⟩, h.stack⟩
  · have hnodup : ((List.range s.nVars).map id).Nodup := by
      rw [List.map_id]
      exact List.nodup_range
    have hcount : (List.range s.nVars).countP (Function.update r.solver.seen q.var true) =
        (List.range s.nVars).countP r.solver.seen + 1 :=
      countP_mark hnodup (List.mem_range.mpr (htrail.usable _ hq).1) hseen
    have hle : (List.range s.nVars).countP (Function.update r.solver.seen q.var true) ≤
        (List.range s.nVars).length := List.countP_le_length
    rw [List.length_range] at hle
    simp only [pending, setSeen, List.length_cons]
    omega

theorem pushReason_spec {r : Redundancy} (abstractLevels : BitVec 32) (lits : List Lit)
    (h : Checking s base r)
    (htrail : s.TrailOk) (hlits : ∀ q ∈ lits, -q ∈ s.trail) :
    Pushed s base lits r (pushReason abstractLevels lits r) := by
  induction lits generalizing r with
  | nil =>
      exact ⟨h, fun _ hx => hx, List.Subset.refl _, fun _ hq => Or.inl hq, rfl,
        fun _ => List.forall_mem_nil _⟩
  | cons q lits ih =>
      obtain ⟨hq, hlits⟩ := List.forall_mem_cons.mp hlits
      have hsame : (s.level q.var = 0 ∨ r.solver.seen q.var = true) →
          Pushed s base (q :: lits) r (pushReason abstractLevels lits r) := by
        intro hdone
        have hrest := ih h hlits
        refine ⟨hrest.checking, hrest.seen, hrest.stack, hrest.added, hrest.pending, fun hr => ?_⟩
        rw [List.forall_mem_cons]
        exact ⟨hdone.imp_right (hrest.seen _), hrest.marked hr⟩
      unfold pushReason
      rw [h.marked.level, h.marked.reason]
      split
      next hseen => exact hsame (Or.inr hseen)
      next hseen =>
        split
        next hzero => exact hsame (Or.inl hzero)
        next hlevel =>
          split
          next hpush =>
            obtain ⟨hnext, hpending⟩ := h.push htrail hq hseen hlevel hpush.1
            have hrest := ih hnext hlits
            have hmark := hrest.seen q.var (Function.update_self ..)
            refine ⟨hrest.checking, fun x hx => hrest.seen x (seen_setSeen_of_seen hx), ?_,
              fun x hx => ?_, hrest.pending.trans hpending, fun hr => ?_⟩
            · exact List.Subset.trans (List.subset_cons_self _ _) hrest.stack
            · rcases hrest.added x hx with hx | hx
              · rcases List.mem_append.mp hx with hx | hx
                · exact Or.inl hx
                · obtain rfl := List.mem_singleton.mp hx
                  exact Or.inr (hrest.stack List.mem_cons_self)
              · exact Or.inr hx
            · rw [List.forall_mem_cons]
              exact ⟨Or.inr hmark, hrest.marked hr⟩
          next =>
            exact ⟨h, fun _ hx => hx, List.Subset.refl _, fun _ hq => Or.inl hq, rfl, nofun⟩

/-! ## The check of one literal -/

/-- What `litRedundant` returns. -/
structure Checked (F : List (List Lit)) (s : Solver) (base : Var → Bool) (q : Lit)
    (result : Bool × Solver × List Lit) : Prop where
  marked : Marked s result.2.1
  seen_iff : ∀ x, result.2.1.seen x = true ↔ base x = true ∨ x ∈ result.2.2.map Lit.var
  added : ∀ x ∈ result.2.2, -x ∈ s.trail ∧ Explained F s result.2.1.seen (-x)
  redundant : result.1 = true → Explained F s result.2.1.seen (-q)

/-- The reason of a literal is opened. -/
theorem Checking.open {r : Redundancy} {stack : List Lit} (h : Checking s base r)
    (hstack : r.stack = p :: stack) (cr : CRef) :
    Checking s base ⟨r.solver.trueFirst cr, stack, r.added⟩ ∧
      pending s ⟨r.solver.trueFirst cr, stack, r.added⟩ + 1 = pending s r := by
  refine ⟨⟨h.marked.trueFirst cr, ?_, h.fresh, h.added, fun x hx => ?_⟩, ?_⟩
  · simpa using h.seen_iff
  · exact h.stack x (hstack ▸ List.mem_cons_of_mem _ hx)
  · simp only [pending, Marked.seen_trueFirst, hstack, List.length_cons]
    omega

/-- A failed check takes its marks back. -/
theorem Checking.checked {r : Redundancy} (h : Checking s base r) :
    Checked F s base q (false, r.solver.clearSeen r.added, []) := by
  refine ⟨h.marked.clearSeen _, fun x => ?_, List.forall_mem_nil _, nofun⟩
  rw [seen_clearSeen]
  split
  next hx =>
    obtain ⟨a, ha, rfl⟩ := List.mem_map.mp hx
    simp [h.fresh a ha]
  next hx => simp [h.seen_iff x, hx]

theorem litRedundantLoop_spec (abstractLevels : BitVec 32) (fuel : ℕ) {r : Redundancy}
    (hinv : Inv F done s)
    (h : Checking s base r) (hfuel : pending s r < fuel)
    (hexplained : ∀ x, x = q ∨ x ∈ r.added → x ∈ r.stack ∨ Explained F s r.solver.seen (-x)) :
    ∃ result, litRedundantLoop abstractLevels fuel r = some result ∧ Checked F s base q result := by
  induction fuel generalizing r with
  | zero => exact absurd hfuel (Nat.not_lt_zero _)
  | succ fuel ih =>
      unfold litRedundantLoop
      match hstack : r.stack with
      | [] =>
          rw [hstack] at hexplained
          have hall : ∀ x, x = q ∨ x ∈ r.added → Explained F s r.solver.seen (-x) :=
            fun x hx => (hexplained x hx).resolve_left List.not_mem_nil
          refine ⟨_, rfl, h.marked, h.seen_iff, fun x hx => ?_, fun _ => hall q (Or.inl rfl)⟩
          exact ⟨h.added x hx, hall x (Or.inr hx)⟩
      | p :: stack =>
          obtain ⟨hmem, hlevel, hsome⟩ := h.stack p (hstack ▸ List.mem_cons_self)
          obtain ⟨cr, hr⟩ := Option.ne_none_iff_exists'.mp hsome
          simp only
          rw [h.marked.reason, hr]
          simp only
          obtain ⟨before, rest, htrail⟩ := List.append_of_mem hmem
          obtain ⟨others, hclause, hothers, -⟩ :=
            h.marked.exists_others hinv ⟨before, htrail.symm⟩ hlevel hr
          obtain ⟨hopen, hpending⟩ := h.open hstack cr
          have hrest : ∀ x ∈ others, -x ∈ s.trail := fun x hx => by
            rw [htrail]
            exact List.mem_append_right _ (List.mem_cons_of_mem _ (hothers x hx))
          have hpushed := pushReason_spec abstractLevels others hopen
            hinv.trail hrest
          rw [hclause, List.drop_one, List.tail_cons]
          generalize pushReason abstractLevels others ⟨r.solver.trueFirst cr, stack, r.added⟩ =
            result at hpushed
          obtain ⟨r', b⟩ := result
          cases b with
          | false => exact ⟨_, rfl, hpushed.checking.checked⟩
          | true =>
              have hseen : ∀ x, r.solver.seen x = true → r'.solver.seen x = true := by
                simpa using hpushed.seen
              refine ih hpushed.checking ?_ fun x hx => ?_
              · rw [hpushed.pending]
                omega
              · have hold : x = q ∨ x ∈ r.added →
                    x ∈ r'.stack ∨ Explained F s r'.solver.seen (-x) := by
                  intro hx
                  rcases hexplained x hx with hmem | hexplained
                  · rcases List.mem_cons.mp (hstack ▸ hmem) with rfl | hmem
                    · refine Or.inr fun rest' hsuffix => ?_
                      obtain ⟨others', hclause', hothers', hentails⟩ :=
                        h.marked.exists_others hinv hsuffix hlevel hr
                      obtain rfl := (List.cons.inj (hclause.symm.trans hclause')).2
                      exact ⟨others, hentails, fun a ha => ⟨hothers' a ha, hpushed.marked rfl a ha⟩⟩
                    · exact Or.inl (hpushed.stack hmem)
                  · exact Or.inr (hexplained.mono hseen)
                rcases hx with hx | hx
                · exact hold (Or.inl hx)
                · rcases hpushed.added x hx with hx | hx
                  · exact hold (Or.inr hx)
                  · exact Or.inl hx

theorem litRedundant_spec (abstractLevels : BitVec 32) (hinv : Inv F done s) (ht : Marked s t)
    (hq : -q ∈ s.trail) (hlevel : 0 < s.level q.var) (hreason : s.reason q.var ≠ none)
    (hseen : t.seen q.var = true) :
    ∃ result, t.litRedundant q abstractLevels = some result ∧ Checked F s t.seen q result := by
  have hvars : t.nVars = s.nVars := by
    rw [ht.eq]
  have hcount : 0 < (List.range s.nVars).countP t.seen :=
    List.countP_pos_iff.mpr ⟨q.var, List.mem_range.mpr (hinv.trail.usable (-q) hq).1, hseen⟩
  have hle : (List.range s.nVars).countP t.seen ≤ (List.range s.nVars).length :=
    List.countP_le_length
  rw [List.length_range] at hle
  refine litRedundantLoop_spec abstractLevels (t.nVars + 1) hinv ⟨ht, fun x => ?_,
    List.forall_mem_nil _, List.forall_mem_nil _, fun x hx => ?_⟩ ?_ fun x hx => ?_
  · simp
  · exact List.mem_singleton.mp hx ▸ ⟨hq, hlevel, hreason⟩
  · simp only [pending, List.length_singleton, hvars]
    omega
  · exact Or.inl (List.mem_singleton.mpr (hx.resolve_right List.not_mem_nil))

/-! ## The clause without its redundant literals -/

/-- What `minimise` returns. -/
structure Minimised (F : List (List Lit)) (s t : Solver) (lits : List Lit)
    (result : List Lit × Solver × List Lit) : Prop where
  marked : Marked s result.2.1
  sublist : result.1.Sublist lits
  seen_iff : ∀ x, result.2.1.seen x = true ↔ t.seen x = true ∨ x ∈ result.2.2.map Lit.var
  toclear : ∀ x ∈ result.2.2, -x ∈ s.trail ∧ Explained F s result.2.1.seen (-x)
  redundant : ∀ x ∈ lits, x ∈ result.1 ∨ Explained F s result.2.1.seen (-x)

theorem minimise_spec (abstractLevels : BitVec 32) (lits : List Lit) (hinv : Inv F done s)
    (ht : Marked s t)
    (hlits : ∀ q ∈ lits, -q ∈ s.trail ∧ 0 < s.level q.var ∧ t.seen q.var = true) :
    ∃ result, minimise abstractLevels lits t = some result ∧ Minimised F s t lits result := by
  induction lits generalizing t with
  | nil =>
      refine ⟨_, rfl, ht, List.Sublist.refl _, fun x => ?_, List.forall_mem_nil _,
        List.forall_mem_nil _⟩
      simp
  | cons q lits ih =>
      obtain ⟨⟨hq, hlevel, hseen⟩, hlits⟩ := List.forall_mem_cons.mp hlits
      unfold minimise
      rw [ht.reason]
      split
      next hnone =>
        obtain ⟨⟨kept, t', toclear⟩, hresult, hrest⟩ := ih ht hlits
        refine ⟨(q :: kept, t', toclear), by rw [hresult]; rfl, hrest.marked,
          hrest.sublist.cons_cons q, hrest.seen_iff, hrest.toclear, ?_⟩
        rw [List.forall_mem_cons]
        refine ⟨Or.inl List.mem_cons_self, fun x hx => ?_⟩
        exact (hrest.redundant x hx).imp_left (List.mem_cons_of_mem q)
      next hreason =>
        obtain ⟨⟨redundant, t₁, added⟩, hcheck, hchecked⟩ :=
          litRedundant_spec abstractLevels hinv ht hq hlevel hreason hseen
        have hgrown : ∀ x, t.seen x = true → t₁.seen x = true :=
          fun x hx => (hchecked.seen_iff x).mpr (Or.inl hx)
        obtain ⟨⟨kept, t', toclear⟩, hresult, hrest⟩ := ih hchecked.marked fun x hx =>
          ⟨(hlits x hx).1, (hlits x hx).2.1, hgrown _ (hlits x hx).2.2⟩
        have hgrown' : ∀ x, t₁.seen x = true → t'.seen x = true :=
          fun x hx => (hrest.seen_iff x).mpr (Or.inl hx)
        refine ⟨(if redundant then kept else q :: kept, t', added ++ toclear),
          by rw [hcheck]; simp only [Option.bind_eq_bind, Option.bind_some, hresult]; rfl,
          hrest.marked, ?_, fun x => ?_, ?_, ?_⟩
        · cases redundant
          · exact hrest.sublist.cons_cons q
          · exact hrest.sublist.cons q
        · rw [hrest.seen_iff, hchecked.seen_iff, List.map_append, List.mem_append, or_assoc]
        · rw [List.forall_mem_append]
          refine ⟨fun x hx => ?_, hrest.toclear⟩
          obtain ⟨hmem, hexplained⟩ := hchecked.added x hx
          exact ⟨hmem, hexplained.mono hgrown'⟩
        · rw [List.forall_mem_cons]
          cases redundant with
          | false =>
              refine ⟨Or.inl List.mem_cons_self, fun x hx => ?_⟩
              exact (hrest.redundant x hx).imp_left (List.mem_cons_of_mem q)
          | true => exact ⟨Or.inr ((hchecked.redundant rfl).mono hgrown'), hrest.redundant⟩

/-- The marked literals follow from the literals kept. -/
theorem Minimised.entails {kept toclear lits : List Lit} {t' : Solver}
    (h : Minimised F s t lits (kept, t', toclear)) (hinv : Inv F done s)
    (hseen : ∀ x, t.seen x = true ↔ x ∈ lits.map Lit.var) (hlits : ∀ q ∈ lits, -q ∈ s.trail)
    (hentails : Entails F (-p :: lits)) : Entails F (-p :: kept) := by
  have hreason : ∀ a rest, a :: rest <:+ s.trail → t'.seen a.var = true → ¬ -a ∈ kept →
      ∃ clause, Entails F clause ∧ ∀ q ∈ clause, q ≠ a →
        -q ∈ rest ∧ t'.seen (-q).var = true ∨ Entails F [-q] := by
    intro a rest hsuffix hmark hnot
    have ha := hsuffix.subset List.mem_cons_self
    have hexplained : Explained F s t'.seen a := by
      rcases (h.seen_iff a.var).mp hmark with hmark | hmark
      · obtain ⟨q, hq, hvar⟩ := List.mem_map.mp ((hseen a.var).mp hmark)
        obtain rfl : -q = a := hinv.trail.eq_of_var (hlits q hq) ha hvar
        rw [neg_neg] at hnot
        exact (h.redundant q hq).resolve_left hnot
      · obtain ⟨q, hq, hvar⟩ := List.mem_map.mp hmark
        obtain ⟨hmem, hexplained⟩ := h.toclear q hq
        obtain rfl : -q = a := hinv.trail.eq_of_var hmem ha hvar
        exact hexplained
    obtain ⟨others, hclause, hothers⟩ := hexplained rest hsuffix
    refine ⟨a :: others, hclause, fun q hq hne => ?_⟩
    obtain ⟨hmem, hzero | hmark⟩ := hothers q ((List.mem_cons.mp hq).resolve_left hne)
    · have hmem' := hsuffix.subset (List.mem_cons_of_mem _ hmem)
      exact Or.inr (hinv.represents.unit (-q) hmem' hzero)
    · exact Or.inl ⟨hmem, hmark⟩
  intro v hv htrue
  by_contra hnone
  simp only [List.mem_cons, not_exists, not_and, forall_eq_or_imp] at hnone
  have hkept : ∀ a ∈ s.trail, -a ∈ kept → v a := by
    intro a _ ha
    have hnot := hnone.2 (-a) ha
    rwa [hv a, not_not] at hnot
  have hmarked := forall_marked_of_reasons hreason hv htrue hkept
  obtain ⟨a, ha, hva⟩ := hentails v hv htrue
  rcases List.mem_cons.mp ha with rfl | ha
  · exact hnone.1 hva
  · have hmark : t'.seen a.var = true :=
      (h.seen_iff a.var).mpr (Or.inl ((hseen a.var).mpr (List.mem_map_of_mem ha)))
    exact (hv a).mp (hmarked (-a) (hlits a ha) hmark) hva

end Solver

end Glucose

end Sato
