import Mathlib.Data.List.Perm.Basic
import Sato.Glucose.Minimise

/-! # The clause learnt

The clause is resolved with binary clauses that have its first literal. Its second
literal is then one of the greatest level, which is the level to go back to. -/

open Foundation

namespace Sato

namespace Glucose

namespace Solver

variable {F : List (List Lit)} {done : Lit → CRef → Prop} {s t : Solver} {p q : Lit}

/-! ## The order of the literals -/

theorem swapAt_append (X Y Z : List Lit) (a b : Lit) :
    swapAt (X ++ a :: (Y ++ b :: Z)) X.length (X.length + Y.length + 1) =
      X ++ b :: (Y ++ a :: Z) := by
  have hfirst : (X ++ a :: (Y ++ b :: Z))[X.length]? = some a := by simp
  have hsecond : (X ++ a :: (Y ++ b :: Z))[X.length + Y.length + 1]? = some b := by
    rw [List.getElem?_append_right (by omega)]
    have hindex : X.length + Y.length + 1 - X.length = Y.length + 1 := by omega
    simp [hindex]
  unfold swapAt
  rw [hfirst, hsecond]
  simp [Nat.add_assoc]

/-- The first literal of the middle part is put before the last part. -/
theorem swapAt_middle (first b c : Lit) (A Y C : List Lit) :
    swapAt (first :: (A ++ b :: (Y ++ [c]) ++ C)) (A.length + 1)
        (A.length + (b :: (Y ++ [c])).length) = first :: (A ++ (c :: Y) ++ (b :: C)) ∧
      (A ++ (c :: Y) ++ (b :: C)).Perm (A ++ b :: (Y ++ [c]) ++ C) := by
  constructor
  · have happend : first :: (A ++ b :: (Y ++ [c]) ++ C) =
        first :: A ++ b :: (Y ++ c :: C) := by simp
    have hindex : A.length + (b :: (Y ++ [c])).length = (first :: A).length + Y.length + 1 := by
      simp only [List.length_append, List.length_cons, List.length_nil]
      omega
    rw [happend, hindex]
    exact (swapAt_append (first :: A) Y C b c).trans (by simp)
  · rw [List.append_assoc, List.append_assoc]
    refine List.Perm.append_left A (List.perm_middle.trans ?_)
    have happend : b :: (Y ++ [c]) ++ C = b :: (Y ++ c :: C) := by simp
    rw [happend]
    exact List.perm_middle.symm.cons b

/-- The marked literals are moved before the others. -/
theorem moveUnmarked_spec (marked : Var → Bool) (fuel : ℕ) (first : Lit) (A B C : List Lit)
    {nb : ℕ} (hA : ∀ q ∈ A, marked q.var = true) (hC : ∀ q ∈ C, marked q.var = false)
    (hnb : nb = C.length + B.countP fun q => !marked q.var) (hfuel : B.length < fuel) :
    ∃ kept, kept.Perm ((A ++ B ++ C).filter fun q => marked q.var) ∧
      (moveUnmarked marked nb fuel (A.length + 1) (A.length + B.length)
        (first :: (A ++ B ++ C))).take ((first :: (A ++ B ++ C)).length - nb) = first :: kept := by
  induction fuel generalizing A B C with
  | zero => exact absurd hfuel (Nat.not_lt_zero _)
  | succ fuel ih =>
      have hlen : (first :: (A ++ B ++ C)).length = A.length + B.length + C.length + 1 := by
        simp [Nat.add_assoc]
      unfold moveUnmarked
      split
      next hmore =>
        rw [hlen, hnb] at hmore
        match B with
        | [] =>
            simp only [List.length_nil, List.countP_nil] at hmore
            omega
        | b :: B' =>
            have hget : (first :: (A ++ (b :: B') ++ C))[A.length + 1]? = some b := by simp
            rw [List.length_cons] at hfuel
            rw [hget]
            simp only
            split
            next hb =>
              have hcount : (b :: B').countP (fun q => !marked q.var) =
                  B'.countP fun q => !marked q.var := by
                rw [List.countP_cons, hb]
                rfl
              have hA' : ∀ q ∈ A ++ [b], marked q.var = true := by
                rw [List.forall_mem_append]
                exact ⟨hA, List.forall_mem_singleton.mpr hb⟩
              obtain ⟨kept, hperm, htake⟩ := ih (A ++ [b]) B' C hA' hC (hcount ▸ hnb) (by omega)
              have happend : A ++ [b] ++ B' ++ C = A ++ (b :: B') ++ C := by simp
              have hindex : (A ++ [b]).length + B'.length = A.length + (b :: B').length := by
                simp only [List.length_append, List.length_cons, List.length_nil]
                omega
              rw [happend, hindex, List.length_append] at htake
              rw [happend] at hperm
              exact ⟨kept, hperm, htake⟩
            next hb =>
              rw [Bool.not_eq_true] at hb
              have hcount : (b :: B').countP (fun q => !marked q.var) =
                  B'.countP (fun q => !marked q.var) + 1 := by
                rw [List.countP_cons, hb]
                rfl
              rcases List.eq_nil_or_concat' B' with rfl | ⟨Y, c, rfl⟩
              · rw [hcount] at hmore
                simp only [List.length_cons, List.length_nil, List.countP_nil] at hmore
                omega
              · obtain ⟨hswap, hperm'⟩ := swapAt_middle first b c A Y C
                have hC' : ∀ q ∈ b :: C, marked q.var = false := List.forall_mem_cons.mpr ⟨hb, hC⟩
                obtain ⟨kept, hperm, htake⟩ := ih A (c :: Y) (b :: C) hA hC' (by
                  rw [hnb, hcount, List.countP_append, List.countP_singleton, List.countP_cons,
                    List.length_cons]
                  omega) (by
                  rw [List.length_append, List.length_singleton] at hfuel
                  rw [List.length_cons]
                  omega)
                have hlast : A.length + (b :: (Y ++ [c])).length - 1 =
                    A.length + (c :: Y).length := by
                  simp only [List.length_append, List.length_cons, List.length_nil]
                  omega
                rw [hswap, hlast, ← (hperm'.cons first).length_eq]
                exact ⟨kept, hperm.trans (hperm'.filter _), htake⟩
      next hdone =>
        have hall : B.countP (fun q => !marked q.var) = B.length := by
          refine Nat.le_antisymm List.countP_le_length ?_
          omega
        have hB : ∀ q ∈ B, marked q.var = false := by
          simpa using List.countP_eq_length.mp hall
        refine ⟨A, List.Perm.of_eq ?_, ?_⟩
        · rw [List.filter_append, List.filter_append, List.filter_eq_self.mpr hA,
            List.filter_eq_nil_iff.mpr (by simpa using hB),
            List.filter_eq_nil_iff.mpr (by simpa using hC), List.append_nil, List.append_nil]
        · have hsub : (first :: (A ++ B ++ C)).length - nb = A.length + 1 := by omega
          rw [hsub, List.take_succ_cons, List.append_assoc, List.take_left']
          rfl

/-! ## Resolution with binary clauses -/

/-- The marks that are taken back belong to literals whose opposite is implied. -/
theorem countImplied_spec (ws : List Watcher) (marked : Var → Bool) (nb : ℕ) {rest : List Lit}
    (hnodup : (rest.map Lit.var).Nodup)
    (hmarked : ∀ x, marked x = true → x ∈ rest.map Lit.var) :
    (∀ x, (countImplied s ws marked nb).1 x = true → marked x = true) ∧
      (∀ x, marked x = true → (countImplied s ws marked nb).1 x = false →
        ∃ w ∈ ws, w.blocker.var = x ∧ s.value w.blocker = some true) ∧
      (countImplied s ws marked nb).2 +
          rest.countP (fun q => (countImplied s ws marked nb).1 q.var) =
        nb + rest.countP fun q => marked q.var := by
  induction ws generalizing marked nb with
  | nil =>
      refine ⟨fun _ hx => hx, fun x hx hnot => ?_, rfl⟩
      exact absurd hnot (by simp [countImplied, hx])
  | cons w ws ih =>
      unfold countImplied
      split
      next hw =>
        obtain ⟨q, hq, hvar⟩ := List.mem_map.mp (hmarked _ hw.1)
        have hcount := countP_unmark hnodup hq (hvar ▸ hw.1)
        rw [hvar] at hcount
        have hsubset : ∀ x, Function.update marked w.blocker.var false x = true →
            marked x = true := by
          intro x hx
          by_cases heq : x = w.blocker.var
          · exact heq ▸ hw.1
          · rwa [Function.update_of_ne heq] at hx
        obtain ⟨hle, hgone, htotal⟩ := ih (Function.update marked w.blocker.var false) (nb + 1)
          fun x hx => hmarked x (hsubset x hx)
        refine ⟨fun x hx => hsubset x (hle x hx), fun x hx hnot => ?_, ?_⟩
        · by_cases heq : x = w.blocker.var
          · exact ⟨w, List.mem_cons_self, heq.symm, hw.2⟩
          · obtain ⟨w', hw', hx'⟩ :=
              hgone x ((Function.update_of_ne heq ..).trans hx) hnot
            exact ⟨w', List.mem_cons_of_mem _ hw', hx'⟩
        · omega
      next =>
        obtain ⟨hle, hgone, htotal⟩ := ih marked nb hmarked
        refine ⟨hle, fun x hx hnot => ?_, htotal⟩
        obtain ⟨w', hw', hx'⟩ := hgone x hx hnot
        exact ⟨w', List.mem_cons_of_mem _ hw', hx'⟩

/-- The literals left out are refuted by binary clauses with the first literal. -/
theorem Asserting.filter {rest kept : List Lit} (h : Asserting F s p rest) {keep : Lit → Bool}
    (hperm : kept.Perm (rest.filter keep))
    (himplied : ∀ q ∈ rest, keep q = false → Entails F [-p, -q]) : Asserting F s p kept := by
  have hsubset : kept ⊆ rest := List.Subset.trans hperm.subset List.filter_sublist.subset
  refine ⟨h.mem, h.level, fun q hq => h.earlier q (hsubset hq), ?_, fun v hv htrue => ?_⟩
  · exact (hperm.map Lit.var).nodup_iff.mpr (h.nodup.sublist (List.filter_sublist.map _))
  · obtain ⟨a, ha, hva⟩ := h.entails v hv htrue
    rcases List.mem_cons.mp ha with rfl | ha
    · exact ⟨-p, List.mem_cons_self, hva⟩
    · cases hkeep : keep a with
      | true =>
          have hmem : a ∈ kept := hperm.mem_iff.mpr (List.mem_filter.mpr ⟨ha, hkeep⟩)
          exact ⟨a, List.mem_cons_of_mem _ hmem, hva⟩
      | false =>
          obtain ⟨b, hb, hvb⟩ := himplied a ha hkeep v hv htrue
          rcases List.mem_pair.mp hb with rfl | rfl
          · exact ⟨-p, List.mem_cons_self, hvb⟩
          · exact absurd hva ((hv a).mp hvb)

/-- The clause stays entailed, and it keeps its first literal. -/
theorem Asserting.binary {rest : List Lit} (h : Asserting F s p rest) (hinv : Inv F done s)
    (hclean : s.Clean) (ht : Marked s t) :
    ∃ kept, t.minimisationWithBinaryResolution (-p :: rest) = -p :: kept ∧
      Asserting F s p kept := by
  unfold minimisationWithBinaryResolution
  simp only
  split
  next =>
    rw [neg_neg]
    have hbin : t.watchesBin = s.watchesBin := by rw [ht.eq]
    obtain ⟨hle, hgone, hcount⟩ := countImplied_spec (s := t) (t.watchesBin p)
      (fun x => rest.any fun q => q.var == x) 0 h.nodup (by simp)
    generalize countImplied t (t.watchesBin p) (fun x => rest.any fun q => q.var == x) 0 = result
      at hle hgone hcount
    obtain ⟨marked, nb⟩ := result
    simp only at hle hgone hcount
    split
    next hpos =>
      have hall : rest.countP (fun q => rest.any fun r => r.var == q.var) = rest.length := by
        rw [List.countP_eq_length]
        intro q hq
        exact List.any_eq_true.mpr ⟨q, hq, beq_self_eq_true _⟩
      have hnb : nb = ([] : List Lit).length + rest.countP fun q => !marked q.var := by
        have htotal := List.length_eq_countP_add_countP (fun q => marked q.var) (l := rest)
        have hneg : rest.countP (fun q => !marked q.var) =
            rest.countP fun q => decide ¬marked q.var = true :=
          List.countP_congr fun q _ => by simp
        rw [List.length_nil, hneg]
        omega
      obtain ⟨kept, hperm, htake⟩ := moveUnmarked_spec marked (2 * (-p :: rest).length) (-p) []
        rest [] (List.forall_mem_nil _) (List.forall_mem_nil _) hnb (by
          rw [List.length_cons]
          omega)
      rw [List.nil_append, List.append_nil] at hperm htake
      refine ⟨kept, ?_, ?_⟩
      · simpa using htake
      · refine h.filter hperm fun q hq hkeep => ?_
        obtain ⟨w, hw, hvar, htrue⟩ := hgone q.var (List.any_eq_true.mpr ⟨q, hq, by simp⟩) hkeep
        rw [hbin] at hw
        rw [ht.value] at htrue
        obtain ⟨hlive, hclause⟩ :=
          hinv.watches.binary p w hw ((hclean p).2 _ (List.mem_map_of_mem hw))
        have hblocker : w.blocker = -q := by
          refine (Lit.eq_or_eq_neg hvar).resolve_left fun heq => ?_
          rw [heq, hinv.trail.neg_mem_iff.mp (h.earlier q hq).1] at htrue
          cases htrue
        rw [hblocker] at hclause
        exact (hinv.represents.clause _ hlive).mono hclause.subset
    next => exact ⟨rest, rfl, h⟩
  next => exact ⟨rest, rfl, h⟩

/-! ## The level to go back to -/

theorem swapAt_perm (lits : List Lit) (i j : ℕ) : (swapAt lits i j).Perm lits := by
  unfold swapAt
  split
  next p q hi hj =>
    obtain ⟨hilt, rfl⟩ := List.getElem?_eq_some_iff.mp hi
    obtain ⟨hjlt, rfl⟩ := List.getElem?_eq_some_iff.mp hj
    exact List.set_set_perm hilt hjlt
  next => exact List.Perm.refl _

/-- The clause has a literal of the greatest level second, which is the level. -/
structure Backtrack (s : Solver) (p : Lit) (kept : List Lit) (result : List Lit × ℕ) : Prop where
  clause : ∃ kept', result.1 = p :: kept' ∧ kept'.Perm kept
  unit : result.1 = [p] → result.2 = 0
  second : ∀ q rest, result.1 = p :: q :: rest → result.2 = s.level q.var
  greatest : ∀ q ∈ kept, s.level q.var ≤ result.2

theorem maxIndex_spec (s : Solver) {lits : List Lit} (hlen : 2 ≤ lits.length) :
    1 ≤ s.maxIndex lits ∧ s.maxIndex lits < lits.length ∧
      ∀ i, 1 ≤ i → i < lits.length → s.levelAt lits i ≤ s.levelAt lits (s.maxIndex lits) := by
  unfold maxIndex
  obtain ⟨hplace, hfirst, hall⟩ :=
    foldl_greatest (s.levelAt lits) (List.range' 2 (lits.length - 2)) 1
  refine ⟨?_, ?_, fun i hpos hlt => ?_⟩
  · rcases hplace with heq | hmem
    · exact Nat.le_of_eq heq.symm
    · exact Nat.le_of_lt (List.mem_range'_1.mp hmem).1
  · rcases hplace with heq | hmem
    · rw [heq]
      exact hlen
    · have hlt := (List.mem_range'_1.mp hmem).2
      omega
  · rcases Nat.eq_or_lt_of_le hpos with rfl | hpos
    · exact hfirst
    · exact hall i (List.mem_range'_1.mpr ⟨hpos, by omega⟩)

/-- The first two literals after the swap. -/
theorem swapAt_second {p q : Lit} {rest : List Lit} {m : ℕ} (hpos : 1 ≤ m)
    (hlt : m < (p :: q :: rest).length) :
    ∃ x rest', (p :: q :: rest)[m]? = some x ∧ swapAt (p :: q :: rest) m 1 = p :: x :: rest' := by
  have hget := List.getElem?_eq_getElem hlt
  refine ⟨_, ((p :: q :: rest).set m q).tail.tail, hget, ?_⟩
  unfold swapAt
  rw [hget]
  obtain ⟨k, rfl⟩ := Nat.exists_eq_add_of_le' hpos
  cases k <;> rfl

theorem backtrackLevel_spec (s : Solver) (p : Lit) (kept : List Lit) :
    Backtrack s p kept (s.backtrackLevel (p :: kept)) := by
  unfold backtrackLevel
  match kept with
  | [] => exact ⟨⟨[], rfl, List.Perm.refl _⟩, fun _ => rfl, nofun, List.forall_mem_nil _⟩
  | q :: rest =>
      have hlen : 2 ≤ (p :: q :: rest).length := by simp
      obtain ⟨hpos, hlt, hmax⟩ := maxIndex_spec s hlen
      obtain ⟨x, rest', hx, hswap⟩ := swapAt_second hpos hlt
      have hlevel : s.levelAt (p :: q :: rest) (s.maxIndex (p :: q :: rest)) = s.level x.var := by
        simp only [levelAt, hx]
      have hperm := swapAt_perm (p :: q :: rest) (s.maxIndex (p :: q :: rest)) 1
      rw [hswap] at hperm
      rw [if_neg (by simp)]
      simp only [hswap]
      refine ⟨⟨_, rfl, hperm.cons_inv⟩, nofun, fun a as ha => ?_, fun a ha => ?_⟩
      · obtain ⟨rfl, -⟩ := List.cons.inj (List.cons.inj ha).2
        rfl
      · obtain ⟨i, hi, rfl⟩ := List.mem_iff_getElem.mp ha
        have hle := hmax (i + 1) (Nat.le_add_left 1 i) (Nat.succ_lt_succ hi)
        rw [hlevel] at hle
        refine Nat.le_trans (Nat.le_of_eq ?_) hle
        simp [levelAt, List.getElem?_eq_getElem hi]

/-! ## The result of the analysis -/

/-- The clause has the opposite of a literal of the last level first, and it is entailed.
Its other literals are false at the level to go back to. -/
structure Learned (F : List (List Lit)) (s s' : Solver) (p : Lit) (kept : List Lit)
    (btlevel : ℕ) : Prop where
  marked : Marked s s'
  seen : ∀ x, s'.seen x = false
  asserting : Asserting F s p kept
  lt : btlevel < s.decisionLevel
  unit : kept = [] → btlevel = 0
  second : ∀ q rest, kept = q :: rest → btlevel = s.level q.var
  greatest : ∀ q ∈ kept, s.level q.var ≤ btlevel

theorem Asserting.perm {rest kept : List Lit} (h : Asserting F s p rest) (hperm : kept.Perm rest) :
    Asserting F s p kept :=
  ⟨h.mem, h.level, fun q hq => h.earlier q (hperm.mem_iff.mp hq),
    (hperm.map Lit.var).nodup_iff.mpr h.nodup, h.entails.mono (hperm.symm.cons (-p)).subset⟩

/-- The minimised clause with its level. -/
theorem Asserting.learned {rest : List Lit} (h : Asserting F s p rest) (hinv : Inv F done s)
    (hclean : s.Clean) (hdecided : 0 < s.decisionLevel) (ht : Marked s t) {s' : Solver}
    (hs' : Marked s s') (hseen : ∀ x, s'.seen x = false) :
    ∃ kept btlevel, t.backtrackLevel
        (if (-p :: rest).length ≤ lbSizeMinimizingClause then
          t.minimisationWithBinaryResolution (-p :: rest) else -p :: rest) =
        (-p :: kept, btlevel) ∧ Learned F s s' p kept btlevel := by
  obtain ⟨kept, hkept, hasserting⟩ : ∃ kept,
      (if (-p :: rest).length ≤ lbSizeMinimizingClause then
        t.minimisationWithBinaryResolution (-p :: rest) else -p :: rest) = -p :: kept ∧
      Asserting F s p kept := by
    split
    · exact h.binary hinv hclean ht
    · exact ⟨rest, rfl, h⟩
  rw [hkept]
  have hback := backtrackLevel_spec t (-p) kept
  obtain ⟨kept', hclause, hperm⟩ := hback.clause
  generalize t.backtrackLevel (-p :: kept) = result at hback hclause
  obtain ⟨learnt, btlevel⟩ := result
  simp only at hclause
  subst hclause
  have hfinal := hasserting.perm hperm
  refine ⟨kept', btlevel, rfl, hs', hseen, hfinal, ?_, ?_, ?_, ?_⟩
  · match kept', hfinal, hback with
    | [], _, hback => exact (hback.unit rfl).trans_lt hdecided
    | q :: rest', hfinal, hback =>
        have hlevel := hback.second q rest' rfl
        rw [ht.level] at hlevel
        rw [show btlevel = s.level q.var from hlevel]
        exact (hfinal.earlier q List.mem_cons_self).2.2
  · rintro rfl
    exact hback.unit rfl
  · rintro q rest' rfl
    exact (hback.second q rest' rfl).trans (ht.level _)
  · intro q hq
    rw [← ht.level]
    exact hback.greatest q (hperm.mem_iff.mp hq)

/-- `analyze` ends with a clause, whatever the conflict. -/
theorem Conflict.exists_analyze {confl : CRef} (h : Conflict F s confl)
    (hdecided : 0 < s.decisionLevel) :
    ∃ s' p kept btlevel, s.analyze confl = some (s', -p :: kept, btlevel) ∧
      Learned F s s' p kept btlevel := by
  obtain ⟨p, a, hloop, hanalysed⟩ := h.exists_analysed hdecided
  have hlits : ∀ q ∈ a.learnt, -q ∈ s.trail ∧ 0 < s.level q.var ∧ a.solver.seen q.var = true := by
    intro q hq
    obtain ⟨hmem, hpos, -⟩ := hanalysed.asserting.earlier q hq
    exact ⟨hmem, hpos, (hanalysed.seen_iff q.var).mpr (List.mem_map_of_mem hq)⟩
  obtain ⟨⟨kept, t, added⟩, hminimise, hminimised⟩ := minimise_spec
    (a.learnt.foldl (fun levels q => levels ||| a.solver.abstractLevel q.var) 0#32)
    a.learnt h.inv hanalysed.marked hlits
  have hsublist := hminimised.sublist
  have hasserting : Asserting F s p kept := by
    refine ⟨hanalysed.asserting.mem, hanalysed.asserting.level,
      fun q hq => hanalysed.asserting.earlier q (hsublist.subset hq),
      hanalysed.asserting.nodup.sublist (hsublist.map _), ?_⟩
    exact hminimised.entails h.inv hanalysed.seen_iff (fun q hq => (hlits q hq).1)
      hanalysed.asserting.entails
  have hseen : ∀ x, (t.clearSeen ((-p :: a.learnt) ++ added)).seen x = false := by
    intro x
    rw [seen_clearSeen]
    split
    next => rfl
    next hx =>
      rw [List.map_append, List.map_cons, List.mem_append, List.mem_cons, not_or, not_or] at hx
      rw [← Bool.not_eq_true, hminimised.seen_iff, hanalysed.seen_iff]
      exact not_or.mpr ⟨hx.1.2, hx.2⟩
  obtain ⟨kept', btlevel, hback, hlearned⟩ := hasserting.learned h.inv h.clean hdecided
    hminimised.marked (hminimised.marked.clearSeen _) hseen
  refine ⟨_, p, kept', btlevel, ?_, hlearned⟩
  unfold analyze
  rw [hloop]
  simp only [Option.bind_eq_bind, Option.bind_some, hminimise, hback]
  rfl

end Solver

end Glucose

end Sato
