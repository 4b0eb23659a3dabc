import Sato.Glucose.NewVar

/-! # Calls of the solver

Variables and clauses are added, and the clauses are simplified and solved, in any
order. Between the calls the solver stands for the clauses it has been given. -/

open Foundation

namespace Sato

namespace Glucose

namespace Solver

variable {F : List (List Lit)} {done : Lit → CRef → Prop} {s s' : Solver} {p q : Lit}
  {ps : List Lit} {fuel : ℕ}

/-! ## Models -/

/-- The literals that the values make true, where a variable without one is false. -/
def assignment (assigns : Var → Option Bool) (p : Lit) : Prop :=
  (assigns p.var).getD false = !p.sign

theorem isValuation_assignment (assigns : Var → Option Bool) :
    IsValuation (assignment assigns) := by
  intro p
  unfold assignment
  rw [Lit.var_neg, Lit.sign_neg]
  cases (assigns p.var).getD false <;> cases p.sign <;> simp

theorem assignment_of_value (h : s.value p = some true) : assignment s.assigns p := by
  obtain ⟨b, hb, hsign⟩ := Option.map_eq_some_iff.mp h
  unfold assignment
  rw [hb, Option.getD_some]
  cases b <;> cases hp : p.sign <;> simp [hp] at hsign ⊢

/-- No clause is open once all the variables have values. -/
theorem Stable.satisfied (h : Stable F s) (hcomplete : s.Complete) {cr : CRef}
    (hlive : s.Live cr) : ∃ q ∈ s.ca cr, s.value q = some true := by
  rcases h.satisfied_or_open hlive with hsatisfied | ⟨a, b, rest, hclause, ha, -⟩
  · exact hsatisfied
  · have husable : s.Usable a.var := h.inv.clauses.usable cr hlive a (by simp [hclause])
    exact absurd (value_eq_none_iff.mp ha) (hcomplete a.var husable)

theorem Stable.cnfTrue (h : Stable F s) (hcomplete : s.Complete) :
    CnfTrue (assignment s.assigns) F := by
  refine h.inv.represents.satisfies _ (isValuation_assignment _) (fun cr hcr => ?_) fun p hp _ => ?_
  · obtain ⟨q, hq, htrue⟩ := h.satisfied hcomplete (h.inv.clauses.live cr hcr)
    exact ⟨q, hq, assignment_of_value htrue⟩
  · exact assignment_of_value (h.inv.trail.value_eq_true hp)

/-! ## Restarts -/

/-- What the searches return, whatever is chosen in them. -/
theorem Ready.solveLoop (restarts : ℕ) {choices : ℕ → ℕ → Choices} {status : Bool} {t : Solver}
    (h : Ready F s) (hok : s.ok = true)
    (hsolve : Solver.solveLoop choices fuel restarts s = some (status, t)) :
    PassOk F s (.done (some status) t) := by
  induction restarts generalizing s choices with
  | zero => cases hsolve
  | succ restarts ih =>
      unfold Solver.solveLoop at hsolve
      obtain ⟨⟨result, u⟩, hsearch, hrest⟩ := Option.bind_eq_some_iff.mp hsolve
      have hpass := h.search fuel hok hsearch
      cases result with
      | some verdict =>
          obtain ⟨rfl, rfl⟩ := Prod.mk.inj (Option.some.inj hrest)
          exact hpass
      | none =>
          obtain ⟨hstable, -, hframe⟩ := hpass
          exact (ih hstable.ready (hframe.ok.trans hok) hrest).of_frame hframe

/-- A pass that does not choose a restart does not end without a status. -/
theorem restart_of_searchPass {choices : Choices} {t : Solver}
    (h : searchPass choices s = some (.done none t)) : choices.restart = true := by
  have hdecide : ∀ u, Solver.decide choices u ≠ .done none t := by
    intro u
    unfold Solver.decide
    split <;> nofun
  unfold searchPass at h
  obtain ⟨⟨u, confl⟩, -, h⟩ := Option.bind_eq_some_iff.mp h
  cases confl with
  | some confl =>
      simp only at h
      split at h
      next => cases h
      next =>
        obtain ⟨v, -, h⟩ := Option.bind_eq_some_iff.mp h
        cases h
  | none =>
      simp only at h
      split at h
      next hrestart => exact hrestart
      next =>
        split at h <;>
        · obtain ⟨⟨ok, v⟩, -, h⟩ := Option.bind_eq_some_iff.mp h
          simp only at h
          split at h
          next => cases h
          next => exact absurd (Option.some.inj h) (hdecide _)

/-- The states that the loop of a search comes to, each after the number of passes. -/
inductive Passes (choices : ℕ → Choices) (s : Solver) : ℕ → Solver → Prop where
  | start : Passes choices s 0 s
  | next {n t u} (h : Passes choices s n t) (hpass : searchPass (choices n) t = some (.next u)) :
      Passes choices s (n + 1) u

/-- A first pass and the passes after it. -/
theorem Passes.cons {choices : ℕ → Choices} {n : ℕ} {t u : Solver}
    (hpass : searchPass (choices 0) s = some (.next t))
    (h : Passes (fun k => choices (k + 1)) t n u) : Passes choices s (n + 1) u := by
  induction h with
  | start => exact .next .start hpass
  | next h hlast ih => exact .next ih hlast

/-- The status of a search is that of the last pass made. -/
theorem exists_last_pass {choices : ℕ → Choices} {status : Option Bool} {t : Solver}
    (hsearch : Solver.search choices fuel s = some (status, t)) :
    ∃ n u, Passes choices s n u ∧ searchPass (choices n) u = some (.done status t) := by
  induction fuel generalizing s choices with
  | zero => cases hsearch
  | succ fuel ih =>
      unfold Solver.search at hsearch
      obtain ⟨pass, hpass, hrest⟩ := Option.bind_eq_some_iff.mp hsearch
      cases pass with
      | done verdict u =>
          obtain ⟨rfl, rfl⟩ := Prod.mk.inj (Option.some.inj hrest)
          exact ⟨0, s, .start, hpass⟩
      | next v =>
          obtain ⟨n, u, hpasses, hlast⟩ := ih hrest
          exact ⟨n + 1, u, hpasses.cons hpass, hlast⟩

/-- The searches end if there is one without a restart. -/
theorem Ready.exists_solveLoop (restarts : ℕ) (h : Ready F s) (hok : s.ok = true)
    (choices : ℕ → ℕ → Choices) (hrestart : ∃ k < restarts, ∀ n, (choices k n).restart = false)
    (hfuel : s.nVars * (s.nVars + 1) ^ s.nVars < fuel) :
    ∃ result, Solver.solveLoop choices fuel restarts s = some result := by
  induction restarts generalizing s choices with
  | zero =>
      obtain ⟨k, hk, -⟩ := hrestart
      exact absurd hk (Nat.not_lt_zero k)
  | succ restarts ih =>
      obtain ⟨⟨status, t⟩, hsearch⟩ := h.exists_search fuel hok (choices 0)
        (Nat.lt_add_right _ hfuel)
      have hpass := h.search fuel hok hsearch
      unfold Solver.solveLoop
      rw [hsearch]
      cases status with
      | some verdict => exact ⟨_, rfl⟩
      | none =>
          obtain ⟨hstable, -, hframe⟩ := hpass
          refine ih hstable.ready (hframe.ok.trans hok) _ ?_ (hframe.nVars ▸ hfuel)
          obtain ⟨k, hk, hnone⟩ := hrestart
          cases k with
          | zero =>
              obtain ⟨n, u, -, hlast⟩ := exists_last_pass hsearch
              exact absurd (restart_of_searchPass hlast) (by simp [hnone n])
          | succ k => exact ⟨k, Nat.lt_of_succ_lt_succ hk, hnone⟩

/-! ## A call of `solve` -/

theorem ok_cancelUntil (s : Solver) (l : ℕ) : (s.cancelUntil l).ok = s.ok := by
  have hfoldl : ∀ (ps : List Lit) (t : Solver), (ps.foldl unassign t).ok = t.ok := by
    intro ps
    induction ps with
    | nil => exact fun _ => rfl
    | cons p ps ih =>
        intro t
        obtain ⟨heap, heq, -⟩ := exists_unassign t p
        rw [List.foldl_cons, ih, heq]
  unfold cancelUntil
  split
  · exact hfoldl _ s
  · rfl

/-- What `solve` returns for the clauses given so far: a model, or that there is none. -/
structure Solved (F : List (List Lit)) (s : Solver) (verdict : Verdict) : Prop where
  state : StateOk F verdict.solver
  total : verdict.status = true → verdict.model.length = s.nVars ∧ none ∉ verdict.model
  model : verdict.status = true →
    ∀ clause ∈ F, ∃ q ∈ clause, verdict.model[q.var]? = some (some !q.sign)
  unsatisfiable : verdict.status = false → Unsatisfiable F

theorem StateOk.solve (h : StateOk F s) {choices : ℕ → ℕ → Choices} {restarts : ℕ}
    {verdict : Verdict} (hsolve : s.solve choices restarts fuel = some verdict) :
    Solved F s verdict := by
  unfold Solver.solve at hsolve
  cases hok : s.ok with
  | false =>
      rw [hok, if_pos rfl] at hsolve
      cases hsolve
      exact ⟨h, nofun, nofun, fun _ => h.unsatisfiable hok⟩
  | true =>
      rw [hok, if_neg nofun] at hsolve
      obtain ⟨⟨status, t⟩, hloop, hrest⟩ := Option.bind_eq_some_iff.mp hsolve
      obtain ⟨hstable, hzero⟩ := h.stable hok
      have hpass := hstable.ready.solveLoop restarts hok hloop
      cases status with
      | false =>
          cases hrest
          refine ⟨.refuted ?_ hpass, nofun, nofun, fun _ => hpass⟩
          exact ok_cancelUntil _ _
      | true =>
          cases hrest
          obtain ⟨hmodel, hcomplete, hframe⟩ := hpass
          have hassigned : ∀ x < s.nVars, t.assigns x ≠ none := by
            intro x hx
            refine hcomplete x ⟨hframe.nVars.symm ▸ hx, ?_⟩
            rw [hframe.decision]
            exact h.decision hok x hx
          obtain ⟨hcancel, hzero', hframe'⟩ := hmodel.restart
          refine ⟨h.of_frame hok (hframe.trans hframe') hcancel hzero' fun clause hclause =>
            Or.inl hclause, fun _ => ⟨?_, fun hmem => ?_⟩, fun _ clause hclause => ?_, nofun⟩
          · rw [List.length_map, List.length_range, hframe.nVars]
          · obtain ⟨x, hx, hnone⟩ := List.mem_map.mp hmem
            rw [List.mem_range, hframe.nVars] at hx
            exact hassigned x hx hnone
          · obtain ⟨q, hq, htrue⟩ := hmodel.cnfTrue hcomplete clause hclause
            have hlt : q.var < s.nVars := h.bounded hok clause hclause q hq
            obtain ⟨b, hb⟩ := Option.ne_none_iff_exists'.mp (hassigned q.var hlt)
            refine ⟨q, hq, ?_⟩
            rw [assignment, hb, Option.getD_some] at htrue
            rw [List.getElem?_map, List.getElem?_range (hframe.nVars.symm ▸ hlt), Option.map_some,
              hb, htrue]

/-- A call returns if some search does not choose a restart. -/
theorem StateOk.exists_solve (h : StateOk F s) (choices : ℕ → ℕ → Choices) (restarts : ℕ)
    (hrestart : ∃ k < restarts, ∀ n, (choices k n).restart = false)
    (hfuel : s.nVars * (s.nVars + 1) ^ s.nVars < fuel) :
    ∃ verdict, s.solve choices restarts fuel = some verdict := by
  unfold Solver.solve
  cases hok : s.ok with
  | false => exact ⟨_, if_pos rfl⟩
  | true =>
      obtain ⟨⟨status, t⟩, hloop⟩ :=
        (h.stable hok).1.ready.exists_solveLoop restarts hok choices hrestart hfuel
      rw [if_neg nofun, hloop]
      cases status with
      | false => exact ⟨_, rfl⟩
      | true => exact ⟨_, rfl⟩

/-! ## A call of `simplify` -/

theorem ok_of_simplify {look removeClauses : Bool} {result : Bool × Solver}
    (h : s.simplify look removeClauses = some result) (hfalse : result.1 = false) :
    result.2.ok = false := by
  unfold Solver.simplify at h
  split at h
  next hok =>
    cases h
    exact hok
  next =>
    obtain ⟨⟨t, confl⟩, -, h⟩ := Option.bind_eq_some_iff.mp h
    simp only at h
    split at h
    next =>
      cases h
      rfl
    next =>
      split at h <;>
      · cases h
        cases hfalse

theorem StateOk.exists_simplify (h : StateOk F s) (look removeClauses : Bool) :
    ∃ result, s.simplify look removeClauses = some result ∧ StateOk F result.2 := by
  cases hok : s.ok with
  | false =>
      refine ⟨(false, s), ?_, .refuted hok (h.unsatisfiable hok)⟩
      unfold Solver.simplify
      rw [hok, if_pos rfl]
  | true =>
      obtain ⟨hstable, hzero⟩ := h.stable hok
      obtain ⟨⟨status, t⟩, hsimplify, hsimplified⟩ :=
        hstable.ready.exists_simplify hok hzero look removeClauses
      refine ⟨_, hsimplify, ?_⟩
      cases status with
      | false => exact .refuted (ok_of_simplify hsimplify rfl) (hsimplified.unsatisfiable rfl)
      | true =>
          obtain ⟨hstable', hgrown⟩ := hsimplified.stable rfl
          exact h.of_frame hok hgrown.frame hstable' (hgrown.decisionLevel.trans hzero)
            fun clause hclause => Or.inl hclause

end Solver

end Glucose

end Sato
