import Mathlib.Data.List.Forall2
import Mathlib.Data.List.Induction

/-! # Computations that may throw

Inversion of successful sequences and loops. Each lemma turns the success of a
compound computation into the successes of its parts.
-/

namespace Foundation

universe u v w

variable {ε ε' : Type u} {α : Type w} {β γ σ : Type v}

theorem bind_eq_ok {x : Except ε β} {f : β → Except ε γ} {c : γ} :
    (x >>= f) = .ok c ↔ ∃ b, x = .ok b ∧ f b = .ok c := by
  cases x with
  | error e => simp [bind, Except.bind]
  | ok a => simp [bind, Except.bind]

@[simp] theorem pure_eq_ok {b c : β} : (pure b : Except ε β) = .ok c ↔ b = c := by
  simp [pure, Except.pure]

@[simp] theorem mapError_eq_ok {f : ε → ε'} {x : Except ε α} {a : α} :
    x.mapError f = .ok a ↔ x = .ok a := by
  cases x <;> simp [Except.mapError]

/-- A loop that collects results succeeds when each of its passes does. -/
theorem mapM_eq_ok {f : α → Except ε β} {l : List α} {ys : List β} :
    l.mapM f = .ok ys ↔ List.Forall₂ (fun x y => f x = .ok y) l ys := by
  induction l generalizing ys with
  | nil => rw [List.mapM_nil, pure_eq_ok, List.forall₂_nil_left_iff, eq_comm]
  | cons x l ih =>
      rw [List.mapM_cons, bind_eq_ok]
      constructor
      · rintro ⟨y, hy, hrest⟩
        obtain ⟨zs, hzs, hpure⟩ := bind_eq_ok.mp hrest
        rw [← pure_eq_ok.mp hpure]
        exact List.Forall₂.cons hy (ih.mp hzs)
      · intro hall
        cases hall with
        | cons hy hrest => exact ⟨_, hy, bind_eq_ok.mpr ⟨_, ih.mpr hrest, rfl⟩⟩

theorem mapM_eq_ok_map {f : α → Except ε β} {g : α → β} {l : List α}
    (hall : ∀ x ∈ l, f x = .ok (g x)) : l.mapM f = .ok (l.map g) :=
  mapM_eq_ok.mpr (List.forall₂_map_right_iff.mpr (List.forall₂_same.mpr hall))

theorem exists_mapM_eq_ok {f : α → Except ε β} {l : List α}
    (hall : ∀ x ∈ l, ∃ y, f x = .ok y) : ∃ ys, l.mapM f = .ok ys := by
  induction l with
  | nil => exact ⟨[], rfl⟩
  | cons x l ih =>
      obtain ⟨y, hy⟩ := hall x List.mem_cons_self
      obtain ⟨ys, hys⟩ := ih fun z hz => hall z (List.mem_cons_of_mem x hz)
      exact ⟨y :: ys, mapM_eq_ok.mpr (List.Forall₂.cons hy (mapM_eq_ok.mp hys))⟩

/-- A loop whose passes succeed in every state or in none. -/
theorem exists_foldlM_eq_ok {f : σ → α → Except ε σ} {good : α → Prop} {l : List α}
    (hgood : ∀ x ∈ l, ∀ s, (∃ t, f s x = .ok t) ↔ good x) (s : σ) :
    (∃ t, l.foldlM f s = .ok t) ↔ ∀ x ∈ l, good x := by
  induction l generalizing s with
  | nil => exact iff_of_true ⟨s, rfl⟩ (by simp)
  | cons x l ih =>
      rw [List.forall_mem_cons] at hgood
      rw [List.forall_mem_cons]
      simp only [List.foldlM_cons, bind_eq_ok]
      constructor
      · rintro ⟨t, middle, hmiddle, hrest⟩
        exact ⟨(hgood.1 s).mp ⟨middle, hmiddle⟩, (ih hgood.2 middle).mp ⟨t, hrest⟩⟩
      · rintro ⟨hx, hl⟩
        obtain ⟨middle, hmiddle⟩ := (hgood.1 s).mpr hx
        obtain ⟨t, ht⟩ := (ih hgood.2 middle).mpr hl
        exact ⟨t, middle, hmiddle, ht⟩

/-- A predicate kept by every successful pass holds after the loop. -/
theorem foldlM_induction {f : σ → α → Except ε σ} (motive : List α → σ → Prop)
    {l : List α} {s t : σ} (hrun : l.foldlM f s = .ok t) (hstart : motive [] s)
    (hstep : ∀ before x state next, before ++ [x] <+: l → motive before state →
      f state x = .ok next → motive (before ++ [x]) next) : motive l t := by
  induction l using List.reverseRecOn generalizing t with
  | nil =>
      simp only [List.foldlM_nil, pure_eq_ok] at hrun
      exact hrun ▸ hstart
  | append_singleton l x ih =>
      rw [List.foldlM_append, bind_eq_ok] at hrun
      obtain ⟨middle, hmiddle, hlast⟩ := hrun
      rw [List.foldlM_cons, bind_eq_ok] at hlast
      obtain ⟨next, hnext, hlast⟩ := hlast
      rw [List.foldlM_nil, pure_eq_ok] at hlast
      rw [← hlast]
      refine hstep l x middle next (List.prefix_refl _) ?_ hnext
      exact ih hmiddle fun before y state next hstarts =>
        hstep before y state next (hstarts.trans (List.prefix_append _ _))

/-- A loop each of whose passes either throws or makes a known step. -/
theorem foldlM_eq_ok {f : σ → α → Except ε σ} {good : α → Prop} {next : σ → α → σ}
    (hstep : ∀ s x t, f s x = .ok t ↔ good x ∧ t = next s x) {l : List α} {s t : σ} :
    l.foldlM f s = .ok t ↔ (∀ x ∈ l, good x) ∧ t = l.foldl next s := by
  induction l generalizing s with
  | nil =>
      rw [List.foldlM_nil, pure_eq_ok]
      simp [eq_comm]
  | cons x l ih =>
      rw [List.foldlM_cons, bind_eq_ok, List.forall_mem_cons, List.foldl_cons]
      constructor
      · rintro ⟨middle, hmiddle, hrest⟩
        obtain ⟨hgood, rfl⟩ := (hstep s x middle).mp hmiddle
        obtain ⟨hall, ht⟩ := ih.mp hrest
        exact ⟨⟨hgood, hall⟩, ht⟩
      · rintro ⟨⟨hgood, hall⟩, ht⟩
        exact ⟨next s x, (hstep s x _).mpr ⟨hgood, rfl⟩, ih.mpr ⟨hall, ht⟩⟩

section Lists

variable {α β : Type*}

/-- A loop that collects the results of its passes beside a state. -/
theorem foldl_collect {γ : Type*} (step : List β × γ → α → List β × γ) (f : α → List β)
    (next : γ → α → γ) (hstep : ∀ acc x, step acc x = (acc.1 ++ f x, next acc.2 x))
    (l : List α) (acc : List β × γ) :
    l.foldl step acc = (acc.1 ++ l.flatMap f, l.foldl next acc.2) := by
  induction l generalizing acc with
  | nil => simp
  | cons x l ih =>
      rw [List.foldl_cons, ih, hstep, List.flatMap_cons, List.append_assoc]
      rfl

theorem exists_mem_map {f : α → β} {P : β → Prop} {l : List α} :
    (∃ b ∈ l.map f, P b) ↔ ∃ a ∈ l, P (f a) := by
  simp

theorem forall_mem_zipIdx {P : α → Prop} {l : List α} {n : ℕ} :
    (∀ x ∈ l.zipIdx n, P x.1) ↔ ∀ a ∈ l, P a := by
  rw [← List.forall_mem_map (f := Prod.fst) (P := P), List.zipIdx_map_fst]

theorem exists_mem_zipIdx {P : α → Prop} {l : List α} {n : ℕ} :
    (∃ x ∈ l.zipIdx n, P x.1) ↔ ∃ a ∈ l, P a := by
  rw [← exists_mem_map (f := Prod.fst) (P := P), List.zipIdx_map_fst]

end Lists

section Forall₂

/-- Two lists related to a third one, position by position. -/
theorem forall₂_through {γ : Type*} {R : α → β → Prop} {S : α → γ → Prop} {T : γ → β → Prop}
    {l : List α} {m : List β} {n : List γ} (hthrough : ∀ a b c, R a b → S a c → T c b)
    (hR : List.Forall₂ R l m) (hS : List.Forall₂ S l n) : List.Forall₂ T n m := by
  induction hR generalizing n with
  | nil =>
      cases hS
      exact List.Forall₂.nil
  | cons hhead _ ih =>
      cases hS with
      | cons hother htail => exact List.Forall₂.cons (hthrough _ _ _ hhead hother) (ih htail)

variable {R : α → β → Prop} {l : List α} {m : List β}

theorem exists_forall₂ (hall : ∀ a ∈ l, ∃ b, R a b) : ∃ m, List.Forall₂ R l m := by
  induction l with
  | nil => exact ⟨[], List.Forall₂.nil⟩
  | cons a l ih =>
      obtain ⟨b, hb⟩ := hall a List.mem_cons_self
      obtain ⟨m, hm⟩ := ih fun c hc => hall c (List.mem_cons_of_mem a hc)
      exact ⟨b :: m, List.Forall₂.cons hb hm⟩

theorem forall₂_exists_right (h : List.Forall₂ R l m) {a : α} (ha : a ∈ l) :
    ∃ b ∈ m, R a b := by
  induction h with
  | nil => simp at ha
  | cons hhead _ ih =>
      rcases List.mem_cons.mp ha with rfl | htail
      · exact ⟨_, List.mem_cons_self, hhead⟩
      · obtain ⟨b, hb, hR⟩ := ih htail
        exact ⟨b, List.mem_cons_of_mem _ hb, hR⟩

theorem forall₂_imp_of_mem {S : α → β → Prop} (h : List.Forall₂ R l m)
    (himp : ∀ a, ∀ b ∈ m, R a b → S a b) : List.Forall₂ S l m := by
  induction h with
  | nil => exact .nil
  | cons hhead _ ih =>
      exact .cons (himp _ _ List.mem_cons_self hhead)
        (ih fun a b hb => himp a b (List.mem_cons_of_mem _ hb))

theorem forall₂_imp_of_mem_left {S : α → β → Prop} (h : List.Forall₂ R l m)
    (himp : ∀ a ∈ l, ∀ b, R a b → S a b) : List.Forall₂ S l m := by
  induction h with
  | nil => exact .nil
  | cons hhead _ ih =>
      exact .cons (himp _ List.mem_cons_self _ hhead)
        (ih fun a ha => himp a (List.mem_cons_of_mem _ ha))

theorem forall₂_exists_left (h : List.Forall₂ R l m) {b : β} (hb : b ∈ m) :
    ∃ a ∈ l, R a b :=
  forall₂_exists_right h.flip hb

theorem forall₂_replicate {b : β} (hall : ∀ a ∈ l, R a b) :
    List.Forall₂ R l (List.replicate l.length b) := by
  induction l with
  | nil => exact .nil
  | cons a l ih =>
      rw [List.forall_mem_cons] at hall
      exact .cons hall.1 (ih hall.2)

theorem forall₂_getD (h : List.Forall₂ R l m) {a : α} {b : β} (hdefault : R a b) (i : ℕ) :
    R (l.getD i a) (m.getD i b) := by
  induction h generalizing i with
  | nil => exact hdefault
  | cons hhead _ ih =>
      cases i with
      | zero => exact hhead
      | succ i => exact ih i

/-- Two lists related through a third one that is not known. -/
theorem exists_forall₂_comp {γ : Type*} {S : β → γ → Prop} {n : List γ}
    (h : List.Forall₂ (fun a c => ∃ b, R a b ∧ S b c) l n) :
    ∃ m, List.Forall₂ R l m ∧ List.Forall₂ S m n := by
  induction h with
  | nil => exact ⟨[], List.Forall₂.nil, List.Forall₂.nil⟩
  | cons hhead _ ih =>
      obtain ⟨b, hR, hS⟩ := hhead
      obtain ⟨m, hfirst, hsecond⟩ := ih
      exact ⟨b :: m, List.Forall₂.cons hR hfirst, List.Forall₂.cons hS hsecond⟩

end Forall₂

end Foundation
