import Sato.Foundation.Scan

/-! # Words

A text split at runs of separators, without empty parts, has the parts between
single separators that are not empty. So a separator before a word is dropped,
and one after it ends it.
-/

namespace Foundation

variable {p : Char → Bool}

theorem not_headMatch_plus {start : Bool} {c : Char} {s : Str}
    (hnone : (Regex.plus p).headMatch start (c :: s) = none) : p c = false := by
  by_contra hc
  rw [Regex.headMatch_of_head? (Regex.head?_run_plus start s (by simpa using hc))
    (List.cons_ne_nil _ _)] at hnone
  contradiction

theorem Regex.mem_run_plus {start : Bool} {s : Str} {found : Match × Str}
    (hfound : found ∈ (Regex.plus p).run start s) : ∀ c ∈ found.1.text, p c = true := by
  obtain ⟨first, hfirst, later, hlater, rfl⟩ := Regex.mem_run_seq.mp hfound
  obtain ⟨d, hd, hdp⟩ := Regex.mem_run_cls hfirst
  intro c hc
  rcases List.mem_append.mp hc with hc | hc
  · rw [hd, List.mem_singleton] at hc
    rwa [hc]
  · exact Regex.mem_run_star hlater c hc

/-- Every separator of a run ends a part. -/
theorem splitOnP_run_append {run : Str} (hrun : ∀ c ∈ run, p c = true) (s : Str) :
    (run ++ s).splitOnP p = List.replicate run.length [] ++ s.splitOnP p := by
  induction run with
  | nil => rfl
  | cons c run ih =>
      rw [List.cons_append, List.splitOnP_cons_eq_if_modifyHead, if_pos (hrun c List.mem_cons_self),
        ih fun d hd => hrun d (List.mem_cons_of_mem c hd)]
      rfl

/-- The two splits have the same first part, and the same later parts but for
empty ones. -/
theorem exists_splitTokens_plus (start : Bool) (s : Str) :
    ∃ head first second, splitTokens ((Regex.plus p).tokens start 0 s) = head :: first ∧
      s.splitOnP p = head :: second ∧
      (first.filter fun part => !part.isEmpty) = second.filter fun part => !part.isEmpty := by
  induction start, s using (Regex.plus p).tokens_induction with
  | nil start => exact ⟨[], [], [], rfl, rfl, rfl⟩
  | unmatched start c s hmatch ih =>
      obtain ⟨head, first, second, hfirst, hsecond, hfilter⟩ := ih
      have hc := not_headMatch_plus hmatch
      refine ⟨c :: head, first, second, ?_, ?_, hfilter⟩
      · rw [Regex.tokens_of_no_match hmatch, splitTokens, hfirst]
        rfl
      · rw [List.splitOnP_cons_eq_if_modifyHead, if_neg (by simp [hc]), hsecond]
        rfl
  | matched start m rest hne hmatch ih =>
      obtain ⟨head, first, second, hfirst, hsecond, hfilter⟩ := ih
      obtain ⟨-, left, hhead, -⟩ := Regex.headMatch_eq_some hmatch
      have hrun := Regex.mem_run_plus (List.mem_of_head? hhead)
      obtain ⟨n, hn⟩ := Nat.exists_eq_succ_of_ne_zero (List.length_pos_iff.mpr hne).ne'
      refine ⟨[], head :: first, List.replicate n [] ++ head :: second, ?_, ?_, ?_⟩
      · rw [Regex.tokens_of_match hmatch, splitTokens, hfirst]
      · rw [splitOnP_run_append hrun, hn, hsecond]
        rfl
      · have hempty : (List.replicate n ([] : Str)).filter (fun part => !part.isEmpty) = [] := by
          simp
        rw [List.filter_append, hempty, List.nil_append, List.filter_cons, List.filter_cons,
          hfilter]

theorem pregSplitNoEmpty_plus (p : Char → Bool) (s : Str) :
    pregSplitNoEmpty (.plus p) s = (s.splitOnP p).filter fun part => !part.isEmpty := by
  obtain ⟨head, first, second, hfirst, hsecond, hfilter⟩ := exists_splitTokens_plus (p := p) true s
  rw [pregSplitNoEmpty, pregSplit, Regex.scan, hfirst, hsecond, List.filter_cons,
    List.filter_cons, hfilter]

theorem words_cons {c : Char} (hc : p c = true) (s : Str) :
    pregSplitNoEmpty (.plus p) (c :: s) = pregSplitNoEmpty (.plus p) s := by
  rw [pregSplitNoEmpty_plus, pregSplitNoEmpty_plus, List.splitOnP_cons_eq_if_modifyHead, if_pos hc]
  rfl

section Word

variable {word : Str} (hne : word ≠ []) (hword : ∀ c ∈ word, p c = false)
include hne hword

theorem words_append_cons {c : Char} (hc : p c = true) (s : Str) :
    pregSplitNoEmpty (.plus p) (word ++ c :: s) = word :: pregSplitNoEmpty (.plus p) s := by
  rw [pregSplitNoEmpty_plus, pregSplitNoEmpty_plus,
    List.splitOnP_append_cons_of_forall_mem hword c hc, List.filter_cons_of_pos (by simpa using hne)]

theorem words_singleton : pregSplitNoEmpty (.plus p) word = [word] := by
  rw [pregSplitNoEmpty_plus, List.splitOnP_eq_singleton hword,
    List.filter_cons_of_pos (by simpa using hne), List.filter_nil]

end Word

end Foundation
