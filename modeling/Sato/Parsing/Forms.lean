import Sato.Parsing.Relation

/-! # The rewritings of a literal

Each text that the first normaliser makes is split into the terms of a left side,
the text of a bound for it, and a sign. A text `1+exp<=0` has the bound `-1` for `exp`.
-/

namespace Sato

open Foundation

namespace Inequation

/-- The inequation read from a left side and its bound. -/
def readLeft (vars : List IntegerVariable) (bound : ℤ) (sign : Bool) (left : Str) :
    Except Str Inequation := do
  let state ← (splitTerms left).foldlM (addTerm vars) ⟨[], bound⟩
  return { terms := state.terms, «variables» := vars, const := state.const, sign }

theorem parseExpression_eq_readLeft {text left right : Str} {sign : Bool}
    (hsplit : splitExpression text = .ok (splitTerms left, right, sign))
    (vars : List IntegerVariable) :
    parseExpression text vars = readLeft vars (intval right) sign left := by
  rw [parseExpression, hsplit]
  rfl

/-! ## Removal of the negation -/

theorem getLast?_of_negated {start : Bool} {s : Str} {found : Match × Str}
    (hfound : found ∈ (Regex.seq (.lit "-(".toList) (.seq (.group (.star (· != '\n')))
      (.seq (.lit [')']) .eol))).run start s) :
    s.getLast? = some ')' ∨ s.getLast? = some '\n' := by
  obtain ⟨first, hfirst, right, hright, -⟩ := Regex.mem_run_seq.mp hfound
  obtain ⟨inner, hinner, right, hright, -⟩ := Regex.mem_run_seq.mp hright
  obtain ⟨paren, hparen, right, hright, -⟩ := Regex.mem_run_seq.mp hright
  have htext := Regex.run_append hfirst
  rw [← Regex.run_append hinner, ← Regex.run_append hparen] at htext
  have hword : paren.1.text = [')'] := by
    unfold Regex.run at hparen
    split at hparen
    · rw [List.mem_singleton.mp hparen]
    · simp at hparen
  unfold Regex.run at hright
  split at hright
  next hend =>
    rw [← htext, hword]
    rcases hend with hend | hend
    · left
      simp [hend]
    · right
      simp [hend]
  next => simp at hright

theorem removeNegation_of_getLast {s : Str} {c : Char} (hlast : s.getLast? = some c)
    (hparen : c ≠ ')') (hline : c ≠ '\n') (sign : Bool) :
    removeNegation s sign = (s, sign) := by
  have hnone : pregMatch negatedPattern s = none := by
    rw [negatedPattern, pregMatch_bol]
    apply Regex.headMatch_eq_none_of_run
    rw [List.eq_nil_iff_forall_not_mem]
    intro found hfound
    rcases getLast?_of_negated hfound with h | h
    · exact hparen (Option.some.inj (hlast.symm.trans h))
    · exact hline (Option.some.inj (hlast.symm.trans h))
  unfold removeNegation
  rw [hnone]

/-- The group is as long as possible, so it ends at the last parenthesis. -/
theorem removeNegation_paren {inner : Str} (hline : '\n' ∉ inner) (sign : Bool) :
    removeNegation ('-' :: '(' :: (inner ++ [')'])) sign = (inner, !sign) := by
  have hlit : "-(".toList = ['-', '('] := by decide
  have hend : ∀ start, ((Regex.seq (.lit [')']) .eol).run start [')']).head? =
      some (⟨[')'], []⟩, []) := fun start => by simp [Regex.run, Match.append]
  have hbody : ∀ start,
      ((Regex.seq (.group (.star (· != '\n'))) (.seq (.lit [')']) .eol)).run start
        (inner ++ [')'])).head? = some (⟨inner ++ [')'], [inner]⟩, []) := by
    intro start
    refine Regex.head?_run_group_star_seq (fun d hd => ?_) (by decide) (fun b split hsplit => ?_)
      (hend _)
    · rw [bne_iff_ne]
      rintro rfl
      exact hline hd
    · rw [greedy, List.mem_singleton] at hsplit
      rw [hsplit]
      rfl
  have hrun := Regex.head?_run_seq (Regex.head?_run_lit ['-', '('] true (inner ++ [')']))
    (hbody _)
  have hmatch : pregMatch negatedPattern ('-' :: '(' :: (inner ++ [')'])) =
      some ⟨'-' :: '(' :: (inner ++ [')']), [inner]⟩ := by
    rw [negatedPattern, pregMatch_bol, hlit]
    exact Regex.headMatch_of_head? hrun (List.cons_ne_nil _ _)
  unfold removeNegation
  rw [hmatch]

/-! ## Texts with the relation `<=` -/

theorem splitExpression_of_normalizeExpression {text left right : Str} {sign : Bool}
    (hnormal : normalizeExpression (trim text) true = .ok (left ++ '<' :: '=' :: right, sign))
    (hleft : '<' ∉ left) (hright : '<' ∉ right) :
    splitExpression text = .ok (splitTerms left, right, sign) := by
  have hword : "<=".toList = ['<', '='] := by decide
  have hsplit : pregSplit (.lit ['<', '=']) (left ++ '<' :: '=' :: right) = [left, right] :=
    pregSplit_lit_once hleft hright
  unfold splitExpression
  rw [hnormal, hword]
  simp only [bind, Except.bind, hsplit]
  rfl

theorem pregTest_le (left right : Str) :
    pregTest (.lit "<=".toList) (left ++ '<' :: '=' :: right) = true := by
  have hword : "<=".toList = ['<', '='] := by decide
  rw [hword, pregTest_lit (List.cons_ne_nil _ _)]
  exact ⟨left, right, by simp⟩

theorem normalizeExpression_le {left right : Str} {c : Char} (hright : right.getLast? = some c)
    (hparen : c ≠ ')') (hline : c ≠ '\n') (sign : Bool) :
    normalizeExpression (left ++ '<' :: '=' :: right) sign =
      .ok (left ++ '<' :: '=' :: right, sign) := by
  have hlast : (left ++ '<' :: '=' :: right).getLast? = some c := by
    simp [List.getLast?_append, List.getLast?_cons, hright]
  unfold normalizeExpression
  rw [removeNegation_of_getLast hlast hparen hline]
  simp only [pregTest_le, if_true]

theorem trim_le {c : Char} (hc : isTrimmed c = false) (exp right : Str) :
    trim (exp ++ '<' :: '=' :: (right ++ [c])) = ltrim exp ++ '<' :: '=' :: (right ++ [c]) := by
  have htrim := trim_append_singleton (s := exp ++ '<' :: '=' :: right) hc
  rw [ltrim_append_cons exp (by decide)] at htrim
  simpa using htrim

/-- `exp<=b`. -/
theorem splitExpression_le {exp : Str} (hexp : NoRelation exp) (bound : Str) {c : Char}
    (hc : isDigit c = true) (hbound : '<' ∉ bound) :
    splitExpression (exp ++ '<' :: '=' :: (bound ++ [c])) =
      .ok (splitTerms (ltrim exp), bound ++ [c], true) := by
  have hlt : c ≠ '<' := ne_of_isDigit hc rfl
  refine splitExpression_of_normalizeExpression ?_ ?_ ?_
  · rw [trim_le (isTrimmed_of_isWord (isWord_of_isDigit hc))]
    exact normalizeExpression_le (by simp) (ne_of_isDigit hc rfl) (ne_of_isDigit hc rfl) true
  · exact hexp.trimmed.notMem rfl
  · simpa [hbound] using hlt.symm

/-- `-(exp<=b)`. -/
theorem splitExpression_negated {exp bound : Str} (hexp : NoRelation exp) (hline : '\n' ∉ exp)
    (hbound : '<' ∉ bound) (hbline : '\n' ∉ bound) :
    splitExpression ('-' :: '(' :: (exp ++ '<' :: '=' :: bound ++ [')'])) =
      .ok (splitTerms exp, bound, false) := by
  have hline : '\n' ∉ exp ++ '<' :: '=' :: bound := by simp [hline, hbline]
  refine splitExpression_of_normalizeExpression ?_ (hexp.notMem rfl) hbound
  have htrim : trim ('-' :: '(' :: (exp ++ '<' :: '=' :: bound ++ [')'])) =
      '-' :: '(' :: (exp ++ '<' :: '=' :: bound ++ [')']) :=
    trim_append_singleton (s := '-' :: '(' :: (exp ++ '<' :: '=' :: bound)) (by decide)
  unfold normalizeExpression
  rw [htrim, removeNegation_paren hline]
  simp only [pregTest_le, if_true]
  rfl

/-! ## Texts with another relation -/

theorem headMatch_shiftedPattern_eq_none {start : Bool} {c : Char} {s : Str}
    (hc : isRelation c = false) : shiftedPattern.headMatch start (c :: s) = none := by
  simp only [isRelation, Bool.or_eq_false_iff, beq_eq_false_iff_ne] at hc
  have hge : ">=".toList = ['>', '='] := by decide
  unfold shiftedPattern
  rw [hge, headMatch_alt_lit, if_neg]
  · apply Regex.headMatch_eq_none_of_run
    apply Regex.run_seq_eq_nil
    simp [Regex.run, Ne.symm hc.1.2]
  · rw [List.isPrefixOf_iff_prefix]
    exact fun hstarts => hc.2 (List.cons_prefix_cons.mp hstarts).1.symm

theorem headMatch_shiftedPattern_start (start : Bool) (s : Str) :
    shiftedPattern.headMatch start s = shiftedPattern.headMatch false s := by
  have hcls : ∀ (b : Bool) (t : Str), (Regex.cls (· != '=')).run (start && b) t =
      (Regex.cls (· != '=')).run (false && b) t := by
    intro b t
    cases t <;> rfl
  simp only [shiftedPattern, Regex.headMatch, Regex.run, hcls]

theorem trim_relation_zero (exp : Str) {c : Char} (hc : isTrimmed c = false) (word : Str) :
    trim (exp ++ c :: (word ++ ['0'])) = ltrim exp ++ c :: (word ++ ['0']) := by
  have htrim : trim (exp ++ c :: word ++ ['0']) = ltrim (exp ++ c :: word) ++ ['0'] :=
    trim_append_singleton (by decide)
  rw [ltrim_append_cons exp hc] at htrim
  simpa using htrim

section Shifted

variable {exp : Str} (hexp : NoRelation exp)
include hexp

theorem pregTest_shiftedPattern (t : Str) :
    pregTest shiftedPattern (exp ++ t) = pregTest shiftedPattern t :=
  pregTest_append_of_head (fun _ _ _ => headMatch_shiftedPattern_eq_none)
    headMatch_shiftedPattern_start hexp t

/-- The replacements change nothing before the relation. -/
theorem replaceRelations_append (t : Str) :
    replaceRelations (exp ++ t) = exp ++ replaceRelations t := by
  have hge : ">=".toList = ['>', '='] := by decide
  have hlt : '<' ∉ exp := hexp.notMem rfl
  have hgt : '>' ∉ exp := hexp.notMem rfl
  unfold replaceRelations
  rw [hge, pregReplace_lit_append _ hlt, pregReplace_lit_append _ hgt, pregReplace_lit_append _ hgt]

theorem noRelation_shifted : NoRelation ('1' :: '+' :: exp) := by
  intro c hc
  rcases List.mem_cons.mp hc with rfl | hc
  · rfl
  · rcases List.mem_cons.mp hc with rfl | hc
    · rfl
    · exact hexp c hc

/-- The second normaliser on `exp` and a relation with zero other than `<=`. -/
theorem normalizeExpression_append {t : Str} (hlast : t.getLast? = some '0')
    (hle : pregTest (.lit "<=".toList) t = false)
    (hresult : replaceRelations t = ['<', '=', '0']) (hne : t ≠ ['<', '=', '0']) (sign : Bool) :
    normalizeExpression (exp ++ t) sign =
      .ok ((if pregTest shiftedPattern t then '1' :: '+' :: exp else exp) ++ ['<', '=', '0'],
        if pregTest (.lit ['>']) t then !sign else sign) := by
  have hword : "<=".toList = ['<', '='] := by decide
  have hone : "1+".toList = ['1', '+'] := by decide
  have hlt : '<' ∉ exp := hexp.notMem rfl
  have hgt : '>' ∉ exp := hexp.notMem rfl
  have hend : ∀ s : Str, (s ++ ['<', '=', '0']).getLast? = some '0' := fun s => by simp
  have hlast' : (exp ++ t).getLast? = some '0' := by rw [List.getLast?_append, hlast]; rfl
  rw [hword] at hle
  unfold normalizeExpression
  rw [removeNegation_of_getLast hlast' (by decide) (by decide), hone, hword]
  simp only [pregTest_lit_append hlt, pregTest_lit_append hgt, hle, pregTest_shiftedPattern hexp,
    Bool.false_eq_true, if_false]
  -- the prefix `1+` is put before the text when the relation is shifted
  have hprefixed : (if pregTest shiftedPattern t then ['1', '+'] ++ (exp ++ t) else exp ++ t) =
      (if pregTest shiftedPattern t then '1' :: '+' :: exp else exp) ++ t := by
    split <;> rfl
  have hfree : NoRelation (if pregTest shiftedPattern t then '1' :: '+' :: exp else exp) := by
    split
    · exact noRelation_shifted hexp
    · exact hexp
  rw [hprefixed, replaceRelations_append hfree, hresult, if_neg]
  · rw [removeNegation_of_getLast (hend _) (by decide) (by decide)]
  · rw [List.append_cancel_left_eq]
    exact hne.symm

/-- `exp>=0`: the bound `0` for `1+exp`, negated. -/
theorem splitExpression_ge :
    splitExpression (exp ++ ['>', '=', '0']) =
      .ok (splitTerms ('1' :: '+' :: ltrim exp), ['0'], false) := by
  have htrim : trim (exp ++ ['>', '=', '0']) = ltrim exp ++ ['>', '=', '0'] :=
    trim_relation_zero exp rfl ['=']
  have hnormal : normalizeExpression (ltrim exp ++ ['>', '=', '0']) true =
      .ok ('1' :: '+' :: ltrim exp ++ ['<', '=', '0'], false) :=
    normalizeExpression_append hexp.trimmed rfl (by decide) (by decide) (by decide) true
  rw [← htrim] at hnormal
  exact splitExpression_of_normalizeExpression hnormal
    ((noRelation_shifted hexp.trimmed).notMem rfl) (by decide : '<' ∉ ['0'])

/-- `exp<0`: the bound `0` for `1+exp`. -/
theorem splitExpression_lt :
    splitExpression (exp ++ ['<', '0']) =
      .ok (splitTerms ('1' :: '+' :: ltrim exp), ['0'], true) := by
  have htrim : trim (exp ++ ['<', '0']) = ltrim exp ++ ['<', '0'] :=
    trim_relation_zero exp rfl []
  have hnormal : normalizeExpression (ltrim exp ++ ['<', '0']) true =
      .ok ('1' :: '+' :: ltrim exp ++ ['<', '=', '0'], true) :=
    normalizeExpression_append hexp.trimmed rfl (by decide) (by decide) (by decide) true
  rw [← htrim] at hnormal
  exact splitExpression_of_normalizeExpression hnormal
    ((noRelation_shifted hexp.trimmed).notMem rfl) (by decide : '<' ∉ ['0'])

/-- `exp>0`: the bound `0`, negated. -/
theorem splitExpression_gt :
    splitExpression (exp ++ ['>', '0']) = .ok (splitTerms (ltrim exp), ['0'], false) := by
  have htrim : trim (exp ++ ['>', '0']) = ltrim exp ++ ['>', '0'] :=
    trim_relation_zero exp rfl []
  have hnormal : normalizeExpression (ltrim exp ++ ['>', '0']) true =
      .ok (ltrim exp ++ ['<', '=', '0'], false) :=
    normalizeExpression_append hexp.trimmed rfl (by decide) (by decide) (by decide) true
  rw [← htrim] at hnormal
  exact splitExpression_of_normalizeExpression hnormal (hexp.trimmed.notMem rfl)
    (by decide : '<' ∉ ['0'])

end Shifted

end Inequation

end Sato
