import Sato.Parsing.Interleaving

/-! # Arguments that are neither declarations nor clauses

Options that the script does not take out stay in the text that is parsed. Such a
word is passed over by the scan for declarations, and it stands outside of every
clause.
-/

namespace Sato

open Foundation

/-- A word that is left among the declarations and clauses. -/
structure Flag where
  word : Str
  hasNonWord : HasNonWord word
  isSpace_of_mem : ∀ c ∈ word, isSpace c = false
  open_not_mem : '[' ∉ word
  close_not_mem : ']' ∉ word

/-- The arguments that are parsed, in the order in which they are given. -/
inductive Group where
  | declaration (d : Declaration)
  | clause (c : Clause)
  | flag (f : Flag)

namespace Group

def arguments : Group → List Str
  | declaration d => d.arguments
  | clause c => c.arguments
  | flag f => [f.word]

def declaration? : Group → Option Declaration
  | declaration d => some d
  | _ => none

def clause? : Group → Option Clause
  | clause c => some c
  | _ => none

def text (group : Group) : Str := group.arguments.flatMap spaced

/-- What is left of the text without the declarations. -/
def later : Group → Str
  | declaration _ => []
  | clause c => c.text
  | flag f => spaced f.word

/-- What the scan for declarations makes of the text. -/
def declarationTokens : Group → List (Char ⊕ Match)
  | declaration d => [.inr ⟨d.text, []⟩]
  | clause c => c.text.map .inl
  | flag f => (spaced f.word).map .inl

/-- What the scan for clauses makes of the text that is left. -/
def clauseTokens : Group → List (Char ⊕ Match)
  | declaration _ => []
  | clause c => [.inl ' ', .inr ⟨c.bracketed, []⟩, .inl ' ']
  | flag f => (spaced f.word).map .inl

theorem arguments_ne_nil (group : Group) : group.arguments ≠ [] := by
  cases group with
  | declaration d => simp [arguments, Declaration.arguments]
  | clause c =>
      obtain ⟨first, rest, heq⟩ := List.exists_cons_of_ne_nil c.ne_nil
      cases rest <;> simp [arguments, Clause.arguments, heq, Clause.gluedArguments,
        Clause.closeLast]
  | flag f => simp [arguments]

end Group

namespace CSP

/-- The text that is parsed for arguments in groups. -/
theorem joinArguments_groups {groups : List Group} (hne : groups ≠ []) :
    joinArguments (groups.flatMap Group.arguments) = groups.flatMap Group.text := by
  have harguments : groups.flatMap Group.arguments ≠ [] := by
    obtain ⟨group, groups, rfl⟩ := List.exists_cons_of_ne_nil hne
    rw [List.flatMap_cons]
    exact List.append_ne_nil_of_left_ne_nil group.arguments_ne_nil _
  rw [joinArguments_eq harguments, List.flatMap_assoc]
  rfl

theorem head?_flatMap_text (groups : List Group) :
    ∀ c ∈ (groups.flatMap Group.text).head?, isLetter c = false := by
  cases groups with
  | nil => simp
  | cons group groups =>
      obtain ⟨argument, rest, heq⟩ := List.exists_cons_of_ne_nil group.arguments_ne_nil
      intro c hc
      rw [List.flatMap_cons, Group.text, heq, List.flatMap_cons, spaced] at hc
      rw [← Option.some.inj hc]
      rfl

section Scan

variable {groups : List Group}
  (hclauses : ∀ clause ∈ groups.filterMap Group.clause?, clause.HasNonWords)
include hclauses

theorem tokens_varPattern_groups :
    varPattern.tokens false 0 (groups.flatMap Group.text) =
      groups.flatMap Group.declarationTokens := by
  induction groups with
  | nil => rfl
  | cons group groups ih =>
      have htail : varPattern.tokens false 0 (groups.flatMap Group.text) =
          groups.flatMap Group.declarationTokens := by
        refine ih fun clause hclause => hclauses clause ?_
        rw [List.filterMap_cons]
        split
        · exact hclause
        · exact List.mem_cons_of_mem _ hclause
      have hhead := head?_flatMap_text groups
      rw [List.flatMap_cons, List.flatMap_cons, ← htail]
      cases group with
      | declaration d => exact d.tokens_text _
      | clause c => exact (hclauses c (by simp [Group.clause?])).tokens_text hhead
      | flag f =>
          have htext : (Group.flag f).text = spaced f.word := by simp [Group.text, Group.arguments]
          rw [htext]
          exact tokens_varPattern_spaced f.isSpace_of_mem f.hasNonWord hhead

theorem scan_varPattern_groups :
    varPattern.scan (groups.flatMap Group.text) = groups.flatMap Group.declarationTokens := by
  have hstart : ∀ start s, varPattern.headMatch start s = varPattern.headMatch false s :=
    Regex.headMatch_cls_seq_start isSpace _
  rw [Regex.scan, Regex.tokens_of_start hstart, tokens_varPattern_groups hclauses]

theorem declarationTexts_groups :
    declarationTexts (groups.flatMap Group.text) =
      (groups.filterMap Group.declaration?).map Declaration.text := by
  rw [declarationTexts, pregMatchAll, scan_varPattern_groups hclauses]
  clear hclauses
  induction groups with
  | nil => rfl
  | cons group groups ih =>
      rw [List.flatMap_cons, List.filterMap_append, List.map_append, ih]
      cases group with
      | declaration d => rfl
      | clause c => rw [Group.declarationTokens, filterMap_inl]; rfl
      | flag f => rw [Group.declarationTokens, filterMap_inl]; rfl

theorem pregReplace_groups :
    pregReplace varPattern [] (groups.flatMap Group.text) = groups.flatMap Group.later := by
  rw [pregReplace, scan_varPattern_groups hclauses, replaceTokens, List.flatMap_assoc]
  refine List.flatMap_congr fun group _ => ?_
  cases group with
  | declaration d => rfl
  | clause c => exact replaceTokens_map [] c.text
  | flag f => exact replaceTokens_map [] (spaced f.word)

end Scan

/-! ## The scan for clauses -/

theorem headMatch_clausePattern_ne {c : Char} (hc : c ≠ '[') (start : Bool) (rest : Str) :
    clausePattern.headMatch start (c :: rest) = none := by
  apply Regex.headMatch_eq_none_of_run
  apply Regex.run_seq_eq_nil
  rw [run_lit_eq_nil start (by simpa using hc)]
  exact fun found hfound => absurd hfound List.not_mem_nil

theorem tokens_clausePattern_flag (f : Flag) (rest : Str) :
    clausePattern.tokens false 0 (spaced f.word ++ rest) =
      (spaced f.word).map .inl ++ clausePattern.tokens false 0 rest := by
  refine Regex.tokens_append_of_head (p := (· == '[')) (fun start c s hc => ?_) ?_ false rest
  · exact headMatch_clausePattern_ne (by simpa using hc) start s
  · intro c hc
    rw [beq_eq_false_iff_ne]
    rintro rfl
    rw [spaced, List.mem_cons, List.mem_append, List.mem_singleton] at hc
    rcases hc with hc | hc | hc
    · contradiction
    · exact f.open_not_mem hc
    · contradiction

/-- Up to the next clause there is no bracket. -/
theorem closes_later (groups : List Group) : Closes (' ' :: groups.flatMap Group.later) := by
  have hpass : ∀ (word rest : Str), '[' ∉ word → ']' ∉ word → Closes rest →
      Closes (word ++ rest) := by
    intro word rest hopen hclose hrest
    have hword : ∀ c ∈ word, (c != '[') = true := by
      intro c hc
      rw [bne_iff_ne]
      rintro rfl
      exact hopen hc
    unfold Closes
    rw [List.takeWhile_append_of_pos hword, List.mem_append, not_or]
    exact ⟨hclose, hrest⟩
  refine hpass [' '] (groups.flatMap Group.later) (by decide) (by decide) ?_
  induction groups with
  | nil => exact List.not_mem_nil
  | cons group groups ih =>
      rw [List.flatMap_cons]
      cases group with
      | declaration d => exact ih
      | clause c =>
          unfold Closes
          simp [Group.later, Clause.text_eq, spaced, Clause.bracketed]
      | flag f =>
          have hopen := f.open_not_mem
          have hclose := f.close_not_mem
          refine hpass _ _ ?_ ?_ ih
          · simpa [Group.later, spaced] using hopen
          · simpa [Group.later, spaced] using hclose

theorem tokens_clausePattern_groups {groups : List Group}
    (hclauses : ∀ clause ∈ groups.filterMap Group.clause?, clause.HasNonWords) :
    clausePattern.tokens false 0 (groups.flatMap Group.later) =
      groups.flatMap Group.clauseTokens := by
  induction groups with
  | nil => rfl
  | cons group groups ih =>
      have htail : clausePattern.tokens false 0 (groups.flatMap Group.later) =
          groups.flatMap Group.clauseTokens := by
        refine ih fun clause hclause => hclauses clause ?_
        rw [List.filterMap_cons]
        split
        · exact hclause
        · exact List.mem_cons_of_mem _ hclause
      rw [List.flatMap_cons, List.flatMap_cons, ← htail]
      cases group with
      | declaration d => rfl
      | flag f => exact tokens_clausePattern_flag f _
      | clause c =>
          have hinterior : c.interior ≠ [] := by
            intro hnil
            have hwords := (hclauses c (by simp [Group.clause?])).words_interior
            rw [hnil] at hwords
            exact c.ne_nil hwords.symm
          have hmatch : clausePattern.headMatch false
              (c.bracketed ++ ' ' :: groups.flatMap Group.later) = some ⟨c.bracketed, []⟩ := by
            have hhead := headMatch_clausePattern hinterior
              (Clause.notMem_interior (by decide) c.open_not_mem) (closes_later groups) false
            simpa [Clause.bracketed] using hhead
          have htext : (Group.clause c).later ++ groups.flatMap Group.later =
              ' ' :: (c.bracketed ++ ' ' :: groups.flatMap Group.later) := by
            simp [Group.later, Clause.text_eq, spaced]
          rw [htext, Regex.tokens_of_no_match (headMatch_clausePattern_ne (by decide) _ _),
            Regex.tokens_of_match (m := ⟨c.bracketed, []⟩) hmatch,
            Regex.tokens_of_no_match (headMatch_clausePattern_ne (by decide) _ _)]
          rfl

theorem clauseLiterals_groups {groups : List Group}
    (hclauses : ∀ clause ∈ groups.filterMap Group.clause?, clause.HasNonWords) :
    clauseLiterals (groups.flatMap Group.text) =
      (groups.filterMap Group.clause?).map Clause.literals := by
  have hstart : ∀ start s, clausePattern.headMatch start s = clausePattern.headMatch false s :=
    Regex.headMatch_lit_seq_start (List.cons_ne_nil _ _) _
  have hmatches : (groups.flatMap Group.clauseTokens).filterMap Sum.getRight? =
      (groups.filterMap Group.clause?).map fun clause => (⟨clause.bracketed, []⟩ : Match) := by
    clear hclauses
    induction groups with
    | nil => rfl
    | cons group groups ih =>
        rw [List.flatMap_cons, List.filterMap_append, ih]
        cases group with
        | declaration d => rfl
        | clause c => rfl
        | flag f => rw [Group.clauseTokens, filterMap_inl]; rfl
  rw [clauseLiterals, pregReplace_groups hclauses, pregMatchAll, Regex.scan,
    Regex.tokens_of_start hstart, tokens_clausePattern_groups hclauses, hmatches, List.map_map]
  refine List.map_congr_left fun clause hclause => ?_
  have hopen : '[' ∉ clause.interior :=
    Clause.notMem_interior (by decide) clause.open_not_mem
  have hclose : ']' ∉ clause.interior :=
    Clause.notMem_interior (by decide) clause.close_not_mem
  rw [Function.comp_apply, Clause.bracketed, strip_brackets hopen hclose,
    (hclauses clause hclause).words_interior]

/-- The words that are neither declarations nor clauses are not read. -/
theorem parseExpression_groups {groups : List Group}
    (hclauses : ∀ clause ∈ groups.filterMap Group.clause?, clause.HasNonWords)
    {constraints : List (List (List Inequation))}
    (hparses : List.Forall₂
      (ClauseParses ((groups.filterMap Group.declaration?).map Declaration.toVariable))
      (groups.filterMap Group.clause?) constraints) :
    parseExpression (joinArguments (groups.flatMap Group.arguments)) =
      .ok ⟨(groups.filterMap Group.declaration?).map Declaration.toVariable,
        constraints.flatten⟩ := by
  by_cases hne : groups = []
  · subst hne
    cases hparses
    decide
  · rw [joinArguments_groups hne]
    refine parseExpression_eq_ok.mpr ⟨?_, ?_⟩
    · rw [declarationTexts_groups hclauses, mapM_eq_ok, List.forall₂_map_left_iff,
        List.forall₂_map_right_iff, List.forall₂_same]
      exact fun d _ => d.parseExpression_text
    · exact parseConstraints_of_clauseParses (clauseLiterals_groups hclauses) hparses

end CSP

end Sato
