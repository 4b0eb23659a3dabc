import Sato.Parsing.CommandLine
import Sato.Parsing.Expression

/-! # Negated literals

A literal in brackets is cut out of the command line as it stands. The first
normaliser splits a negated one inside its parentheses, so the left side keeps an
opening parenthesis, which no name has.
-/

namespace Sato

open Foundation

namespace CSP

/-- A command line with a clause of one literal. -/
def clauseLine (pre literal post : Str) : Str := pre ++ '[' :: (literal ++ ']' :: post)

/-- No other text up to the next bracket can be taken for a part of the clause. -/
def Closes (post : Str) : Prop := ']' ∉ post.takeWhile (· != '[')

theorem varPattern_avoids : varPattern.Avoids '[' := by
  simp only [varPattern, Regex.plus, Regex.Avoids]
  decide

section Line

variable {literal : Str}

theorem headMatch_varPattern_eq_none {start : Bool} {c : Char} {s : Str}
    (hc : isSpace c = false) : varPattern.headMatch start (c :: s) = none := by
  have hnil : (Regex.cls isSpace).run start (c :: s) = [] := by simp [Regex.run, hc]
  apply Regex.headMatch_eq_none_of_run
  apply Regex.run_seq_eq_nil
  rw [hnil]
  exact fun found hfound => absurd hfound List.not_mem_nil

/-- Declarations are found before and after a literal, never in it. -/
theorem tokens_varPattern (hspace : ∀ c ∈ literal, isSpace c = false) (pre post : Str) :
    varPattern.scan (clauseLine pre literal post) =
      varPattern.scan pre ++ (('[' :: (literal ++ [']'])).map .inl ++
        varPattern.tokens false 0 post) := by
  have hbracket : ∀ c ∈ '[' :: (literal ++ [']']), isSpace c = false := by
    intro c hc
    rcases List.mem_cons.mp hc with rfl | hc
    · rfl
    · rcases List.mem_append.mp hc with hc | hc
      · exact hspace c hc
      · rw [List.mem_singleton.mp hc]
        rfl
  have htail : ∀ b, varPattern.tokens b 0 ('[' :: (literal ++ [']']) ++ post) =
      ('[' :: (literal ++ [']'])).map .inl ++ varPattern.tokens false 0 post := by
    intro b
    have htokens := Regex.tokens_append_of_head
      (fun _ _ _ hc => headMatch_varPattern_eq_none hc) hbracket b post
    simpa using htokens
  rw [clauseLine, Regex.scan, varPattern_avoids.barrier.tokens_append]
  have hassoc : '[' :: (literal ++ ']' :: post) = '[' :: (literal ++ [']']) ++ post := by simp
  rw [hassoc, htail]
  rfl

theorem closes_replaceTokens {post : Str} (hpost : Closes post) :
    Closes (replaceTokens [] (varPattern.tokens false 0 post)) := by
  have hsplit := List.takeWhile_append_dropWhile (p := (· != '[')) (l := post)
  cases hrest : post.dropWhile (· != '[') with
  | nil =>
      rw [hrest, List.append_nil] at hsplit
      intro hmem
      have hsub := mem_of_mem_replaceTokens (List.takeWhile_subset _ hmem)
      rw [← hsplit] at hsub
      exact hpost hsub
  | cons c rest =>
      have hc : c = '[' := by
        have hhead := List.head?_dropWhile_not (· != '[') post
        rw [hrest] at hhead
        simpa using hhead
      subst hc
      rw [hrest] at hsplit
      have hscan : ∀ b, varPattern.tokens b 0 ('[' :: rest) =
          .inl '[' :: varPattern.tokens false 0 rest := fun b =>
        Regex.tokens_of_no_match (headMatch_varPattern_eq_none rfl)
      rw [← hsplit, varPattern_avoids.barrier.tokens_append, hscan, replaceTokens_append]
      intro hmem
      -- what is kept of the text before the bracket has no bracket
      have hbefore : ∀ d ∈ replaceTokens [] (varPattern.tokens false 0
          (post.takeWhile (· != '['))), (d != '[') = true := fun d hd =>
        List.mem_takeWhile_imp (p := (· != '[')) (mem_of_mem_replaceTokens hd)
      rw [List.takeWhile_append_of_pos hbefore] at hmem
      have hstop : (replaceTokens [] (.inl '[' :: varPattern.tokens false 0 rest)).takeWhile
          (· != '[') = [] := by simp [replaceTokens]
      rw [hstop, List.append_nil] at hmem
      exact hpost (mem_of_mem_replaceTokens hmem)

theorem headMatch_clausePattern {rest : Str} (hne : literal ≠ []) (hopen : '[' ∉ literal)
    (hrest : Closes rest) (start : Bool) :
    clausePattern.headMatch start ('[' :: (literal ++ ']' :: rest)) =
      some ⟨'[' :: (literal ++ [']']), []⟩ := by
  have hall : ∀ d ∈ literal, (d != '[') = true := by
    intro d hd
    rw [bne_iff_ne]
    rintro rfl
    exact hopen hd
  have hfail : ∀ b, ∀ split ∈ greedy (· != '[') rest,
      (Regex.lit [']']).run b split.2 = [] := by
    intro b split hsplit
    obtain ⟨htext, hrun⟩ := greedy_append hsplit
    apply run_lit_eq_nil
    intro hhead
    obtain ⟨later, hlater⟩ := List.head?_eq_some_iff.mp hhead
    apply hrest
    rw [← htext, hlater, List.takeWhile_append_of_pos hrun]
    simp
  have hbody : ∀ b, ((Regex.seq (.plus (· != '[')) (.lit [']'])).run b
      (literal ++ ']' :: rest)).head? = some (⟨literal ++ [']'], []⟩, rest) := fun b =>
    Regex.head?_run_plus_seq hne hall (by decide) hfail (Regex.head?_run_lit [']'] false rest)
  exact Regex.headMatch_of_head? (Regex.head?_run_seq
    (Regex.head?_run_lit ['['] start (literal ++ ']' :: rest)) (hbody _)) (List.cons_ne_nil _ _)

/-- Outside the literal the declarations are cut out. -/
theorem pregReplace_clauseLine (hspace : ∀ c ∈ literal, isSpace c = false) (pre post : Str) :
    pregReplace varPattern [] (clauseLine pre literal post) =
      clauseLine (pregReplace varPattern [] pre) literal
        (replaceTokens [] (varPattern.tokens false 0 post)) := by
  rw [pregReplace, tokens_varPattern hspace, replaceTokens_append, replaceTokens_append,
    replaceTokens_map]
  simp [clauseLine, pregReplace]

theorem strip_brackets (hopen : '[' ∉ literal) (hclose : ']' ∉ literal) :
    pregReplace (.cls (· == ']')) [] (pregReplace (.cls (· == '[')) []
      ('[' :: (literal ++ [']']))) = literal := by
  have hkeep : ∀ {d : Char}, d ∉ literal →
      literal.flatMap (fun c => if c == d then [] else [c]) = literal := by
    intro d hd
    have hcongr : literal.flatMap (fun c => if c == d then [] else [c]) =
        literal.flatMap fun c => [c] := by
      refine List.flatMap_congr fun c hc => if_neg ?_
      rw [beq_iff_eq]
      rintro rfl
      exact hd hc
    rw [hcongr, List.flatMap_singleton']
  have hfirst : ('[' :: (literal ++ [']'])).flatMap (fun c => if c == '[' then [] else [c]) =
      literal ++ [']'] := by
    rw [List.flatMap_cons, List.flatMap_append, hkeep hopen]
    rfl
  have hsecond : (literal ++ [']']).flatMap (fun c => if c == ']' then [] else [c]) =
      literal := by
    rw [List.flatMap_append, hkeep hclose]
    simp
  rw [pregReplace_cls, pregReplace_cls, hfirst, hsecond]

theorem mem_pregMatchAll_clauseLine {rest : Str} (hne : literal ≠ []) (hopen : '[' ∉ literal)
    (hrest : Closes rest) (pre : Str) :
    (⟨'[' :: (literal ++ [']']), []⟩ : Match) ∈
      pregMatchAll clausePattern (clauseLine pre literal rest) := by
  have hbarrier : clausePattern.Barrier '[' := by
    apply Regex.barrier_cons
    simp only [Regex.plus, Regex.Avoids]
    decide
  refine List.mem_filterMap.mpr ⟨.inr ⟨'[' :: (literal ++ [']']), []⟩, ?_, rfl⟩
  rw [Regex.scan, clauseLine, hbarrier.tokens_append, Regex.tokens,
    headMatch_clausePattern hne hopen hrest]
  exact List.mem_append_right _ List.mem_cons_self

/-- A literal in brackets is the only one of its clause. -/
theorem mem_clauseLiterals_clauseLine (hspace : ∀ c ∈ literal, isSpace c = false) {post : Str}
    (hne : literal ≠ []) (hopen : '[' ∉ literal) (hclose : ']' ∉ literal) (hpost : Closes post)
    (pre : Str) : [literal] ∈ clauseLiterals (clauseLine pre literal post) := by
  have hmatch := mem_pregMatchAll_clauseLine hne hopen (closes_replaceTokens hpost)
    (pregReplace varPattern [] pre)
  rw [clauseLiterals, pregReplace_clauseLine hspace]
  refine List.mem_map.mpr ⟨_, hmatch, ?_⟩
  rw [strip_brackets hopen hclose, IntegerVariable.words, words_singleton hne hspace]

end Line

/-! ## The negated literal -/

/-- The negated form of a literal. -/
def negatedText (literal : Str) : Str := "-(".toList ++ literal ++ ")".toList

theorem negatedText_eq (literal : Str) :
    negatedText literal = '-' :: '(' :: (literal ++ [')']) := by
  have hopen : "-(".toList = ['-', '('] := by decide
  have hclose : ")".toList = [')'] := by decide
  rw [negatedText, hopen, hclose]
  rfl

/-- The relation is found inside the parentheses. -/
theorem splitsAt_negatedText (left : LinearExpression) (op : Op) (right : LinearExpression) :
    SplitsAt (negatedText (constraintText left op right)) ('-' :: '(' :: left.text) op
      (right.text ++ [')']) where
  text := by simp [negatedText_eq, constraintText]
  left_free := by
    intro c hc
    rcases List.mem_cons.mp hc with rfl | hc
    · rfl
    · rcases List.mem_cons.mp hc with rfl | hc
      · rfl
      · exact left.noRelation_text c hc
  right_free := by
    apply right.noRelation_text.append
    intro c hc
    rw [List.mem_singleton.mp hc]
    rfl
  not_bang := by
    intro _ hlast
    have hmem := List.mem_of_getLast? hlast
    have hnot : '!' ∉ left.text := left.not_mem_text (by decide) (by decide) rfl
    simp [hnot] at hmem

/-- A character of a negated literal. -/
theorem mem_negatedText {left right : LinearExpression} {op : Op} {c : Char}
    (hc : c ∈ negatedText (constraintText left op right)) :
    c = '-' ∨ c = '(' ∨ c = ')' ∨ c = '+' ∨ c = '!' ∨ isRelation c = true ∨ isWord c = true := by
  have hop : ∀ d ∈ op.text, d = '!' ∨ isRelation d = true := by
    cases op <;> simp [Op.text, isRelation]
  rw [negatedText_eq, constraintText] at hc
  simp only [List.mem_cons, List.mem_append, List.not_mem_nil, or_false] at hc
  rcases hc with hc | hc | (hc | hc | hc) | hc
  · exact Or.inl hc
  · exact Or.inr (Or.inl hc)
  · rcases LinearExpression.mem_text hc with h | h | h <;> simp [h]
  · rcases hop c hc with h | h <;> simp [h]
  · rcases LinearExpression.mem_text hc with h | h | h <;> simp [h]
  · exact Or.inr (Or.inr (Or.inl hc))

theorem isSpace_of_mem_negatedText {left right : LinearExpression} {op : Op} {c : Char}
    (hc : c ∈ negatedText (constraintText left op right)) : isSpace c = false := by
  rcases mem_negatedText hc with rfl | rfl | rfl | rfl | rfl | h | h
  · rfl
  · rfl
  · rfl
  · rfl
  · rfl
  · simp only [isRelation, Bool.or_eq_true, beq_iff_eq] at h
    rcases h with (rfl | rfl) | rfl <;> rfl
  · exact isSpace_of_isWord h

theorem not_mem_negatedText {left right : LinearExpression} {op : Op} {c : Char}
    (hc : c = '[' ∨ c = ']') : c ∉ negatedText (constraintText left op right) := by
  intro hmem
  rcases mem_negatedText hmem with h | h | h | h | h | h | h <;> rcases hc with rfl | rfl <;>
    simp [isRelation, isWord, isLetter, isDigit] at h

/-- A text made of a negated literal is never read. -/
theorem parseExpression_negatedText_ne_ok {vars : List IntegerVariable} (hvars : Declared vars)
    {left right : LinearExpression} {op : Op} {text : Str}
    (hmade : MadeFrom (negatedText (constraintText left op right)) text) (e : Inequation) :
    Inequation.parseExpression text vars ≠ .ok e := by
  intro hok
  have hline : '\n' ∉ negatedText (constraintText left op right) := fun hmem =>
    absurd (isSpace_of_mem_negatedText hmem) (by decide)
  obtain ⟨form, -, hread⟩ := hmade.readAs hvars (splitsAt_negatedText left op right) hline hok
  -- the first summand has a name that begins with the parenthesis
  have hx : ⟨false, '(' :: (cut isPlus left.text).1⟩ ∈
      literalSummands (ltrim ('-' :: '(' :: left.text)) (right.text ++ [')']) := by
    have htrim : ltrim ('-' :: '(' :: left.text) = '-' :: '(' :: left.text :=
      ltrim_eq_self (by simp; rfl)
    have hfirst : ⟨false, '(' :: (cut isPlus left.text).1⟩ ∈
        summands isPlus ('-' :: '(' :: left.text) := by
      simp [summands, cut, isPlus]
    rw [htrim]
    exact List.mem_filter.mpr ⟨List.mem_append_left _ hfirst, rfl⟩
  have hname : (⟨false, '(' :: (cut isPlus left.text).1⟩ : Summand).name =
      '(' :: (cut isPlus left.text).1 := rfl
  obtain ⟨c, t, heq, hc, -⟩ := hread.reading.isName hvars hx (by simp [hname])
  rw [hname] at heq
  rw [← (List.cons.inj heq).1] at hc
  contradiction

/-- No command line with a negated literal is accepted. -/
theorem parseExpression_clauseLine_ne_ok {post : Str} (hpost : Closes post) (pre : Str)
    (left : LinearExpression) (op : Op) (right : LinearExpression) (csp : CSP) :
    parseExpression (clauseLine pre (negatedText (constraintText left op right)) post) ≠
      .ok csp := by
  intro hok
  obtain ⟨hdeclarations, hconstraints⟩ := parseExpression_eq_ok.mp hok
  have hvars := declared_of_declarationTexts hdeclarations
  have hne : negatedText (constraintText left op right) ≠ [] := by simp [negatedText_eq]
  have hclause := mem_clauseLiterals_clauseLine (fun _ => isSpace_of_mem_negatedText) hne
    (not_mem_negatedText (Or.inl rfl)) (not_mem_negatedText (Or.inr rfl)) hpost pre
  obtain ⟨text, hmade⟩ := exists_madeFrom (splitsAt_negatedText left op right)
  obtain ⟨_, _, e, _, hread⟩ :=
    exists_mem_of_text hconstraints hclause (List.mem_singleton.mpr rfl) hmade
  exact parseExpression_negatedText_ne_ok hvars hmade e hread

/-- The negated form of an accepted constraint is not accepted as its complement. -/
theorem negated_not_complement {pre post : Str} (hpost : Closes post) (left : LinearExpression)
    (op : Op) (right : LinearExpression) {csp : CSP}
    (haccepted : parseExpression (clauseLine pre (constraintText left op right) post) =
      .ok csp) :
    ¬ ∀ plain, parseExpression (clauseLine pre (constraintText left op right) post) = .ok plain →
      ∃ negated,
        parseExpression (clauseLine pre (negatedText (constraintText left op right)) post) =
          .ok negated ∧
        ∀ σ, InDomains σ plain.variables → (negated.Satisfied σ ↔ ¬ plain.Satisfied σ) := by
  intro hcomplement
  obtain ⟨negated, hok, -⟩ := hcomplement csp haccepted
  exact parseExpression_clauseLine_ne_ok hpost pre left op right negated hok

/-- `x<=1` is accepted, `-(x<=1)` is not. -/
theorem negated_not_complement_bound :
    let left : LinearExpression := ⟨false, .name (singleLetter 'x' rfl), []⟩
    let right : LinearExpression := ⟨false, .number (singleDigit '1' rfl), []⟩
    let pre : Str := " x  0  2  ".toList
    ¬ ∀ plain, parseExpression (clauseLine pre (constraintText left .le right) " ".toList) =
        .ok plain →
      ∃ negated,
        parseExpression (clauseLine pre (negatedText (constraintText left .le right))
          " ".toList) = .ok negated ∧
        ∀ σ, InDomains σ plain.variables → (negated.Satisfied σ ↔ ¬ plain.Satisfied σ) := by
  intro left right pre
  let x : IntegerVariable := ⟨['x'], ⟨0, 2, by decide⟩⟩
  have hpost : Closes " ".toList := by unfold Closes; decide
  have haccepted : parseExpression (clauseLine pre (constraintText left .le right) " ".toList) =
      .ok ⟨[x], [[{ terms := [⟨x, 1⟩], «variables» := [x], const := 1 }]]⟩ := by decide +kernel
  exact negated_not_complement hpost left .le right haccepted

/-- The help's example: the negated literal leaves a summand with the name `(`. -/
theorem negated_help_rejected :
    let left : LinearExpression :=
      ⟨true, .name (singleLetter 'x' rfl), [(true, .name (singleLetter 'y' rfl))]⟩
    let right : LinearExpression := ⟨true, .number (singleDigit '3' rfl), []⟩
    let pre : Str := " x  1  3  y  -1  0  [x+y<1]  ".toList
    constraintText left .ge right = "-x+y>=-3".toList ∧
      (parseExpression (clauseLine pre (constraintText left .ge right) " ".toList)).isOk = true ∧
      parseExpression (clauseLine pre (negatedText (constraintText left .ge right)) " ".toList) =
        .error (Inequation.variableError ['('] ++ parseError) := by
  decide +kernel

end CSP

end Sato
