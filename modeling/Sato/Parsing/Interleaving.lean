import Sato.Foundation.Interleaving
import Sato.Parsing.Negation
import Sato.Source.Script

/-! # The order of the arguments

A declaration and a clause are each a group of arguments of the script. In any
interleaving of the groups every declaration is one match of the scan for
declarations, no argument of a clause begins one, and what is left once they are
cut out is the text of the clauses in their order.
-/

namespace Sato

open Foundation

/-! ## Groups of arguments -/

/-- A decimal integer, perhaps after a minus sign. -/
structure SignedNumeral where
  negative : Bool
  size : Numeral

namespace SignedNumeral

def text (n : SignedNumeral) : Str := (if n.negative then ['-'] else []) ++ n.size.digits

def value (n : SignedNumeral) : ℤ :=
  if n.negative then -digitsValue n.size.digits else digitsValue n.size.digits

theorem intval_text (n : SignedNumeral) : intval n.text = n.value := by
  have htake : n.size.digits.takeWhile isDigit = n.size.digits :=
    List.takeWhile_eq_self_iff.mpr n.size.isDigit_of_mem
  obtain ⟨c, s, heq⟩ := List.exists_cons_of_ne_nil n.size.ne_nil
  have hc : isDigit c = true := n.size.isDigit_of_mem c (by simp [heq])
  unfold text value
  cases n.negative with
  | true =>
      have hread := intval_minus n.size.digits
      rw [htake] at hread
      simpa using hread
  | false =>
      have hread := intval_digit hc s
      rw [← heq, htake] at hread
      simpa using hread

theorem isSpace_of_mem_text {n : SignedNumeral} {c : Char} (hc : c ∈ n.text) :
    isSpace c = false := by
  rcases List.mem_append.mp hc with hc | hc
  · split at hc
    · rw [List.mem_singleton.mp hc]
      rfl
    · simp at hc
  · exact isSpace_of_isDigit (n.size.isDigit_of_mem c hc)

theorem text_ne_nil (n : SignedNumeral) : n.text ≠ [] :=
  List.append_ne_nil_of_right_ne_nil _ n.size.ne_nil

end SignedNumeral

/-- The arguments that declare a variable. -/
structure Declaration where
  name : VarName
  lower : SignedNumeral
  upper : SignedNumeral
  lower_le_upper : lower.value ≤ upper.value

namespace Declaration

def toVariable (d : Declaration) : IntegerVariable :=
  ⟨d.name.text, ⟨d.lower.value, d.upper.value, d.lower_le_upper⟩⟩

def arguments (d : Declaration) : List Str := [d.name.text, d.lower.text, d.upper.text]

end Declaration

/-- The literals of a clause, without white space or brackets. -/
structure Clause where
  literals : List Str
  ne_nil : literals ≠ []
  isSpace_of_mem : ∀ literal ∈ literals, ∀ c ∈ literal, isSpace c = false
  open_not_mem : ∀ literal ∈ literals, '[' ∉ literal
  close_not_mem : ∀ literal ∈ literals, ']' ∉ literal

namespace Clause

/-- A `]` is glued to the last of the words. -/
def closeLast : Str → List Str → List Str
  | word, [] => [word ++ [']']]
  | word, next :: rest => word :: closeLast next rest

/-- A `[` is glued to the first literal and a `]` to the last. -/
def gluedArguments : List Str → List Str
  | [] => []
  | first :: rest => closeLast ('[' :: first) rest

def arguments (clause : Clause) : List Str := gluedArguments clause.literals

end Clause

/-- The text that the script has parsed for groups of arguments. -/
def commandLine (groups : List (Declaration ⊕ Clause)) : Str :=
  joinArguments (groups.flatMap (Sum.elim Declaration.arguments Clause.arguments))

/-! ## The text of a group -/

/-- An argument between spaces. -/
def spaced (argument : Str) : Str := ' ' :: (argument ++ [' '])

theorem joinArguments_eq {argv : List Str} (hne : argv ≠ []) :
    joinArguments argv = argv.flatMap spaced := by
  induction argv with
  | nil => exact absurd rfl hne
  | cons argument argv ih =>
      cases argv with
      | nil => simp [joinArguments, spaced, List.intercalate_singleton]
      | cons next argv =>
          rw [List.flatMap_cons, ← ih (List.cons_ne_nil _ _)]
          simp [joinArguments, spaced, List.intercalate_cons_cons]

/-- The words of spaced arguments are the arguments. -/
theorem words_flatMap_spaced {argv : List Str} (hne : ∀ argument ∈ argv, argument ≠ [])
    (hspace : ∀ argument ∈ argv, ∀ c ∈ argument, isSpace c = false) :
    IntegerVariable.words (argv.flatMap spaced) = argv := by
  induction argv with
  | nil => rfl
  | cons argument argv ih =>
      rw [List.forall_mem_cons] at hne hspace
      have htext : (argument :: argv).flatMap spaced =
          ' ' :: (argument ++ ' ' :: argv.flatMap spaced) := by simp [spaced]
      rw [htext, IntegerVariable.words, words_cons (by rfl),
        words_append_cons hne.1 hspace.1 (by rfl)]
      exact congrArg (argument :: ·) (ih hne.2 hspace.2)

/-- So are the words of texts with two spaces between them. -/
theorem words_intercalate {texts : List Str} (hne : ∀ text ∈ texts, text ≠ [])
    (hspace : ∀ text ∈ texts, ∀ c ∈ text, isSpace c = false) :
    IntegerVariable.words ([' ', ' '].intercalate texts) = texts := by
  induction texts with
  | nil => rfl
  | cons text texts ih =>
      rw [List.forall_mem_cons] at hne hspace
      cases texts with
      | nil =>
          rw [List.intercalate_singleton, IntegerVariable.words, words_singleton hne.1 hspace.1]
      | cons next texts =>
          have hsplit : [' ', ' '].intercalate (text :: next :: texts) =
              text ++ ' ' :: ' ' :: [' ', ' '].intercalate (next :: texts) := by
            simp [List.intercalate_cons_cons]
          rw [hsplit, IntegerVariable.words, words_append_cons hne.1 hspace.1 (by rfl),
            words_cons (by rfl)]
          exact congrArg (text :: ·) (ih hne.2 hspace.2)

/-! ## Declarations are matches -/

/-- An integer is read up to the space after it. -/
theorem SignedNumeral.reads (n : SignedNumeral) {r : Regex} {later rest : Str}
    (hlater : r.Reads (' ' :: later) rest) :
    (Regex.seq (.opt (· == '-')) (.seq (.plus isDigit) r)).Reads (n.text ++ ' ' :: later) rest := by
  have hdigits : (Regex.seq (.plus isDigit) r).Reads (n.size.digits ++ ' ' :: later) rest := by
    refine Regex.Reads.seq (Regex.Reads.plus n.size.ne_nil n.size.isDigit_of_mem ?_) hlater
    intro c hc
    rw [← Option.some.inj hc]
    rfl
  rw [text, List.append_assoc]
  refine Regex.Reads.seq ?_ hdigits
  cases n.negative with
  | true => exact Regex.Reads.opt rfl
  | false =>
      apply Regex.Reads.opt_nil
      intro c hc
      obtain ⟨d, s, heq⟩ := List.exists_cons_of_ne_nil n.size.ne_nil
      rw [heq] at hc
      obtain rfl : d = c := Option.some.inj hc
      rw [beq_eq_false_iff_ne]
      exact ne_of_isDigit (n.size.isDigit_of_mem d (by simp [heq])) rfl

namespace Declaration

def text (d : Declaration) : Str := d.arguments.flatMap spaced

/-- The scan for declarations reads the whole text of a declaration. -/
theorem reads_text (d : Declaration) (rest : Str) : CSP.varPattern.Reads d.text rest := by
  obtain ⟨c, t, hname, hc, ht⟩ := d.name.isName
  have hspace : ∀ {rest : Str}, (Regex.cls isSpace).Reads [' '] rest := Regex.Reads.cls rfl
  have hupper := d.upper.reads (@hspace rest)
  have hlower := d.lower.reads (hspace.seq (hspace.seq hupper))
  have hword : (Regex.star isWord).Reads t (' ' :: ' ' :: (d.lower.text ++ ' ' :: ' ' ::
      (d.upper.text ++ [' '])) ++ rest) := by
    refine Regex.Reads.star ht fun e he => ?_
    rw [← Option.some.inj he]
    rfl
  have hall := hspace.seq ((Regex.Reads.cls hc).seq (hword.seq (hspace.seq (hspace.seq hlower))))
  have htext : d.text = [' '] ++ ([c] ++ (t ++ ([' '] ++ ([' '] ++ (d.lower.text ++ ' ' ::
      ([' '] ++ (d.upper.text ++ [' ']))))))) := by
    simp [text, arguments, spaced, hname]
  rw [htext]
  exact hall

theorem text_ne_nil (d : Declaration) : d.text ≠ [] := by simp [text, arguments, spaced]

theorem tokens_text (d : Declaration) (rest : Str) :
    CSP.varPattern.tokens false 0 (d.text ++ rest) =
      .inr ⟨d.text, []⟩ :: CSP.varPattern.tokens false 0 rest :=
  Regex.tokens_of_match (m := ⟨d.text, []⟩) ((d.reads_text rest).headMatch d.text_ne_nil false)

/-- The text of a declaration is read as its variable. -/
theorem parseExpression_text (d : Declaration) :
    IntegerVariable.parseExpression d.text = .ok d.toVariable := by
  have hwords : IntegerVariable.words d.text = d.arguments := by
    apply words_flatMap_spaced
    · simp only [arguments, List.forall_mem_cons]
      refine ⟨?_, d.lower.text_ne_nil, d.upper.text_ne_nil, by simp⟩
      obtain ⟨c, t, hname, -⟩ := d.name.isName
      simp [hname]
    · simp only [arguments, List.forall_mem_cons]
      refine ⟨fun c hc => isSpace_of_isWord (d.name.isName.isWord_of_mem hc), ?_, ?_, by simp⟩
      · exact fun c => SignedNumeral.isSpace_of_mem_text
      · exact fun c => SignedNumeral.isSpace_of_mem_text
  unfold IntegerVariable.parseExpression
  rw [hwords]
  simp only [arguments, SignedNumeral.intval_text, d.lower_le_upper, dif_pos]
  rfl

end Declaration

/-! ## Clauses are left alone -/

/-- The text has a character that no name has. -/
def HasNonWord (s : Str) : Prop := ∃ c ∈ s, isWord c = false

theorem HasNonWord.ne_nil {s : Str} (h : HasNonWord s) : s ≠ [] := by
  obtain ⟨c, hc, -⟩ := h
  exact List.ne_nil_of_mem hc

namespace CSP

/-- A name that begins an argument ends inside it, so no space follows it. -/
theorem headMatch_varPattern_argument {argument : Str}
    (hspace : ∀ c ∈ argument, isSpace c = false) (hword : HasNonWord argument) (start : Bool)
    (rest : Str) : varPattern.headMatch start (' ' :: (argument ++ rest)) = none := by
  apply Regex.headMatch_eq_none_of_run
  apply Regex.run_seq_eq_nil
  intro space hfound
  apply Regex.run_seq_eq_nil
  intro letter hletter
  apply Regex.run_seq_eq_nil
  intro word hstar
  apply Regex.run_seq_eq_nil
  have htext : space.1.text ++ (letter.1.text ++ (word.1.text ++ word.2)) =
      ' ' :: (argument ++ rest) := by
    rw [Regex.run_append hstar, Regex.run_append hletter, Regex.run_append hfound]
  obtain ⟨c, hc, -⟩ := Regex.mem_run_cls hfound
  obtain ⟨d, hd, hletter⟩ := Regex.mem_run_cls hletter
  have hall := Regex.mem_run_star hstar
  rw [hc, hd] at htext
  have hsplit : (d :: word.1.text) ++ word.2 = argument ++ rest :=
    (List.cons.inj htext).2
  have hname : ∀ e ∈ d :: word.1.text, isWord e = true := by
    rw [List.forall_mem_cons]
    exact ⟨isWord_of_isLetter hletter, hall⟩
  -- the name stops before the character that no name has
  obtain ⟨e, t, hleft, he⟩ := exists_cons_of_run hname hword hsplit
  rw [hleft]
  intro found hfound
  have hnil : (Regex.cls isSpace).run (start && space.1.text.isEmpty && letter.1.text.isEmpty &&
      word.1.text.isEmpty) (e :: t) = [] := by
    simp [Regex.run, hspace e he]
  rw [hnil] at hfound
  exact absurd hfound List.not_mem_nil

/-- After an argument comes the end or the space before the next one. -/
theorem headMatch_varPattern_gap {rest : Str} (hrest : ∀ c ∈ rest.head?, isLetter c = false)
    (start : Bool) : varPattern.headMatch start (' ' :: rest) = none := by
  apply Regex.headMatch_eq_none_of_run
  apply Regex.run_seq_eq_nil
  intro space hfound
  apply Regex.run_seq_eq_nil
  have htext := Regex.run_append hfound
  obtain ⟨c, hc, -⟩ := Regex.mem_run_cls hfound
  rw [hc] at htext
  have hleft : space.2 = rest := (List.cons.inj htext).2
  rw [hleft]
  intro letter hletter
  have htext' := Regex.run_append hletter
  obtain ⟨d, hd, hdletter⟩ := Regex.mem_run_cls hletter
  rw [hd] at htext'
  have hfalse := hrest d (by rw [← htext']; rfl)
  rw [hdletter] at hfalse
  contradiction

/-- The scan for declarations passes over an argument of a clause. -/
theorem tokens_varPattern_spaced {argument rest : Str}
    (hspace : ∀ c ∈ argument, isSpace c = false) (hword : HasNonWord argument)
    (hrest : ∀ c ∈ rest.head?, isLetter c = false) :
    varPattern.tokens false 0 (spaced argument ++ rest) =
      (spaced argument).map .inl ++ varPattern.tokens false 0 rest := by
  have htext : spaced argument ++ rest = ' ' :: (argument ++ ' ' :: rest) := by simp [spaced]
  rw [htext, Regex.tokens_of_no_match (headMatch_varPattern_argument hspace hword _ _),
    Regex.tokens_append_of_head (fun _ _ _ hc => headMatch_varPattern_eq_none hc) hspace,
    Regex.tokens_of_no_match (headMatch_varPattern_gap hrest _)]
  simp [spaced]

theorem tokens_varPattern_flatMap_spaced {argv : List Str} {rest : Str}
    (hrest : ∀ c ∈ rest.head?, isLetter c = false)
    (hspace : ∀ argument ∈ argv, ∀ c ∈ argument, isSpace c = false)
    (hword : ∀ argument ∈ argv, HasNonWord argument) :
    varPattern.tokens false 0 (argv.flatMap spaced ++ rest) =
      (argv.flatMap spaced).map .inl ++ varPattern.tokens false 0 rest := by
  induction argv with
  | nil => rfl
  | cons argument argv ih =>
      rw [List.forall_mem_cons] at hspace hword
      -- after the argument comes `rest` or the space before the next one
      have hlater : ∀ c ∈ (argv.flatMap spaced ++ rest).head?, isLetter c = false := by
        cases argv with
        | nil => exact hrest
        | cons next argv => simp [spaced, isLetter]
      rw [List.flatMap_cons, List.append_assoc,
        tokens_varPattern_spaced hspace.1 hword.1 hlater, ih hspace.2 hword.2]
      simp

/-- An accepted literal has a relation sign. -/
theorem Accepted.hasNonWord {vars : List IntegerVariable} {literal : Str}
    (h : Accepted vars literal) : HasNonWord literal := by
  obtain ⟨cnf, hok, -⟩ := h
  obtain ⟨left, op, right, hsplit, -⟩ := normalizeExpression_eq_ok.mp hok
  rw [hsplit.text]
  cases op with
  | ne | eq => exact ⟨'=', by simp [Op.text], rfl⟩
  | le | lt => exact ⟨'<', by simp [Op.text], rfl⟩
  | ge | gt => exact ⟨'>', by simp [Op.text], rfl⟩

end CSP

namespace Clause

/-- An argument is a literal but for the brackets glued to it. -/
theorem exists_of_mem_closeLast {word : Str} {rest : List Str} {argument : Str}
    (hargument : argument ∈ closeLast word rest) :
    ∃ literal ∈ word :: rest, literal ⊆ argument ∧ ∀ c ∈ argument, c ∈ literal ∨ c = ']' := by
  induction rest generalizing word with
  | nil =>
      rw [closeLast, List.mem_singleton] at hargument
      subst hargument
      exact ⟨word, List.mem_cons_self, List.subset_append_left _ _, by simp⟩
  | cons next rest ih =>
      rw [closeLast] at hargument
      rcases List.mem_cons.mp hargument with rfl | hargument
      · exact ⟨argument, List.mem_cons_self, List.Subset.refl _, fun c hc => Or.inl hc⟩
      · obtain ⟨literal, hliteral, hsubset, hchars⟩ := ih hargument
        exact ⟨literal, List.mem_cons_of_mem _ hliteral, hsubset, hchars⟩

/-- The text between the brackets. -/
def interior (clause : Clause) : Str := [' ', ' '].intercalate clause.literals

def bracketed (clause : Clause) : Str := '[' :: (clause.interior ++ [']'])

theorem flatMap_closeLast (word : Str) (rest : List Str) :
    (closeLast word rest).flatMap spaced =
      spaced ([' ', ' '].intercalate (word :: rest) ++ [']']) := by
  induction rest generalizing word with
  | nil => simp [closeLast, List.intercalate_singleton]
  | cons next rest ih =>
      rw [closeLast, List.flatMap_cons, ih, List.intercalate_cons_cons]
      simp [spaced]

def text (clause : Clause) : Str := clause.arguments.flatMap spaced

theorem text_eq (clause : Clause) : clause.text = spaced clause.bracketed := by
  obtain ⟨first, rest, heq⟩ := List.exists_cons_of_ne_nil clause.ne_nil
  rw [text, arguments, bracketed, interior, heq, gluedArguments, flatMap_closeLast,
    List.intercalate_cons_cons_left]
  rfl

/-- Every literal has a character that no name has. -/
def HasNonWords (clause : Clause) : Prop := ∀ literal ∈ clause.literals, HasNonWord literal

section Arguments

variable {clause : Clause}

theorem exists_of_mem_arguments {argument : Str} (hargument : argument ∈ clause.arguments) :
    ∃ literal ∈ clause.literals, literal ⊆ argument ∧
      ∀ c ∈ argument, c ∈ literal ∨ c = '[' ∨ c = ']' := by
  obtain ⟨first, rest, heq⟩ := List.exists_cons_of_ne_nil clause.ne_nil
  rw [arguments, heq, gluedArguments] at hargument
  obtain ⟨literal, hliteral, hsubset, hchars⟩ := exists_of_mem_closeLast hargument
  rw [heq]
  rcases List.mem_cons.mp hliteral with rfl | hliteral
  · refine ⟨first, List.mem_cons_self, List.Subset.trans (List.subset_cons_self _ _) hsubset, ?_⟩
    intro c hc
    rcases hchars c hc with hc | hc
    · rcases List.mem_cons.mp hc with hc | hc
      · exact Or.inr (Or.inl hc)
      · exact Or.inl hc
    · exact Or.inr (Or.inr hc)
  · refine ⟨literal, List.mem_cons_of_mem _ hliteral, hsubset, fun c hc => ?_⟩
    exact (hchars c hc).imp_right Or.inr

theorem isSpace_of_mem_argument {argument : Str} (hargument : argument ∈ clause.arguments) :
    ∀ c ∈ argument, isSpace c = false := by
  obtain ⟨literal, hliteral, -, hchars⟩ := exists_of_mem_arguments hargument
  intro c hc
  rcases hchars c hc with hc | rfl | rfl
  · exact clause.isSpace_of_mem literal hliteral c hc
  · rfl
  · rfl

theorem HasNonWords.argument (h : clause.HasNonWords) {argument : Str}
    (hargument : argument ∈ clause.arguments) : HasNonWord argument := by
  obtain ⟨literal, hliteral, hsubset, -⟩ := exists_of_mem_arguments hargument
  obtain ⟨c, hc, hword⟩ := h literal hliteral
  exact ⟨c, hsubset hc, hword⟩

/-- The scan for declarations passes over a clause. -/
theorem HasNonWords.tokens_text (h : clause.HasNonWords) {rest : Str}
    (hrest : ∀ c ∈ rest.head?, isLetter c = false) :
    CSP.varPattern.tokens false 0 (clause.text ++ rest) =
      clause.text.map .inl ++ CSP.varPattern.tokens false 0 rest := by
  apply CSP.tokens_varPattern_flatMap_spaced hrest
  · intro argument hargument
    exact isSpace_of_mem_argument hargument
  · intro argument hargument
    exact h.argument hargument

/-- The words between the brackets are the literals. -/
theorem HasNonWords.words_interior (h : clause.HasNonWords) :
    IntegerVariable.words clause.interior = clause.literals := by
  apply words_intercalate
  · intro literal hliteral
    exact (h literal hliteral).ne_nil
  · exact clause.isSpace_of_mem

theorem notMem_interior {c : Char} (hc : c ≠ ' ')
    (hnot : ∀ literal ∈ clause.literals, c ∉ literal) : c ∉ clause.interior := by
  rw [interior]
  generalize clause.literals = literals at hnot
  induction literals with
  | nil => simp
  | cons literal literals ih =>
      rw [List.forall_mem_cons] at hnot
      cases literals with
      | nil =>
          rw [List.intercalate_singleton]
          exact hnot.1
      | cons next literals =>
          rw [List.intercalate_cons_cons]
          simpa [hc, hnot.1] using ih hnot.2

end Arguments

end Clause

namespace CSP

/-! ## The scan for declarations over all groups -/

def groupText : Declaration ⊕ Clause → Str := Sum.elim Declaration.text Clause.text

theorem commandLine_eq {groups : List (Declaration ⊕ Clause)} (hne : groups ≠ []) :
    commandLine groups = groups.flatMap groupText := by
  have harguments : groups.flatMap (Sum.elim Declaration.arguments Clause.arguments) ≠ [] := by
    obtain ⟨group, groups, rfl⟩ := List.exists_cons_of_ne_nil hne
    cases group with
    | inl d => simp [Declaration.arguments]
    | inr clause =>
        obtain ⟨first, rest, heq⟩ := List.exists_cons_of_ne_nil clause.ne_nil
        cases rest <;> simp [Clause.arguments, heq, Clause.gluedArguments, Clause.closeLast]
  rw [commandLine, joinArguments_eq harguments, List.flatMap_assoc]
  refine List.flatMap_congr fun group _ => ?_
  cases group <;> rfl

theorem head?_flatMap_groupText (groups : List (Declaration ⊕ Clause)) :
    ∀ c ∈ (groups.flatMap groupText).head?, c = ' ' := by
  cases groups with
  | nil => simp
  | cons group groups =>
      cases group with
      | inl d => simp [groupText, Declaration.text, Declaration.arguments, spaced]
      | inr clause => simp [groupText, Clause.text_eq, spaced]

/-- What the scan makes of a group: one match, or its characters. -/
def groupTokens : Declaration ⊕ Clause → List (Char ⊕ Match) :=
  Sum.elim (fun d => [.inr ⟨d.text, []⟩]) fun clause => clause.text.map .inl

section Groups

variable {decls : List Declaration} {clauses : List Clause}
  {groups : List (Declaration ⊕ Clause)} (hgroups : Interleaving decls clauses groups)
  (hclauses : ∀ clause ∈ clauses, clause.HasNonWords)
include hgroups hclauses

theorem tokens_groups :
    varPattern.tokens false 0 (groups.flatMap groupText) = groups.flatMap groupTokens := by
  induction hgroups with
  | nil => rfl
  | left d h ih =>
      rw [List.flatMap_cons, List.flatMap_cons, ← ih hclauses]
      exact d.tokens_text _
  | @right clause _ _ merged h ih =>
      rw [List.forall_mem_cons] at hclauses
      -- the next group begins with a space, so no name begins there
      have hhead : ∀ c ∈ (merged.flatMap groupText).head?, isLetter c = false := by
        intro c hc
        rw [head?_flatMap_groupText merged c hc]
        rfl
      rw [List.flatMap_cons, List.flatMap_cons, ← ih hclauses.2]
      exact hclauses.1.tokens_text hhead

theorem scan_commandLine (hne : groups ≠ []) :
    varPattern.scan (commandLine groups) = groups.flatMap groupTokens := by
  have hstart : ∀ start s, varPattern.headMatch start s = varPattern.headMatch false s :=
    Regex.headMatch_cls_seq_start isSpace _
  rw [commandLine_eq hne, Regex.scan, Regex.tokens_of_start hstart,
    tokens_groups hgroups hclauses]

theorem declarationTexts_commandLine (hne : groups ≠ []) :
    declarationTexts (commandLine groups) = decls.map Declaration.text := by
  have hmatches : (groups.flatMap groupTokens).filterMap Sum.getRight? =
      groups.flatMap (Sum.elim (fun d => [(⟨d.text, []⟩ : Match)]) fun _ => []) := by
    rw [List.filterMap_flatMap]
    refine List.flatMap_congr fun group _ => ?_
    cases group with
    | inl d => rfl
    | inr clause => exact filterMap_inl clause.text
  rw [declarationTexts, pregMatchAll, scan_commandLine hgroups hclauses hne, hmatches,
    hgroups.flatMap_left, ← List.map_eq_flatMap, List.map_map]
  rfl

/-- Without the declarations the clauses are left in their order. -/
theorem pregReplace_commandLine (hne : groups ≠ []) :
    pregReplace varPattern [] (commandLine groups) = clauses.flatMap Clause.text := by
  rw [pregReplace, scan_commandLine hgroups hclauses hne, replaceTokens, List.flatMap_assoc,
    ← hgroups.flatMap_right Clause.text]
  refine List.flatMap_congr fun group _ => ?_
  cases group with
  | inl d => rfl
  | inr clause => exact replaceTokens_map [] clause.text

end Groups

/-! ## The scan for clauses -/

theorem closes_gap (clauses : List Clause) : Closes (' ' :: clauses.flatMap Clause.text) := by
  unfold Closes
  cases clauses with
  | nil => decide
  | cons clause clauses =>
      rw [List.flatMap_cons, Clause.text_eq]
      simp [spaced, Clause.bracketed]

theorem headMatch_clausePattern_space (start : Bool) (rest : Str) :
    clausePattern.headMatch start (' ' :: rest) = none := by
  apply Regex.headMatch_eq_none_of_run
  apply Regex.run_seq_eq_nil
  rw [run_lit_eq_nil start (by simp)]
  exact fun found hfound => absurd hfound List.not_mem_nil

theorem tokens_clausePattern {clauses : List Clause}
    (hclauses : ∀ clause ∈ clauses, clause.HasNonWords) :
    clausePattern.tokens false 0 (clauses.flatMap Clause.text) =
      clauses.flatMap fun clause => [.inl ' ', .inr ⟨clause.bracketed, []⟩, .inl ' '] := by
  induction clauses with
  | nil => rfl
  | cons clause clauses ih =>
      rw [List.forall_mem_cons] at hclauses
      -- the pattern wants a character between the brackets
      have hinterior : clause.interior ≠ [] := by
        intro hnil
        have hwords := hclauses.1.words_interior
        rw [hnil] at hwords
        exact clause.ne_nil hwords.symm
      have hopen : '[' ∉ clause.interior :=
        Clause.notMem_interior (by decide) clause.open_not_mem
      have hmatch : clausePattern.headMatch false
          (clause.bracketed ++ ' ' :: clauses.flatMap Clause.text) =
            some ⟨clause.bracketed, []⟩ := by
        have hhead := headMatch_clausePattern hinterior hopen (closes_gap clauses) false
        simpa [Clause.bracketed] using hhead
      have htext : (clause :: clauses).flatMap Clause.text =
          ' ' :: (clause.bracketed ++ ' ' :: clauses.flatMap Clause.text) := by
        simp [Clause.text_eq, spaced]
      rw [htext, Regex.tokens_of_no_match (headMatch_clausePattern_space _ _),
        Regex.tokens_of_match (m := ⟨clause.bracketed, []⟩) hmatch,
        Regex.tokens_of_no_match (headMatch_clausePattern_space _ _), ih hclauses.2]
      rfl

theorem clauseLiterals_commandLine {decls : List Declaration} {clauses : List Clause}
    {groups : List (Declaration ⊕ Clause)} (hgroups : Interleaving decls clauses groups)
    (hclauses : ∀ clause ∈ clauses, clause.HasNonWords) (hne : groups ≠ []) :
    clauseLiterals (commandLine groups) = clauses.map Clause.literals := by
  have hstart : ∀ start s, clausePattern.headMatch start s = clausePattern.headMatch false s :=
    Regex.headMatch_lit_seq_start (List.cons_ne_nil _ _) _
  have hmatches : (clauses.flatMap fun clause : Clause =>
      ([.inl ' ', .inr ⟨clause.bracketed, []⟩, .inl ' '] : List (Char ⊕ Match))).filterMap
        Sum.getRight? = clauses.map fun clause => (⟨clause.bracketed, []⟩ : Match) := by
    rw [List.filterMap_flatMap, List.map_eq_flatMap]
    rfl
  rw [clauseLiterals, pregReplace_commandLine hgroups hclauses hne, pregMatchAll, Regex.scan,
    Regex.tokens_of_start hstart, tokens_clausePattern hclauses, hmatches, List.map_map]
  refine List.map_congr_left fun clause hclause => ?_
  have hopen : '[' ∉ clause.interior :=
    Clause.notMem_interior (by decide) clause.open_not_mem
  have hclose : ']' ∉ clause.interior :=
    Clause.notMem_interior (by decide) clause.close_not_mem
  rw [Function.comp_apply, Clause.bracketed, strip_brackets hopen hclose,
    (hclauses clause hclause).words_interior]

/-! ## The parsed problem -/

/-- The constraints that the parser makes of one clause. -/
def ClauseParses (vars : List IntegerVariable) (clause : Clause)
    (constraints : List (List Inequation)) : Prop :=
  ∃ set, distributeLiterals clause.literals = .ok set ∧
    set.mapM (fun texts => texts.mapM fun text => Inequation.parseExpression text vars) =
      .ok constraints

theorem exists_clauseParses {vars : List IntegerVariable} {clause : Clause}
    (haccepted : ∀ literal ∈ clause.literals, Accepted vars literal) :
    ∃ constraints, ClauseParses vars clause constraints := by
  obtain ⟨set, hset⟩ := exists_distributeLiterals fun literal hliteral =>
    (haccepted literal hliteral).imp fun _ h => h.1
  have hread : ∀ texts ∈ set, ∃ clause, texts.mapM
      (fun text => Inequation.parseExpression text vars) = .ok clause := by
    intro texts htexts
    refine exists_mapM_eq_ok fun text htext => ?_
    obtain ⟨literal, hliteral, cnf, hcnf, hmem⟩ := (mem_flatten_distributeLiterals hset).mp
      (List.mem_flatten.mpr ⟨texts, htexts, htext⟩)
    obtain ⟨other, hother, hparse⟩ := haccepted literal hliteral
    obtain rfl : other = cnf := Except.ok.inj (hother.symm.trans hcnf)
    exact hparse text hmem
  obtain ⟨constraints, hconstraints⟩ := exists_mapM_eq_ok hread
  exact ⟨constraints, set, hset, hconstraints⟩

theorem parseConstraints_of_clauseParses {line : Str} {vars : List IntegerVariable}
    {clauses : List Clause} {constraints : List (List (List Inequation))}
    (hline : clauseLiterals line = clauses.map Clause.literals)
    (hparses : List.Forall₂ (ClauseParses vars) clauses constraints) :
    parseConstraints line vars = .ok constraints.flatten := by
  obtain ⟨sets, hsets, hreads⟩ := exists_forall₂_comp hparses
  refine bind_eq_ok.mpr ⟨sets.flatten, bind_eq_ok.mpr ⟨sets, ?_, rfl⟩, ?_⟩
  · rw [hline, mapM_eq_ok, List.forall₂_map_left_iff]
    exact hsets
  · rw [mapM_eq_ok]
    exact List.rel_flatten (hreads.imp fun _ _ => mapM_eq_ok.mp)

/-- Every interleaving of the groups is parsed as their variables and the
constraints of their clauses. -/
theorem parseExpression_commandLine {decls : List Declaration} {clauses : List Clause}
    {groups : List (Declaration ⊕ Clause)} (hgroups : Interleaving decls clauses groups)
    (hclauses : ∀ clause ∈ clauses, clause.HasNonWords)
    {constraints : List (List (List Inequation))}
    (hparses : List.Forall₂ (ClauseParses (decls.map Declaration.toVariable)) clauses
      constraints) :
    parseExpression (commandLine groups) =
      .ok ⟨decls.map Declaration.toVariable, constraints.flatten⟩ := by
  by_cases hne : groups = []
  -- without arguments the script parses the empty text
  · subst hne
    cases hgroups
    cases hparses
    decide
  · refine parseExpression_eq_ok.mpr ⟨?_, ?_⟩
    · rw [declarationTexts_commandLine hgroups hclauses hne, mapM_eq_ok,
        List.forall₂_map_left_iff, List.forall₂_map_right_iff, List.forall₂_same]
      exact fun d _ => d.parseExpression_text
    · exact parseConstraints_of_clauseParses (clauseLiterals_commandLine hgroups hclauses hne)
        hparses

/-- The parsed problem does not depend on how declarations and clauses are
interleaved: it has the declared variables, and the constraints of each clause
alone, one after the other. -/
theorem parseExpression_interleaved {decls : List Declaration} {clauses : List Clause}
    (haccepted : ∀ clause ∈ clauses, ∀ literal ∈ clause.literals,
      Accepted (decls.map Declaration.toVariable) literal) :
    ∃ constraints : List (List (List Inequation)),
      List.Forall₂ (fun clause alone => ∀ groups, Interleaving decls [clause] groups →
        parseExpression (commandLine groups) = .ok ⟨decls.map Declaration.toVariable, alone⟩)
        clauses constraints ∧
      ∀ groups, Interleaving decls clauses groups →
        parseExpression (commandLine groups) =
          .ok ⟨decls.map Declaration.toVariable, constraints.flatten⟩ := by
  have hclauses : ∀ clause ∈ clauses, clause.HasNonWords := fun clause hclause literal hliteral =>
    (haccepted clause hclause literal hliteral).hasNonWord
  obtain ⟨constraints, hparses⟩ := exists_forall₂ fun clause hclause =>
    exists_clauseParses (haccepted clause hclause)
  refine ⟨constraints, ?_, fun groups hgroups =>
    parseExpression_commandLine hgroups hclauses hparses⟩
  -- a clause alone is the case of one group of clauses
  rw [List.forall₂_iff_get] at hparses ⊢
  refine ⟨hparses.1, fun i hi hi' groups hgroups => ?_⟩
  have halone := parseExpression_commandLine hgroups
    (by simpa using hclauses _ (List.get_mem clauses ⟨i, hi⟩))
    (List.Forall₂.cons (hparses.2 i hi hi') List.Forall₂.nil)
  simpa using halone

/-- The clause `[x<=1  x!=y]`. -/
def boundOrDistinct : Clause where
  literals := ["x<=1".toList, "x!=y".toList]
  ne_nil := by decide
  isSpace_of_mem := by
    rw [List.forall_mem_cons, List.forall_mem_singleton]
    exact ⟨forall_isSpace_eq_false (by decide), forall_isSpace_eq_false (by decide)⟩
  open_not_mem := by decide
  close_not_mem := by decide

/-- Two declarations and a clause of two literals, in any order. -/
theorem parseExpression_interleaved_two :
    let x : Declaration := ⟨singleLetter 'x' rfl, ⟨true, singleDigit '1' rfl⟩,
      ⟨false, singleDigit '2' rfl⟩, by decide⟩
    let y : Declaration := ⟨singleLetter 'y' rfl, ⟨false, singleDigit '0' rfl⟩,
      ⟨false, singleDigit '0' rfl⟩, by decide⟩
    ∃ constraints : List (List (List Inequation)),
      List.Forall₂ (fun clause alone => ∀ groups, Interleaving [x, y] [clause] groups →
        parseExpression (commandLine groups) =
          .ok ⟨[x, y].map Declaration.toVariable, alone⟩) [boundOrDistinct] constraints ∧
      ∀ groups, Interleaving [x, y] [boundOrDistinct] groups →
        parseExpression (commandLine groups) =
          .ok ⟨[x, y].map Declaration.toVariable, constraints.flatten⟩ := by
  intro x y
  have haccepted : ∀ c ∈ [boundOrDistinct], ∀ literal ∈ c.literals,
      Accepted ([x, y].map Declaration.toVariable) literal := by decide +kernel
  exact parseExpression_interleaved haccepted

end CSP

end Sato
