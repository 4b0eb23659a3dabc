import Sato.Parsing.Terms

/-! # The inequations of a literal

The inequations that the parser makes of a literal compare one sum, the summands
on the left less those on the right, with the bounds that belong to the relation.
-/

namespace Sato

open Foundation

/-- The bound and the sign of the inequations made for a relation with zero. -/
def Op.forms : Op → List (List (ℤ × Bool))
  | .ne => [[(-1, true), (0, false)]]
  | .le => [[(0, true)]]
  | .ge => [[(-1, false)]]
  | .eq => [[(0, true)], [(-1, false)]]
  | .lt => [[(-1, true)]]
  | .gt => [[(0, false)]]

/-- The forms of the texts made for a relation, each with the side that is cut
into summands: the negated texts are not trimmed. -/
def Op.readings (op : Op) (exp : Str) : List (List ((ℤ × Bool) × Str)) :=
  match op with
  | .ne => [[((-1, true), ltrim exp), ((0, false), exp)]]
  | .le => [[((0, true), ltrim exp)]]
  | .ge => [[((-1, false), ltrim exp)]]
  | .eq => [[((0, true), ltrim exp)], [((-1, false), exp)]]
  | .lt => [[((-1, true), ltrim exp)]]
  | .gt => [[((0, false), ltrim exp)]]

/-- The side, the bound and the sign of the texts made for a relation, as they are
given to the term loop. -/
def Op.heads (op : Op) (exp : Str) : List (List (Str × Str × Bool)) :=
  match op with
  | .ne => [[(ltrim exp, ['-', '1'], true), (exp, ['0'], false)]]
  | .le => [[(ltrim exp, ['0'], true)]]
  | .ge => [[('1' :: '+' :: ltrim exp, ['0'], false)]]
  | .eq => [[(ltrim exp, ['0'], true)], [(exp, ['-', '1'], false)]]
  | .lt => [[('1' :: '+' :: ltrim exp, ['0'], true)]]
  | .gt => [[(ltrim exp, ['0'], false)]]

theorem Op.side_of_mem_heads {op : Op} {exp : Str} {head : Str × Str × Bool}
    (hhead : head ∈ (op.heads exp).flatten) :
    head.1 = ltrim exp ∨ head.1 = exp ∨ head.1 = '1' :: '+' :: ltrim exp := by
  cases op <;> simp [heads] at hhead <;> grind

theorem Op.map_readings (op : Op) (exp : Str) :
    (op.readings exp).map (List.map Prod.fst) = op.forms := by
  cases op <;> rfl

/-- Whether a value is below the bound, or above it when the sign is negative. -/
def FormHolds (z : ℤ) (form : ℤ × Bool) : Prop := if form.2 then z ≤ form.1 else form.1 < z

theorem Op.cnfTrue_forms (op : Op) (z : ℤ) :
    CnfTrue (FormHolds z) op.forms ↔ op.Compare z 0 := by
  cases op <;> simp [forms, Compare, FormHolds] <;> omega

theorem notMem_literalSummands {left right : Str} {x : Summand}
    (hx : x ∈ literalSummands left right) : '-' ∉ x.body := by
  rcases List.mem_append.mp (List.mem_of_mem_filter hx) with hx | hx
  · exact notMem_body hx
  · split at hx
    · simp at hx
    · obtain ⟨y, hy, rfl⟩ := List.mem_map.mp hx
      have hbody : '-' ∉ y.body := notMem_body hy
      exact hbody

theorem SplitsAt.notMem_movedSides {literal left right : Str} {op : Op}
    (hsplit : SplitsAt literal left op right) (hline : '\n' ∉ literal) :
    '\n' ∉ movedSides left right := by
  rw [hsplit.text] at hline
  simp only [List.mem_append, not_or] at hline
  intro hmem
  rcases mem_movedSides hmem with h | h | h | h
  · exact hline.1 h
  · exact hline.2.2 h
  · simp at h
  · simp at h

namespace Inequation

/-- The inequation has the terms and the constant of the summands, for a form. -/
structure ReadAs (vars : List IntegerVariable) (xs : List Summand) (e : Inequation)
    (form : ℤ × Bool) : Prop where
  reading : Reading vars form.1 xs ⟨e.terms, e.const⟩
  sign : e.sign = form.2

theorem ReadAs.holds_iff {vars : List IntegerVariable} {xs : List Summand} {e : Inequation}
    {form : ℤ × Bool} (h : ReadAs vars xs e form) (σ : Assignment) :
    e.Holds σ ↔ FormHolds (xs.map (Summand.value σ)).sum form := by
  have hsum := h.reading.sum_eq σ
  rw [Holds, FormHolds, h.sign, sum]
  simp only at hsum
  split <;> omega

theorem splitExpression_constraints (op : Op) {exp : Str} (hexp : NoRelation exp)
    (hline : '\n' ∉ exp) :
    List.Forall₂ (List.Forall₂ fun text head =>
      splitExpression text = .ok (splitTerms head.1, head.2)) (op.constraints exp)
        (op.heads exp) := by
  have hopen : "-(".toList = ['-', '('] := by decide
  have hle : ∀ (text bound : Str) (c : Char), text = '<' :: '=' :: (bound ++ [c]) →
      isDigit c = true → '<' ∉ bound →
        splitExpression (exp ++ text) = .ok (splitTerms (ltrim exp), bound ++ [c], true) := by
    intro text bound c htext hc hbound
    rw [htext]
    exact splitExpression_le hexp bound hc hbound
  have hnegated : ∀ text bound : Str, text = '<' :: '=' :: (bound ++ [')']) → '<' ∉ bound →
      '\n' ∉ bound → splitExpression ("-(".toList ++ exp ++ text) =
        .ok (splitTerms exp, bound, false) := by
    intro text bound htext hbound hbline
    have hall : "-(".toList ++ exp ++ text =
        '-' :: '(' :: (exp ++ '<' :: '=' :: bound ++ [')']) := by simp [hopen, htext]
    rw [hall]
    exact splitExpression_negated hexp hline hbound hbline
  have hzero := hle "<=0".toList [] '0' (by decide) rfl (by simp)
  cases op with
  | ne =>
      refine .cons (.cons ?_ (.cons ?_ .nil)) .nil
      · exact hle "<=-1".toList ['-'] '1' (by decide) rfl (by decide)
      · exact hnegated "<=0)".toList ['0'] (by decide) (by decide) (by decide)
  | le => exact .cons (.cons hzero .nil) .nil
  | ge =>
      have htext : ">=0".toList = ['>', '=', '0'] := by decide
      refine .cons (.cons ?_ .nil) .nil
      rw [htext]
      exact splitExpression_ge hexp
  | eq =>
      refine .cons (.cons hzero .nil) (.cons (.cons ?_ .nil) .nil)
      exact hnegated "<=-1)".toList ['-', '1'] (by decide) (by decide) (by decide)
  | lt =>
      have htext : "<0".toList = ['<', '0'] := by decide
      refine .cons (.cons ?_ .nil) .nil
      rw [htext]
      exact splitExpression_lt hexp
  | gt =>
      have htext : ">0".toList = ['>', '0'] := by decide
      refine .cons (.cons ?_ .nil) .nil
      rw [htext]
      exact splitExpression_gt hexp

/-- The term loop is given the trimmed side with the bound and the sign of the
form, or for the negated texts the side as it stands. -/
theorem constraints_readings (vars : List IntegerVariable) (op : Op) {exp : Str}
    (hexp : NoRelation exp) (hline : '\n' ∉ exp) :
    List.Forall₂ (List.Forall₂ fun text reading =>
      parseExpression text vars = readLeft vars reading.1.1 reading.1.2 reading.2 ∧
        (reading.2 = ltrim exp ∨ reading.2 = exp)) (op.constraints exp) (op.readings exp) := by
  have hread : ∀ {text side right : Str} {sign : Bool},
      splitExpression text = .ok (splitTerms side, right, sign) →
        parseExpression text vars = readLeft vars (intval right) sign side := fun hsplit =>
    parseExpression_eq_readLeft hsplit vars
  have hheads := splitExpression_constraints op hexp hline
  -- `>=` and `<` are read with a `1+` put before the side
  cases op with
  | ne =>
      obtain _ | ⟨_ | ⟨hfirst, _ | ⟨hsecond, _⟩⟩, _⟩ := hheads
      exact .cons (.cons ⟨hread hfirst, Or.inl rfl⟩ (.cons ⟨hread hsecond, Or.inr rfl⟩ .nil)) .nil
  | eq =>
      obtain _ | ⟨_ | ⟨hfirst, _⟩, _ | ⟨_ | ⟨hsecond, _⟩, _⟩⟩ := hheads
      exact .cons (.cons ⟨hread hfirst, Or.inl rfl⟩ .nil)
        (.cons (.cons ⟨hread hsecond, Or.inr rfl⟩ .nil) .nil)
  | le | gt =>
      obtain _ | ⟨_ | ⟨hfirst, _⟩, _⟩ := hheads
      exact .cons (.cons ⟨hread hfirst, Or.inl rfl⟩ .nil) .nil
  | ge | lt =>
      obtain _ | ⟨_ | ⟨hfirst, _⟩, _⟩ := hheads
      refine .cons (.cons ⟨?_, Or.inl rfl⟩ .nil) .nil
      rw [hread hfirst, readLeft_shifted]
      rfl

section Accepted

variable {vars : List IntegerVariable} (hvars : Declared vars)
include hvars

/-- The names of accepted summands are declared. -/
theorem Reading.isName {bound : ℤ} {xs : List Summand} {state : TermState}
    (h : Reading vars bound xs state) {x : Summand} (hx : x ∈ xs) (hname : x.name ≠ []) :
    IsName x.name := by
  obtain ⟨t, ht, heq⟩ := (h.names x.name).mpr ⟨hname, x, hx, rfl⟩
  rw [← heq]
  exact hvars.isName (h.known t ht)

theorem readLeft_reading {bound : ℤ} {sign : Bool} {left : Str} {e : Inequation}
    (hok : readLeft vars bound sign left = .ok e) {xs : List Summand}
    (hsplit : splitTerms left = xs.map Summand.text) (hminus : ∀ x ∈ xs, '-' ∉ x.body) :
    ReadAs vars xs e (bound, sign) := by
  obtain ⟨state, hrun, rfl⟩ := readLeft_eq_ok.mp hok
  rw [hsplit] at hrun
  exact ⟨Reading.of_foldlM hvars hminus hrun, rfl⟩

theorem isName_of_readLeft {bound : ℤ} {sign : Bool} {left : Str} {e : Inequation}
    (hok : readLeft vars bound sign left = .ok e) {x : Summand} (hx : x ∈ summands isPlus left)
    (hname : x.name ≠ []) : IsName x.name := by
  have hread := readLeft_reading hvars hok (splitTerms_eq left) fun y hy =>
    notMem_body (List.mem_of_mem_filter hy)
  refine hread.reading.isName hvars (List.mem_filter.mpr ⟨hx, ?_⟩) hname
  simpa using Summand.text_ne_nil_of_name hname

/-- An accepted side begins with a sign, a digit or a letter. -/
theorem ltrim_of_readLeft {bound : ℤ} {sign : Bool} {left : Str} {e : Inequation}
    (hok : readLeft vars bound sign left = .ok e) : ltrim left = left := by
  refine ltrim_eq_self fun c hc => ?_
  obtain ⟨s, rfl⟩ := List.head?_eq_some_iff.mp hc
  by_contra htrimmed
  have hminus : c ≠ '-' := by rintro rfl; exact htrimmed rfl
  have hplus : isPlus c = false := by
    rw [Bool.eq_false_iff, isPlus, Ne, beq_iff_eq]
    rintro rfl
    exact htrimmed rfl
  have hdigit : isDigit c = false := by
    by_contra hdigit
    exact htrimmed (isTrimmed_of_isWord (isWord_of_isDigit (by simpa using hdigit)))
  -- the first summand has a name that begins with the character
  have hx : ⟨true, c :: (cut isPlus s).1⟩ ∈ summands isPlus (c :: s) := by
    simp [summands, cut, hminus, hplus]
  have hname : (⟨true, c :: (cut isPlus s).1⟩ : Summand).name = c :: (cut isPlus s).1 := by
    simp [Summand.name, hdigit]
  obtain ⟨d, t, heq, hd, -⟩ := isName_of_readLeft hvars hok hx (by simp [hname])
  rw [hname] at heq
  rw [← (List.cons.inj heq).1] at hd
  exact htrimmed (isTrimmed_of_isWord (isWord_of_isLetter hd))

/-- What is accepted of an untrimmed side is what is accepted of the trimmed one. -/
theorem constraints_forms (op : Op) {exp : Str} (hexp : NoRelation exp) (hline : '\n' ∉ exp) :
    List.Forall₂ (List.Forall₂ fun text form => ∀ e, parseExpression text vars = .ok e →
      readLeft vars form.1 form.2 (ltrim exp) = .ok e) (op.constraints exp) op.forms := by
  have hreadings := constraints_readings vars op hexp hline
  rw [← op.map_readings exp, List.forall₂_map_right_iff]
  refine hreadings.imp fun _ _ hclause => ?_
  rw [List.forall₂_map_right_iff]
  refine hclause.imp fun text reading hreading e hok => ?_
  obtain ⟨heq, hside⟩ := hreading
  rw [heq] at hok
  rcases hside with hside | hside
  · rwa [← hside]
  · rw [hside] at hok
    rwa [ltrim_of_readLeft hvars hok]

theorem readAs_of_readLeft {left right : Str} {form : ℤ × Bool} {e : Inequation}
    (hok : readLeft vars form.1 form.2 (ltrim (movedSides left right)) = .ok e) :
    ReadAs vars (literalSummands (ltrim left) right) e form := by
  rw [ltrim_movedSides] at hok
  exact readLeft_reading hvars hok (splitTerms_movedSides _ _) fun _ => notMem_literalSummands

section Split

variable {literal left right : Str} {op : Op} (hsplit : SplitsAt literal left op right)
  (hline : '\n' ∉ literal)
include hsplit hline

theorem constraints_readLeft :
    List.Forall₂ (List.Forall₂ fun text form => ∀ e, parseExpression text vars = .ok e →
      ReadAs vars (literalSummands (ltrim left) right) e form)
      (op.constraints (movedSides left right)) op.forms := by
  have hforms := constraints_forms hvars op
    (hsplit.left_free.movedSides hsplit.right_free) (hsplit.notMem_movedSides hline)
  refine hforms.imp fun _ _ => List.Forall₂.imp fun _ _ hread e hok => ?_
  exact readAs_of_readLeft hvars (hread e hok)

/-- The terms of a text that is read are the summands of the literal, perhaps after the
`1` put before them. -/
theorem splitExpression_of_parseExpression {text : Str}
    (htext : text ∈ (op.constraints (movedSides left right)).flatten) {e : Inequation}
    (hok : parseExpression text vars = .ok e) :
    ∃ ones bound, (ones = [] ∨ ones = [⟨true, ['1']⟩]) ∧ splitExpression text =
      .ok ((ones ++ literalSummands (ltrim left) right).map Summand.text, bound) := by
  have hheads := splitExpression_constraints op (hsplit.left_free.movedSides hsplit.right_free)
    (hsplit.notMem_movedSides hline)
  obtain ⟨clause, hclause, htext⟩ := List.mem_flatten.mp htext
  obtain ⟨heads, hheads, hhead⟩ := forall₂_exists_right hheads hclause
  obtain ⟨⟨side, bound, sign⟩, hhead, hterms⟩ := forall₂_exists_right hhead htext
  have hsummands : splitTerms (ltrim (movedSides left right)) =
      (literalSummands (ltrim left) right).map Summand.text := by
    rw [ltrim_movedSides, splitTerms_movedSides]
  rcases Op.side_of_mem_heads (List.mem_flatten.mpr ⟨heads, hheads, hhead⟩) with rfl | rfl | rfl
  · exact ⟨[], _, Or.inl rfl, by rw [hterms, hsummands, List.nil_append]⟩
  · rw [parseExpression_eq_readLeft hterms] at hok
    rw [ltrim_of_readLeft hvars hok] at hsummands
    exact ⟨[], _, Or.inl rfl, by rw [hterms, hsummands, List.nil_append]⟩
  · exact ⟨[⟨true, ['1']⟩], _, Or.inr rfl, by rw [hterms, splitTerms_shifted, hsummands]; rfl⟩

/-- The inequations read from the texts of a literal have its forms. -/
theorem readAs_of_mapM {clauses : List (List Inequation)}
    (hok : (op.constraints (movedSides left right)).mapM
      (fun clause => clause.mapM fun text => parseExpression text vars) = .ok clauses) :
    List.Forall₂ (List.Forall₂ (ReadAs vars (literalSummands (ltrim left) right)))
      clauses op.forms := by
  have hforms := constraints_readLeft hvars hsplit hline
  refine forall₂_through (fun texts forms clause hforms hclause => ?_) hforms (mapM_eq_ok.mp hok)
  exact forall₂_through (fun _ _ e hread hparse => hread e hparse) hforms (mapM_eq_ok.mp hclause)

/-- The clauses compare the sum of the summands with zero. -/
theorem cnfTrue_iff_compare {clauses : List (List Inequation)}
    (hok : (op.constraints (movedSides left right)).mapM
      (fun clause => clause.mapM fun text => parseExpression text vars) = .ok clauses)
    (σ : Assignment) :
    CnfTrue (Holds σ) clauses ↔
      op.Compare ((literalSummands (ltrim left) right).map (Summand.value σ)).sum 0 := by
  rw [← Op.cnfTrue_forms]
  refine cnfTrue_forall₂ ((readAs_of_mapM hvars hsplit hline hok).imp fun _ _ => ?_)
  exact List.Forall₂.imp fun _ _ hread => hread.holds_iff σ

end Split

end Accepted

end Inequation

end Sato
