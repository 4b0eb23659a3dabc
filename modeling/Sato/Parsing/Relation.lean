import Sato.Foundation.Scan
import Sato.Source.CSP

/-! # The relation of a literal

A literal that the parser splits has one relation sign. The rewriting chosen for
it is the one of that sign, whatever else the text holds.
-/

namespace Sato

open Foundation

/-- The characters that begin a relation sign, `!` apart. -/
def isRelation (c : Char) : Bool := c == '=' || c == '<' || c == '>'

def NoRelation (s : Str) : Prop := ∀ c ∈ s, isRelation c = false

theorem NoRelation.notMem {s : Str} (h : NoRelation s) {c : Char} (hc : isRelation c = true) :
    c ∉ s := by
  intro hmem
  rw [h c hmem] at hc
  contradiction

theorem NoRelation.append {s t : Str} (hs : NoRelation s) (ht : NoRelation t) :
    NoRelation (s ++ t) := by
  intro c hc
  rcases List.mem_append.mp hc with hc | hc
  · exact hs c hc
  · exact ht c hc

theorem NoRelation.filter_eq_nil {s : Str} (h : NoRelation s) : s.filter isRelation = [] :=
  List.filter_eq_nil_iff.mpr fun c hc => by simp [h c hc]

theorem NoRelation.trimmed {s : Str} (h : NoRelation s) : NoRelation (ltrim s) :=
  fun c hc => h c (List.dropWhile_subset _ hc)

/-- The relation signs of a constraint. -/
inductive Op where
  | ne
  | le
  | ge
  | eq
  | lt
  | gt
  deriving DecidableEq

namespace Op

def text : Op → Str
  | ne => ['!', '=']
  | le => ['<', '=']
  | ge => ['>', '=']
  | eq => ['=']
  | lt => ['<']
  | gt => ['>']

/-- The order relation a sign stands for. -/
def Compare : Op → ℤ → ℤ → Prop
  | ne, m, n => m ≠ n
  | le, m, n => m ≤ n
  | ge, m, n => n ≤ m
  | eq, m, n => m = n
  | lt, m, n => m < n
  | gt, m, n => n < m

instance (op : Op) (m n : ℤ) : Decidable (op.Compare m n) := by
  cases op <;> unfold Compare <;> infer_instance

/-- A comparison is one of the difference with zero. -/
theorem compare_sub (op : Op) (m n : ℤ) : op.Compare (m - n) 0 ↔ op.Compare m n := by
  cases op <;> simp only [Compare] <;> omega

/-- What the array `$mapping` holds for the sign. -/
def constraints (op : Op) (exp : Str) : List (List Str) :=
  match op with
  | ne => [[exp ++ "<=-1".toList, "-(".toList ++ exp ++ "<=0)".toList]]
  | le => [[exp ++ "<=0".toList]]
  | ge => [[exp ++ ">=0".toList]]
  | eq => [[exp ++ "<=0".toList], ["-(".toList ++ exp ++ "<=-1)".toList]]
  | lt => [[exp ++ "<0".toList]]
  | gt => [[exp ++ ">0".toList]]

/-- The signs in the order in which the parser tries them. -/
def all : List Op := [ne, le, ge, eq, lt, gt]

/-- The sign at the head of a text. -/
def atHead (s : Str) : Option Op := all.find? fun op => op.text.isPrefixOf s

theorem atHead_eq_none {c : Char} {s : Str} (hc : isRelation c = false)
    (hbang : c = '!' → s.head? ≠ some '=') : atHead (c :: s) = none := by
  simp only [isRelation, Bool.or_eq_false_iff, beq_eq_false_iff_ne] at hc
  obtain ⟨⟨heq, hlt⟩, hgt⟩ := hc
  rw [atHead, List.find?_eq_none]
  intro op _
  rw [List.isPrefixOf_iff_prefix]
  -- only `!=` begins with another character
  cases op with
  | ne =>
      intro hstarts
      obtain ⟨hc, htail⟩ := List.cons_prefix_cons.mp hstarts
      obtain ⟨rest, rfl⟩ := htail
      exact hbang hc.symm rfl
  | le => exact fun hstarts => hlt (List.cons_prefix_cons.mp hstarts).1.symm
  | ge => exact fun hstarts => hgt (List.cons_prefix_cons.mp hstarts).1.symm
  | eq => exact fun hstarts => heq (List.cons_prefix_cons.mp hstarts).1.symm
  | lt => exact fun hstarts => hlt (List.cons_prefix_cons.mp hstarts).1.symm
  | gt => exact fun hstarts => hgt (List.cons_prefix_cons.mp hstarts).1.symm

theorem atHead_ne_none {c : Char} (hc : isRelation c = true) (s : Str) :
    atHead (c :: s) ≠ none := by
  simp only [isRelation, Bool.or_eq_true, beq_iff_eq] at hc
  rw [atHead, Ne, List.find?_eq_none]
  intro hnone
  rcases hc with (rfl | rfl) | rfl
  · exact hnone eq (by simp [all]) (by simp [text, List.isPrefixOf])
  · exact hnone lt (by simp [all]) (by simp [text, List.isPrefixOf])
  · exact hnone gt (by simp [all]) (by simp [text, List.isPrefixOf])

theorem atHead_text (op : Op) {right : Str} (hright : NoRelation right) :
    atHead (op.text ++ right) = some op := by
  cases right with
  | nil => cases op <;> rfl
  | cons c right =>
      have hc : ('=' == c) = false := by
        rw [beq_eq_false_iff_ne]
        rintro rfl
        exact hright.notMem (c := '=') rfl List.mem_cons_self
      cases op <;> simp [atHead, all, text, List.isPrefixOf, hc]

end Op

/-- A literal is made of two sides and one sign. The sign `=` does not follow
a `!`, which would make it another sign. -/
structure SplitsAt (literal left : Str) (op : Op) (right : Str) : Prop where
  text : literal = left ++ (op.text ++ right)
  left_free : NoRelation left
  right_free : NoRelation right
  not_bang : op = .eq → left.getLast? ≠ some '!'

namespace CSP

theorem headMatch_relationPattern (start : Bool) (s : Str) :
    relationPattern.headMatch start s = (Op.atHead s).map fun op => ⟨op.text, []⟩ := by
  have hne : "!=".toList = ['!', '='] := by decide
  have hle : "<=".toList = ['<', '='] := by decide
  have hge : ">=".toList = ['>', '='] := by decide
  have hstep : ∀ (op : Op) (ops : List Op),
      ((op :: ops).find? fun op => op.text.isPrefixOf s).map
          (fun op => (⟨op.text, []⟩ : Match)) =
        if op.text.isPrefixOf s then some ⟨op.text, []⟩
        else (ops.find? fun op => op.text.isPrefixOf s).map fun op => ⟨op.text, []⟩ := by
    intro op ops
    rw [List.find?_cons]
    cases op.text.isPrefixOf s <;> rfl
  unfold relationPattern Op.atHead Op.all
  rw [hne, hle, hge]
  simp only [headMatch_alt_lit, headMatch_lit, hstep]
  rfl

theorem headMatch_relationPattern_eq_none {start : Bool} {s : Str} :
    relationPattern.headMatch start s = none ↔ Op.atHead s = none := by
  rw [headMatch_relationPattern, Option.map_eq_none_iff]

end CSP

/-! ## The split -/

theorem SplitsAt.pregSplit_eq {literal left right : Str} {op : Op}
    (h : SplitsAt literal left op right) :
    pregSplit CSP.relationPattern literal = [left, right] := by
  have hleft : ∀ p q, left = p ++ q → q ≠ [] →
      CSP.relationPattern.headMatch (true && p.isEmpty) (q ++ (op.text ++ right)) = none := by
    intro p q heq hq
    obtain ⟨c, q, rfl⟩ := List.exists_cons_of_ne_nil hq
    rw [CSP.headMatch_relationPattern_eq_none, List.cons_append]
    refine Op.atHead_eq_none (h.left_free c (by simp [heq])) fun hc => ?_
    cases q with
    | nil =>
        have hlast : left.getLast? = some '!' := by simp [heq, hc]
        cases op with
        | eq => exact absurd hlast (h.not_bang rfl)
        | ne | le | ge | lt | gt => simp [Op.text]
    | cons d q =>
        rw [List.cons_append, List.head?_cons]
        intro hd
        exact h.left_free.notMem (c := '=') rfl (by simp [heq, Option.some.inj hd])
  have hright : ∀ p q, right = p ++ q → q ≠ [] →
      CSP.relationPattern.headMatch false q = none := by
    intro p q heq hq
    obtain ⟨c, q, rfl⟩ := List.exists_cons_of_ne_nil hq
    rw [CSP.headMatch_relationPattern_eq_none]
    refine Op.atHead_eq_none (h.right_free c (by simp [heq])) fun _ hhead => ?_
    obtain ⟨q, rfl⟩ := List.head?_eq_some_iff.mp hhead
    exact h.right_free.notMem (c := '=') rfl (by simp [heq])
  have hmatch : CSP.relationPattern.headMatch (true && left.isEmpty) (op.text ++ right) =
      some ⟨op.text, []⟩ := by
    rw [CSP.headMatch_relationPattern, Op.atHead_text op h.right_free]
    rfl
  rw [pregSplit, Regex.scan, h.text]
  rw [Regex.tokens_once (m := ⟨op.text, []⟩) hleft hmatch hright, splitTokens_once]

/-- A text split in two has one relation sign between its parts. -/
theorem exists_splitsAt {literal left right : Str}
    (hsplit : pregSplit CSP.relationPattern literal = [left, right]) :
    ∃ op, SplitsAt literal left op right := by
  obtain ⟨m, hscan⟩ := splitTokens_eq_pair hsplit
  obtain ⟨t, rfl, htail, hleft⟩ := Regex.tokens_eq_map_append hscan
  obtain ⟨rest, rfl, hmatch, hrest⟩ := Regex.tokens_eq_cons_inr htail
  rw [← List.append_nil (right.map _)] at hrest
  obtain ⟨nothing, rfl, hnothing, hright⟩ := Regex.tokens_eq_map_append hrest
  obtain rfl : nothing = [] := by
    have htext := Regex.tokens_text CSP.relationPattern (false && right.isEmpty) nothing
    rw [hnothing] at htext
    exact htext.symm
  rw [CSP.headMatch_relationPattern] at hmatch
  obtain ⟨op, hop, rfl⟩ := Option.map_eq_some_iff.mp hmatch
  have hfree : ∀ {b : Bool} {c : Char} {s : Str},
      CSP.relationPattern.headMatch b (c :: s) = none → isRelation c = false := by
    intro b c s hnone
    by_contra hc
    exact Op.atHead_ne_none (by simpa using hc) s (CSP.headMatch_relationPattern_eq_none.mp hnone)
  refine ⟨op, ⟨by simp, fun c hc => ?_, fun c hc => ?_, fun heq hlast => ?_⟩⟩
  · obtain ⟨p, q, hpq⟩ := List.append_of_mem hc
    exact hfree (hleft p (c :: q) hpq (List.cons_ne_nil c q))
  · obtain ⟨p, q, hpq⟩ := List.append_of_mem hc
    exact hfree (hright p (c :: q) hpq (List.cons_ne_nil c q))
  · -- a `!` before the `=` would begin the sign `!=`
    obtain ⟨p, hp⟩ := List.getLast?_eq_some_iff.mp hlast
    have hnone := hleft p ['!'] hp (List.cons_ne_nil _ _)
    rw [CSP.headMatch_relationPattern_eq_none, heq] at hnone
    simp [Op.atHead, Op.all, Op.text, List.isPrefixOf] at hnone

/-! ## The choice of the rewriting -/

/-- The relation characters of a literal are those of its sign. -/
theorem SplitsAt.filter_isRelation {literal left right : Str} {op : Op}
    (h : SplitsAt literal left op right) :
    literal.filter isRelation = op.text.filter isRelation := by
  rw [h.text, List.filter_append, List.filter_append, h.left_free.filter_eq_nil,
    h.right_free.filter_eq_nil, List.nil_append, List.append_nil]

theorem pregTest_eq_false_of_filter {literal word : Str} (hword : word ≠ [])
    (hfilter : ¬ word.filter isRelation <:+: literal.filter isRelation) :
    pregTest (.lit word) literal = false := by
  rw [Bool.eq_false_iff, Ne, pregTest_lit hword]
  intro hoccurs
  exact hfilter (hoccurs.filter isRelation)

/-- The sign `!=` does not occur by chance in a literal with another sign. -/
theorem SplitsAt.pregTest_ne {literal left right : Str} {op : Op}
    (h : SplitsAt literal left op right) (hop : op ≠ .ne) :
    pregTest (.lit Op.ne.text) literal = false := by
  rw [Bool.eq_false_iff, Ne, pregTest_lit (by simp [Op.text])]
  rintro ⟨pre, post, htext⟩
  have hcount : (pre ++ Op.ne.text ++ post).count '=' = op.text.count '=' := by
    rw [htext, h.text, List.count_append, List.count_append,
      List.count_eq_zero_of_not_mem (h.left_free.notMem rfl),
      List.count_eq_zero_of_not_mem (h.right_free.notMem rfl)]
    simp
  have hone : op.text.count '=' ≤ 1 := by cases op <;> decide
  have htwo : (pre ++ Op.ne.text ++ post).count '=' = pre.count '=' + 1 + post.count '=' := by
    simp [Op.text]
    omega
  -- the only `=` of the literal is the one after the `!`
  have hpre : '=' ∉ pre ++ ['!'] := by
    have hzero : pre.count '=' = 0 := by omega
    simpa using List.count_eq_zero.mp hzero
  have hsplit : (pre ++ ['!']) ++ '=' :: post = left ++ (op.text ++ right) := by
    rw [← h.text, ← htext]
    simp [Op.text]
  have hlast : ∀ before, '=' ∉ before → left ++ (op.text ++ right) = before ++ '=' :: right →
      before.getLast? = some '!' := by
    intro before hbefore heq
    rw [heq] at hsplit
    rw [← ((append_cons_inj_of_notMem_left hpre hbefore).mp hsplit).1]
    simp
  have hleft : '=' ∉ left := h.left_free.notMem rfl
  cases op with
  | ne => exact hop rfl
  | le => simpa using hlast (left ++ ['<']) (by simpa using hleft) (by simp [Op.text])
  | ge => simpa using hlast (left ++ ['>']) (by simpa using hleft) (by simp [Op.text])
  | eq => exact h.not_bang rfl (hlast left hleft rfl)
  | lt =>
      have hzero : Op.lt.text.count '=' = 0 := by decide
      omega
  | gt =>
      have hzero : Op.gt.text.count '=' = 0 := by decide
      omega

theorem CSP.mapping_eq (exp : Str) :
    CSP.mapping exp = Op.all.map fun op => (op.text, op.constraints exp) := by
  have hne : "!=".toList = ['!', '='] := by decide
  have hle : "<=".toList = ['<', '='] := by decide
  have hge : ">=".toList = ['>', '='] := by decide
  unfold CSP.mapping
  rw [hne, hle, hge]
  rfl

/-- The rewriting chosen is that of the sign. -/
theorem SplitsAt.find?_mapping {literal left right : Str} {op : Op}
    (h : SplitsAt literal left op right) (exp : Str) :
    (CSP.mapping exp).find? (fun entry => pregTest (.lit entry.1) literal) =
      some (op.text, op.constraints exp) := by
  have hyes : pregTest (.lit op.text) literal = true := by
    rw [pregTest_lit (by cases op <;> simp [Op.text])]
    exact ⟨left, right, by rw [h.text, List.append_assoc]⟩
  have hno : ∀ other : Op, ¬ other.text.filter isRelation <:+: op.text.filter isRelation →
      pregTest (.lit other.text) literal = false := fun other hother =>
    pregTest_eq_false_of_filter (by cases other <;> simp [Op.text])
      (by rwa [h.filter_isRelation])
  rw [CSP.mapping_eq, List.find?_map, Option.map_eq_some_iff]
  refine ⟨op, ?_, rfl⟩
  unfold Op.all
  simp only [List.find?_cons, Function.comp_apply]
  cases op with
  | ne => rw [hyes]
  | le => rw [h.pregTest_ne (by decide), hyes]
  | ge => rw [h.pregTest_ne (by decide), hno .le (by decide), hyes]
  | eq => rw [h.pregTest_ne (by decide), hno .le (by decide), hno .ge (by decide), hyes]
  | lt =>
      rw [h.pregTest_ne (by decide), hno .le (by decide), hno .ge (by decide),
        hno .eq (by decide), hyes]
  | gt =>
      rw [h.pregTest_ne (by decide), hno .le (by decide), hno .ge (by decide),
        hno .eq (by decide), hno .lt (by decide), hyes]

/-- The left side with the right one moved to it. -/
def movedSides (left right : Str) : Str :=
  if looseEqZero right then left else left ++ CSP.moveRight right

/-- The first normaliser accepts the texts with one relation sign. -/
theorem CSP.normalizeExpression_eq_ok {literal : Str} {cnf : List (List Str)} :
    CSP.normalizeExpression literal = .ok cnf ↔
      ∃ left op right, SplitsAt literal left op right ∧
        cnf = op.constraints (movedSides left right) := by
  constructor
  · intro hok
    unfold CSP.normalizeExpression at hok
    split at hok
    next left right hsplit =>
      obtain ⟨op, h⟩ := exists_splitsAt hsplit
      refine ⟨left, op, right, h, ?_⟩
      simp only [h.find?_mapping] at hok
      exact (Except.ok.inj hok).symm
    next => contradiction
  · rintro ⟨left, op, right, h, rfl⟩
    unfold CSP.normalizeExpression
    rw [h.pregSplit_eq]
    simp only [h.find?_mapping]
    rfl

end Sato
