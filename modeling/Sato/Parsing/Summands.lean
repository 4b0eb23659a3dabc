import Sato.Parsing.Forms

/-! # The summands written in a literal

A side is cut before each sign into summands, a number or a name that may follow
a number. The term loop is given the summands of the left side and, with the
opposite signs, those of the right side.
-/

namespace Sato

open Foundation

/-- A sign and the text up to the next sign. -/
structure Summand where
  positive : Bool
  body : Str
  deriving DecidableEq

namespace Summand

def text (x : Summand) : Str := if x.positive then x.body else '-' :: x.body

def flip (x : Summand) : Summand := { x with positive := !x.positive }

/-- The number written before the name, or one. -/
def size (x : Summand) : ℕ :=
  if x.body.takeWhile isDigit = [] then 1 else digitsValue (x.body.takeWhile isDigit)

def coeff (x : Summand) : ℤ := if x.positive then x.size else -x.size

/-- What follows the number: the empty text when the summand is a number. -/
def name (x : Summand) : Str := x.body.dropWhile isDigit

@[simp] theorem flip_name (x : Summand) : x.flip.name = x.name := rfl

@[simp] theorem flip_coeff (x : Summand) : x.flip.coeff = -x.coeff := by
  cases x with
  | mk positive body => cases positive <;> simp [coeff, flip, size]

end Summand

/-- The text before the first sign and the summands after it. -/
def cut (isPlus : Char → Bool) : Str → Str × List Summand
  | [] => ([], [])
  | c :: s =>
      if c = '-' then ([], ⟨false, (cut isPlus s).1⟩ :: (cut isPlus s).2)
      else if isPlus c then ([], ⟨true, (cut isPlus s).1⟩ :: (cut isPlus s).2)
      else (c :: (cut isPlus s).1, (cut isPlus s).2)

/-- The summands of a side. The first one has a sign of its own when it is negative. -/
def summands (isPlus : Char → Bool) : Str → List Summand
  | [] => []
  | c :: s =>
      if c = '-' then ⟨false, (cut isPlus s).1⟩ :: (cut isPlus s).2
      else ⟨true, (cut isPlus (c :: s)).1⟩ :: (cut isPlus (c :: s)).2

/-- The sign that begins a positive summand on the left. -/
def isPlus (c : Char) : Bool := c == '+'

/-- On the right a `!` is read as a `+`. -/
def isMovedPlus (c : Char) : Bool := c == '+' || c == '!'

/-- What the term loop is given: the summands of the left side and the opposites
of those on the right, without empty texts. -/
def literalSummands (left right : Str) : List Summand :=
  (summands isPlus left ++
      if looseEqZero right then [] else (summands isMovedPlus right).map Summand.flip).filter
    fun x => !x.text.isEmpty

section Cut

variable {plus : Char → Bool}

theorem notMem_cut (s : Str) :
    '-' ∉ (cut plus s).1 ∧ ∀ x ∈ (cut plus s).2, '-' ∉ x.body := by
  induction s with
  | nil => simp [cut]
  | cons c s ih =>
      rw [cut]
      split
      next => simpa using ih
      next hc =>
        split
        · simpa using ih
        · simpa [Ne.symm hc] using ih

theorem notMem_body {s : Str} {x : Summand} (hx : x ∈ summands plus s) : '-' ∉ x.body := by
  cases s with
  | nil => simp [summands] at hx
  | cons c s =>
      rw [summands] at hx
      split at hx
      · rcases List.mem_cons.mp hx with rfl | hx
        · exact (notMem_cut s).1
        · exact (notMem_cut s).2 x hx
      · rcases List.mem_cons.mp hx with rfl | hx
        · exact (notMem_cut (c :: s)).1
        · exact (notMem_cut (c :: s)).2 x hx

/-- A sign ends the summand before it. -/
theorem cut_append_cons (s t : Str) {c : Char} (hc : c = '-' ∨ plus c = true) :
    cut plus (s ++ c :: t) =
      ((cut plus s).1, (cut plus s).2 ++ ⟨c ≠ '-', (cut plus t).1⟩ :: (cut plus t).2) := by
  induction s with
  | nil =>
      rw [List.nil_append, cut, cut]
      by_cases hminus : c = '-'
      · simp [hminus]
      · simp [hminus, hc.resolve_left hminus]
  | cons d s ih =>
      rw [List.cons_append, cut, ih, cut]
      split
      · rfl
      · split <;> rfl

end Cut

/-! ## The split of the parser -/

namespace Inequation

theorem splitTerms_eq_cut (s : Str) :
    splitTerms s =
      ((cut isPlus s).1 :: (cut isPlus s).2.map Summand.text).filter fun part => !part.isEmpty := by
  have hminus : "+-".toList = ['+', '-'] := by decide
  rw [splitTerms, pregSplitNoEmpty, pregSplit_cls, pregReplace_cls, hminus]
  congr 1
  induction s with
  | nil => rfl
  | cons c s ih =>
      by_cases hminus : c = '-'
      · -- a minus sign is put after a plus sign, which ends the part before it
        have hcut : cut isPlus (c :: s) =
            ([], ⟨false, (cut isPlus s).1⟩ :: (cut isPlus s).2) := by simp [cut, hminus]
        have hflat : (c :: s).flatMap (fun c => if c == '-' then ['+', '-'] else [c]) =
            '+' :: '-' :: s.flatMap (fun c => if c == '-' then ['+', '-'] else [c]) := by
          simp [hminus]
        rw [hflat, hcut]
        simp only [List.splitOnP_cons_eq_if_modifyHead, ih]
        rfl
      · have hflat : (c :: s).flatMap (fun c => if c == '-' then ['+', '-'] else [c]) =
            c :: s.flatMap (fun c => if c == '-' then ['+', '-'] else [c]) := by
          simp [hminus]
        rw [hflat, List.splitOnP_cons_eq_if_modifyHead, ih]
        by_cases hplus : c = '+'
        · simp [cut, isPlus, hplus, Summand.text]
        · simp [cut, isPlus, hminus, hplus]

theorem splitTerms_eq (s : Str) :
    splitTerms s =
      ((summands isPlus s).filter fun x => !x.text.isEmpty).map Summand.text := by
  have hfilter : ∀ xs : List Summand, (xs.filter fun x => !x.text.isEmpty).map Summand.text =
      (xs.map Summand.text).filter fun part => !part.isEmpty := by
    intro xs
    rw [List.filter_map]
    rfl
  rw [splitTerms_eq_cut, hfilter]
  cases s with
  | nil => rfl
  | cons c s =>
      by_cases hminus : c = '-'
      · simp [cut, summands, hminus]
      · rw [summands, if_neg hminus, List.map_cons]
        rfl

/-- The prefix `1+` is a summand of its own. -/
theorem splitTerms_shifted (left : Str) :
    splitTerms ('1' :: '+' :: left) = ['1'] :: splitTerms left := by
  rw [splitTerms_eq_cut, splitTerms_eq_cut]
  simp [cut, isPlus, Summand.text]

end Inequation

/-! ## The right side moved to the left -/

/-- What `moveRight` does to one character. -/
def exchange (c : Char) : Char :=
  if c = '-' then '+' else if c = '+' ∨ c = '!' then '-' else c

theorem replace_exchange (s : Str) :
    pregReplace (.cls (· == '!')) ['-'] (pregReplace (.cls (· == '-')) ['+']
      (pregReplace (.cls (· == '+')) ['!'] s)) = s.map exchange := by
  rw [pregReplace_cls, pregReplace_cls, pregReplace_cls, List.flatMap_assoc, List.flatMap_assoc,
    List.map_eq_flatMap]
  congr 1
  ext1 c
  by_cases hplus : c = '+'
  · simp [exchange, hplus]
  · by_cases hminus : c = '-'
    · simp [exchange, hminus]
    · by_cases hbang : c = '!'
      · simp [exchange, hbang]
      · simp [exchange, hplus, hminus, hbang]

theorem CSP.moveRight_nil : CSP.moveRight [] = [] := by decide

/-- A right side without a sign is given one before the exchange. -/
theorem CSP.moveRight_cons (c : Char) (s : Str) :
    CSP.moveRight (c :: s) =
      if c = '-' then '+' :: s.map exchange else '-' :: (c :: s).map exchange := by
  have htest : pregTest (.seq .bol (.cls (· != '-'))) (c :: s) = (c != '-') := by
    rw [pregTest, pregMatch_bol]
    by_cases hc : c = '-' <;> simp [Regex.headMatch, Regex.run, Option.filter, hc]
  unfold CSP.moveRight
  rw [htest]
  by_cases hc : c = '-'
  · simp only [hc, bne_self_eq_false, Bool.false_eq_true, if_false, if_true]
    exact replace_exchange ('-' :: s)
  · simp only [bne_iff_ne.mpr hc, if_true, if_neg hc]
    exact replace_exchange ('+' :: c :: s)

theorem cut_exchange (s : Str) :
    cut isPlus (s.map exchange) =
      ((cut isMovedPlus s).1, (cut isMovedPlus s).2.map Summand.flip) := by
  induction s with
  | nil => rfl
  | cons c s ih =>
      rw [List.map_cons, cut, ih, cut]
      by_cases hminus : c = '-'
      · simp [exchange, hminus, isPlus, Summand.flip]
      · by_cases hplus : c = '+' ∨ c = '!'
        · have hmoved : isMovedPlus c = true := by simpa [isMovedPlus] using hplus
          simp [exchange, hminus, hplus, hmoved, Summand.flip]
        · have hmoved : isMovedPlus c = false := by simpa [isMovedPlus] using hplus
          have hchar : isPlus c = false := by
            simpa [isPlus] using fun h : c = '+' => hplus (Or.inl h)
          simp [exchange, hminus, hplus, hmoved, hchar]

/-- Moved to the left, a side begins with a sign and has the opposite summands. -/
theorem exists_moveRight_eq {right : Str} (hright : right ≠ []) :
    ∃ c s, CSP.moveRight right = c :: s ∧ (c = '-' ∨ isPlus c = true) ∧
      ⟨c ≠ '-', (cut isPlus s).1⟩ :: (cut isPlus s).2 =
        (summands isMovedPlus right).map Summand.flip := by
  obtain ⟨d, right, rfl⟩ := List.exists_cons_of_ne_nil hright
  rw [CSP.moveRight_cons, summands]
  split
  · exact ⟨'+', right.map exchange, rfl, Or.inr rfl, by rw [cut_exchange]; rfl⟩
  · exact ⟨'-', (d :: right).map exchange, rfl, Or.inl rfl, by rw [cut_exchange]; rfl⟩

/-- The term loop runs over the summands of the two sides. -/
theorem Inequation.splitTerms_movedSides (left right : Str) :
    splitTerms (movedSides left right) = (literalSummands left right).map Summand.text := by
  have hleft : splitTerms left = ((summands isPlus left).filter fun x => !x.text.isEmpty).map
      Summand.text := splitTerms_eq left
  rw [movedSides, literalSummands]
  by_cases hzero : looseEqZero right = true
  · simp only [hzero, if_true, List.append_nil, hleft]
  · simp only [hzero, Bool.false_eq_true, if_false]
    rw [List.filter_append, List.map_append, ← hleft]
    cases right with
    | nil =>
        rw [CSP.moveRight_nil]
        simp [summands]
    | cons d right =>
        obtain ⟨c, s, hmoved, hc, hflip⟩ := exists_moveRight_eq (List.cons_ne_nil d right)
        rw [hmoved, splitTerms_eq_cut, splitTerms_eq_cut, cut_append_cons left s hc, ← hflip,
          List.map_append, ← List.cons_append, List.filter_append, List.filter_map]
        rfl

/-! ## What the moved text keeps -/

theorem mem_moveRight {right : Str} {c : Char} (hc : c ∈ CSP.moveRight right) :
    c ∈ right ∨ c = '-' ∨ c = '+' := by
  have hexchange : ∀ s : Str, c ∈ s.map exchange → c ∈ s ∨ c = '-' ∨ c = '+' := by
    intro s hmem
    obtain ⟨d, hd, rfl⟩ := List.mem_map.mp hmem
    unfold exchange
    split
    · exact Or.inr (Or.inr rfl)
    · split
      · exact Or.inr (Or.inl rfl)
      · exact Or.inl hd
  cases right with
  | nil =>
      rw [CSP.moveRight_nil] at hc
      simp at hc
  | cons d right =>
      rw [CSP.moveRight_cons] at hc
      split at hc
      · rcases List.mem_cons.mp hc with rfl | hc
        · exact Or.inr (Or.inr rfl)
        · exact (hexchange right hc).imp_left (List.mem_cons_of_mem d)
      · rcases List.mem_cons.mp hc with rfl | hc
        · exact Or.inr (Or.inl rfl)
        · exact hexchange (d :: right) hc

theorem mem_movedSides {left right : Str} {c : Char} (hc : c ∈ movedSides left right) :
    c ∈ left ∨ c ∈ right ∨ c = '-' ∨ c = '+' := by
  unfold movedSides at hc
  split at hc
  · exact Or.inl hc
  · exact (List.mem_append.mp hc).imp_right mem_moveRight

theorem NoRelation.movedSides {left right : Str} (hleft : NoRelation left)
    (hright : NoRelation right) : NoRelation (movedSides left right) := by
  intro c hc
  rcases mem_movedSides hc with hc | hc | rfl | rfl
  · exact hleft c hc
  · exact hright c hc
  · rfl
  · rfl

theorem ltrim_movedSides (left right : Str) :
    ltrim (movedSides left right) = movedSides (ltrim left) right := by
  unfold movedSides
  split
  · rfl
  · cases right with
    | nil => rw [CSP.moveRight_nil, List.append_nil, List.append_nil]
    | cons d right =>
        obtain ⟨c, s, hmoved, hc, -⟩ := exists_moveRight_eq (List.cons_ne_nil d right)
        rw [hmoved]
        apply ltrim_append_cons
        rcases hc with rfl | hc
        · rfl
        · obtain rfl : c = '+' := by simpa [isPlus] using hc
          rfl

end Sato
