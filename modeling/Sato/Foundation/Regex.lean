import Mathlib.Data.List.Basic
import Mathlib.Data.List.Infix
import Sato.Foundation.Decimal

/-! # Backtracking regular expressions

A pattern lists its matches at the head of a text in the order a backtracking
matcher tries them, so the first entry is the match it reports. Searching,
replacing, splitting and matching all rest on one left to right scan into
unmatched characters and non-overlapping matches.
-/

namespace Foundation

/-! ## Character classes -/

def isLetter (c : Char) : Bool := ('a' ≤ c ∧ c ≤ 'z') ∨ ('A' ≤ c ∧ c ≤ 'Z')

/-- The class `\w`. -/
def isWord (c : Char) : Bool := isLetter c || isDigit c || c == '_'

theorem isDigit_of_isLetter {c : Char} (hc : isLetter c = true) : isDigit c = false := by
  simp only [isLetter, decide_eq_true_eq, Char.le_def, UInt32.le_iff_toNat_le] at hc
  simp only [isDigit, decide_eq_false_iff_not, Char.le_def, UInt32.le_iff_toNat_le]
  have ha : 'a'.val.toNat = 97 := rfl
  have hA : 'A'.val.toNat = 65 := rfl
  have h9 : '9'.val.toNat = 57 := rfl
  omega

theorem ne_of_isWord {c d : Char} (hc : isWord c = true) (hd : isWord d = false) : c ≠ d := by
  rintro rfl
  rw [hd] at hc
  contradiction

theorem isWord_of_isLetter {c : Char} (hc : isLetter c = true) : isWord c = true := by
  simp [isWord, hc]

theorem isWord_of_isDigit {c : Char} (hc : isDigit c = true) : isWord c = true := by
  simp [isWord, hc]

theorem isSpace_of_isWord {c : Char} (hc : isWord c = true) : isSpace c = false := by
  refine Bool.eq_false_iff.mpr fun hspace => ?_
  simp only [isSpace, Bool.or_eq_true, beq_iff_eq] at hspace
  rcases hspace with ((((rfl | rfl) | rfl) | rfl) | rfl) | rfl <;>
    simp [isWord, isLetter, isDigit] at hc

/-! ## Patterns -/

inductive Regex where
  /-- A literal word. -/
  | lit (word : Str)
  /-- One character of a class. -/
  | cls (p : Char → Bool)
  /-- As many characters of a class as possible, giving back one at a time. -/
  | star (p : Char → Bool)
  /-- An optional character of a class. -/
  | opt (p : Char → Bool)
  | seq (first second : Regex)
  | alt (first second : Regex)
  /-- A capturing group. -/
  | group (body : Regex)
  /-- `^`. -/
  | bol
  /-- `$`: the end of the text, or the newline that ends it. -/
  | eol

/-- The matched text and the captured groups, in the order they open. -/
structure Match where
  text : Str
  groups : List Str := []
  deriving DecidableEq

def Match.append (m n : Match) : Match := ⟨m.text ++ n.text, m.groups ++ n.groups⟩

/-- The splits of a text after a run of a class, longest run first. -/
def greedy (p : Char → Bool) : Str → List (Str × Str)
  | [] => [([], [])]
  | c :: s =>
      if p c then (greedy p s).map (fun split => (c :: split.1, split.2)) ++ [([], c :: s)]
      else [([], c :: s)]

namespace Regex

/-- One or more characters of a class. -/
def plus (p : Char → Bool) : Regex := .seq (.cls p) (.star p)

/-- The matches at the head of a text with the text left over, in the order
they are tried. The flag says whether the head is the start of the subject. -/
def run : Regex → Bool → Str → List (Match × Str)
  | .lit word, _, s => if word.isPrefixOf s then [(⟨word, []⟩, s.drop word.length)] else []
  | .cls _, _, [] => []
  | .cls p, _, c :: s => if p c then [(⟨[c], []⟩, s)] else []
  | .star p, _, s => (greedy p s).map fun split => (⟨split.1, []⟩, split.2)
  | .opt _, _, [] => [(⟨[], []⟩, [])]
  | .opt p, _, c :: s =>
      if p c then [(⟨[c], []⟩, s), (⟨[], []⟩, c :: s)] else [(⟨[], []⟩, c :: s)]
  | .seq first second, start, s =>
      (first.run start s).flatMap fun found =>
        (second.run (start && found.1.text.isEmpty) found.2).map fun next =>
          (found.1.append next.1, next.2)
  | .alt first second, start, s => first.run start s ++ second.run start s
  | .group body, start, s =>
      (body.run start s).map fun found =>
        (⟨found.1.text, found.1.text :: found.1.groups⟩, found.2)
  | .bol, start, s => if start then [(⟨[], []⟩, s)] else []
  | .eol, _, s => if s = [] ∨ s = ['\n'] then [(⟨[], []⟩, s)] else []

/-- The match reported at the head of a text. Matches of the empty text are
left out: every pattern used here consumes a character. -/
def headMatch (r : Regex) (start : Bool) (s : Str) : Option Match :=
  ((r.run start s).head?.map Prod.fst).filter fun m => !m.text.isEmpty

/-- The left to right scan. The counter holds the characters of the last match
still to be passed over. -/
def tokens (r : Regex) : Bool → ℕ → Str → List (Char ⊕ Match)
  | _, _, [] => []
  | _, skip + 1, _ :: s => r.tokens false skip s
  | start, 0, c :: s =>
      match r.headMatch start (c :: s) with
      | some m => .inr m :: r.tokens false (m.text.length - 1) s
      | none => .inl c :: r.tokens false 0 s

def scan (r : Regex) (s : Str) : List (Char ⊕ Match) := r.tokens true 0 s

end Regex

/-! ## The library functions -/

/-- `preg_match_all`. -/
def pregMatchAll (r : Regex) (s : Str) : List Match := (r.scan s).filterMap Sum.getRight?

theorem filterMap_inl (s : Str) :
    (s.map Sum.inl : List (Char ⊕ Match)).filterMap Sum.getRight? = [] := by
  simp [List.filterMap_map]

/-- `preg_match`, with the match it stores. -/
def pregMatch (r : Regex) (s : Str) : Option Match := (pregMatchAll r s).head?

/-- Whether `preg_match` finds a match. -/
def pregTest (r : Regex) (s : Str) : Bool := (pregMatch r s).isSome

/-- The text of a scan with each match replaced. -/
def replaceTokens (rep : Str) (ts : List (Char ⊕ Match)) : Str :=
  ts.flatMap (Sum.elim (fun c => [c]) fun _ => rep)

/-- `preg_replace` with a replacement that refers to no group. -/
def pregReplace (r : Regex) (rep s : Str) : Str := replaceTokens rep (r.scan s)

/-- The texts between the matches of a scan. -/
def splitTokens : List (Char ⊕ Match) → List Str
  | [] => [[]]
  | .inl c :: ts => (splitTokens ts).modifyHead (c :: ·)
  | .inr _ :: ts => [] :: splitTokens ts

/-- `preg_split`. -/
def pregSplit (r : Regex) (s : Str) : List Str := splitTokens (r.scan s)

/-- `preg_split` with `PREG_SPLIT_NO_EMPTY`. -/
def pregSplitNoEmpty (r : Regex) (s : Str) : List Str :=
  (pregSplit r s).filter fun part => !part.isEmpty

/-! ## What a pattern consumes -/

theorem greedy_append {p : Char → Bool} {s : Str} {split : Str × Str}
    (hmem : split ∈ greedy p s) : split.1 ++ split.2 = s ∧ ∀ c ∈ split.1, p c = true := by
  induction s generalizing split with
  | nil =>
      simp only [greedy, List.mem_singleton] at hmem
      subst hmem
      simp
  | cons c s ih =>
      unfold greedy at hmem
      split at hmem
      next hc =>
        rcases List.mem_append.mp hmem with hmap | hlast
        · obtain ⟨shorter, hshorter, rfl⟩ := List.mem_map.mp hmap
          obtain ⟨htext, hall⟩ := ih hshorter
          exact ⟨by simp [htext], by simpa [hc] using hall⟩
        · rw [List.mem_singleton.mp hlast]
          simp
      next =>
        rw [List.mem_singleton.mp hmem]
        simp

theorem head?_greedy (p : Char → Bool) (s : Str) :
    (greedy p s).head? = some (s.takeWhile p, s.dropWhile p) := by
  induction s with
  | nil => rfl
  | cons c s ih =>
      unfold greedy
      split
      next hc =>
        rw [List.head?_append, List.head?_map, ih]
        simp [hc]
      next hc => simp [hc]

namespace Regex

/-- A match and the text it leaves make up the subject. -/
theorem run_append {r : Regex} {start : Bool} {s : Str} {found : Match × Str}
    (hmem : found ∈ r.run start s) : found.1.text ++ found.2 = s := by
  induction r generalizing start s found with
  | lit word =>
      unfold run at hmem
      split at hmem
      next hstarts =>
        rw [List.mem_singleton.mp hmem]
        obtain ⟨rest, rfl⟩ := List.isPrefixOf_iff_prefix.mp hstarts
        simp
      next => simp at hmem
  | cls p =>
      cases s with
      | nil => simp [run] at hmem
      | cons c s =>
          unfold run at hmem
          split at hmem
          · rw [List.mem_singleton.mp hmem]
            rfl
          · simp at hmem
  | star p =>
      obtain ⟨split, hsplit, rfl⟩ := List.mem_map.mp hmem
      exact (greedy_append hsplit).1
  | opt p =>
      cases s with
      | nil =>
          simp only [run, List.mem_singleton] at hmem
          subst hmem
          rfl
      | cons c s =>
          unfold run at hmem
          split at hmem
          · rcases List.mem_pair.mp hmem with rfl | rfl <;> rfl
          · rw [List.mem_singleton.mp hmem]
            rfl
  | seq first second ihfirst ihsecond =>
      obtain ⟨left, hleft, hmap⟩ := List.mem_flatMap.mp hmem
      obtain ⟨right, hright, heq⟩ := List.mem_map.mp hmap
      rw [← heq]
      change (left.1.text ++ right.1.text) ++ right.2 = s
      rw [List.append_assoc, ihsecond hright, ihfirst hleft]
  | alt first second ihfirst ihsecond =>
      rcases List.mem_append.mp hmem with hfirst | hsecond
      · exact ihfirst hfirst
      · exact ihsecond hsecond
  | group body ih =>
      obtain ⟨inner, hinner, heq⟩ := List.mem_map.mp hmem
      subst heq
      have htext : inner.1.text ++ inner.2 = s := ih hinner
      exact htext
  | bol =>
      unfold run at hmem
      split at hmem
      · rw [List.mem_singleton.mp hmem]
        rfl
      · simp at hmem
  | eol =>
      unfold run at hmem
      split at hmem
      · rw [List.mem_singleton.mp hmem]
        rfl
      · simp at hmem

theorem headMatch_eq_some {r : Regex} {start : Bool} {s : Str} {m : Match}
    (hmatch : r.headMatch start s = some m) :
    m.text ≠ [] ∧ ∃ rest, (r.run start s).head? = some (m, rest) ∧ s = m.text ++ rest := by
  unfold headMatch at hmatch
  obtain ⟨hsome, hne⟩ := Option.filter_eq_some_iff.mp hmatch
  obtain ⟨⟨found, rest⟩, hhead, rfl⟩ := Option.map_eq_some_iff.mp hsome
  refine ⟨by simpa using hne, rest, hhead, ?_⟩
  exact (run_append (List.mem_of_head? hhead)).symm

theorem headMatch_of_head? {r : Regex} {start : Bool} {s rest : Str} {m : Match}
    (hhead : (r.run start s).head? = some (m, rest)) (hne : m.text ≠ []) :
    r.headMatch start s = some m := by
  simp [headMatch, hhead, hne]

theorem headMatch_eq_none_of_run {r : Regex} {start : Bool} {s : Str}
    (hrun : r.run start s = []) : r.headMatch start s = none := by
  simp [headMatch, hrun]

/-- The first alternative that succeeds all the way is the one reported. -/
theorem head?_run_seq {first second : Regex} {start : Bool} {s middle rest : Str} {m n : Match}
    (hfirst : (first.run start s).head? = some (m, middle))
    (hsecond : (second.run (start && m.text.isEmpty) middle).head? = some (n, rest)) :
    ((seq first second).run start s).head? = some (m.append n, rest) := by
  obtain ⟨later, hlater⟩ := List.head?_eq_some_iff.mp hfirst
  obtain ⟨more, hmore⟩ := List.head?_eq_some_iff.mp hsecond
  simp [run, hlater, hmore]

theorem run_seq_eq_nil {first second : Regex} {start : Bool} {s : Str}
    (hnone : ∀ found ∈ first.run start s,
      second.run (start && found.1.text.isEmpty) found.2 = []) :
    (seq first second).run start s = [] := by
  simp only [run, List.flatMap_eq_nil_iff, List.map_eq_nil_iff]
  exact hnone

theorem head?_run_group {body : Regex} {start : Bool} {s rest : Str} {m : Match}
    (hbody : (body.run start s).head? = some (m, rest)) :
    ((group body).run start s).head? = some (⟨m.text, m.text :: m.groups⟩, rest) := by
  simp [run, hbody]

theorem head?_run_lit (word : Str) (start : Bool) (rest : Str) :
    ((lit word).run start (word ++ rest)).head? = some (⟨word, []⟩, rest) := by
  have hstarts : word.isPrefixOf (word ++ rest) = true :=
    List.isPrefixOf_iff_prefix.mpr (List.prefix_append _ _)
  simp [run, hstarts]

theorem head?_run_cls {p : Char → Bool} (start : Bool) {c : Char} (hc : p c = true) (rest : Str) :
    ((cls p).run start (c :: rest)).head? = some (⟨[c], []⟩, rest) := by
  simp [run, hc]

theorem head?_run_star (p : Char → Bool) (start : Bool) (s : Str) :
    ((star p).run start s).head? = some (⟨s.takeWhile p, []⟩, s.dropWhile p) := by
  simp [run, head?_greedy]

theorem head?_run_plus {p : Char → Bool} (start : Bool) {c : Char} (s : Str) (hc : p c = true) :
    ((plus p).run start (c :: s)).head? =
      some (⟨c :: s.takeWhile p, []⟩, s.dropWhile p) := by
  have hfirst : ((cls p).run start (c :: s)).head? = some (⟨[c], []⟩, s) :=
    head?_run_cls start hc s
  exact head?_run_seq hfirst (head?_run_star p _ s)

theorem head?_run_plus_append {p : Char → Bool} (start : Bool) {s rest : Str} (hne : s ≠ [])
    (hs : ∀ c ∈ s, p c = true) (hrest : ∀ c ∈ rest.head?, p c = false) :
    ((plus p).run start (s ++ rest)).head? = some (⟨s, []⟩, rest) := by
  obtain ⟨c, s, rfl⟩ := List.exists_cons_of_ne_nil hne
  have htail := fun d hd => hs d (List.mem_cons_of_mem c hd)
  rw [List.cons_append, head?_run_plus start _ (hs c List.mem_cons_self),
    takeWhile_append_of_head htail hrest, dropWhile_append_of_head htail hrest]

theorem head?_run_digits (start : Bool) (n : ℕ) {rest : Str}
    (hrest : ∀ c ∈ rest.head?, isDigit c = false) :
    ((plus isDigit).run start (natText n ++ rest)).head? = some (⟨natText n, []⟩, rest) :=
  head?_run_plus_append start (natText_ne_nil n) (fun _ hc => isDigit_of_mem_natText hc) hrest

theorem run_plus_eq_nil {p : Char → Bool} (start : Bool) {s : Str}
    (hs : ∀ c ∈ s.head?, p c = false) : (plus p).run start s = [] := by
  apply run_seq_eq_nil
  cases s with
  | nil => simp [run]
  | cons c s => simp [run, hs c (by simp)]

/-! ## The scan -/

theorem tokens_skip (r : Regex) (start : Bool) (skip : ℕ) (s : Str) :
    r.tokens start (skip + 1) s = r.tokens false 0 (s.drop (skip + 1)) := by
  induction skip generalizing start s with
  | zero => cases s <;> simp [tokens]
  | succ skip ih =>
      cases s with
      | nil => simp [tokens]
      | cons c s => simpa [tokens] using ih false s

theorem tokens_of_match {r : Regex} {start : Bool} {m : Match} {rest : Str}
    (hmatch : r.headMatch start (m.text ++ rest) = some m) :
    r.tokens start 0 (m.text ++ rest) = .inr m :: r.tokens false 0 rest := by
  obtain ⟨hne, -⟩ := headMatch_eq_some hmatch
  obtain ⟨c, s, htext⟩ := List.exists_cons_of_ne_nil hne
  have hcons : m.text ++ rest = c :: (s ++ rest) := by simp [htext]
  rw [hcons] at hmatch ⊢
  rw [tokens, hmatch]
  simp only [htext, List.length_cons, Nat.add_sub_cancel, List.cons.injEq, true_and]
  cases hs : s.length with
  | zero => simp [List.length_eq_zero_iff.mp hs]
  | succ n => rw [tokens_skip, ← hs, List.drop_left]

theorem tokens_of_no_match {r : Regex} {start : Bool} {c : Char} {s : Str}
    (hmatch : r.headMatch start (c :: s) = none) :
    r.tokens start 0 (c :: s) = .inl c :: r.tokens false 0 s := by
  rw [tokens, hmatch]

/-- Induction along the scan: a match is passed over whole, an unmatched
character alone. -/
theorem tokens_induction (r : Regex) {motive : Bool → Str → Prop}
    (nil : ∀ start, motive start [])
    (unmatched : ∀ start c s, r.headMatch start (c :: s) = none → motive false s →
      motive start (c :: s))
    (matched : ∀ start m rest, m.text ≠ [] → r.headMatch start (m.text ++ rest) = some m →
      motive false rest → motive start (m.text ++ rest))
    (start : Bool) (s : Str) : motive start s := by
  induction hlen : s.length using Nat.strong_induction_on generalizing start s with
  | h n ih =>
      cases s with
      | nil => exact nil start
      | cons c s =>
          cases hmatch : r.headMatch start (c :: s) with
          | none => exact unmatched start c s hmatch (ih s.length (by simp [← hlen]) _ _ rfl)
          | some m =>
              obtain ⟨hne, rest, -, htext⟩ := headMatch_eq_some hmatch
              rw [htext] at hmatch ⊢
              -- a match is not empty, so that what is left is shorter
              have hpos := List.length_pos_iff.mpr hne
              have hshort : rest.length < n := by
                have := congrArg List.length htext
                simp only [List.length_append] at this
                omega
              exact matched start m rest hne hmatch (ih rest.length hshort _ _ rfl)

/-- The scan loses nothing of the text. -/
theorem tokens_text (r : Regex) (start : Bool) (s : Str) :
    (r.tokens start 0 s).flatMap (Sum.elim (fun c => [c]) Match.text) = s := by
  induction start, s using r.tokens_induction with
  | nil start => rfl
  | unmatched start c s hmatch ih => simp [tokens_of_no_match hmatch, ih]
  | matched start m rest hne hmatch ih => simp [tokens_of_match hmatch, ih]

/-- Where no match starts, the scan returns the characters alone. -/
theorem tokens_append_of_no_match {r : Regex} {start : Bool} {s t : Str}
    (hnone : ∀ pre post, s = pre ++ post → post ≠ [] →
      r.headMatch (start && pre.isEmpty) (post ++ t) = none) :
    r.tokens start 0 (s ++ t) =
      s.map .inl ++ r.tokens (start && s.isEmpty) 0 t := by
  induction s generalizing start with
  | nil => simp
  | cons c s ih =>
      have hhead := hnone [] (c :: s) rfl (List.cons_ne_nil _ _)
      have htail : ∀ pre post, s = pre ++ post → post ≠ [] →
          r.headMatch (false && pre.isEmpty) (post ++ t) = none := by
        intro pre post heq hpost
        simpa using hnone (c :: pre) post (by simp [heq]) hpost
      rw [List.cons_append] at hhead ⊢
      rw [tokens_of_no_match (by simpa using hhead), ih htail]
      simp

/-- A pattern whose matches start with one character finds nothing without it. -/
theorem tokens_append_of_notMem {r : Regex} {c : Char}
    (hr : ∀ start s, s.head? ≠ some c → r.run start s = []) {s : Str} (hs : c ∉ s)
    (start : Bool) (t : Str) :
    r.tokens start 0 (s ++ t) = s.map .inl ++ r.tokens (start && s.isEmpty) 0 t := by
  refine tokens_append_of_no_match fun pre post heq hpost => ?_
  obtain ⟨d, post, rfl⟩ := List.exists_cons_of_ne_nil hpost
  refine headMatch_eq_none_of_run (hr _ _ fun hhead => hs ?_)
  rw [List.cons_append, List.head?_cons] at hhead
  rw [heq, ← Option.some.inj hhead]
  simp

theorem tokens_eq_map_of_no_match {r : Regex} {start : Bool} {s : Str}
    (hnone : ∀ pre post, s = pre ++ post → post ≠ [] →
      r.headMatch (start && pre.isEmpty) post = none) :
    r.tokens start 0 s = s.map .inl := by
  have htokens : r.tokens start 0 (s ++ []) =
      s.map .inl ++ r.tokens (start && s.isEmpty) 0 [] :=
    tokens_append_of_no_match (by simpa using hnone)
  simpa [tokens] using htokens

/-- A scan without matches finds no match at any position. -/
theorem no_match_of_tokens {r : Regex} {start : Bool} {s : Str}
    (hall : ∀ m, Sum.inr m ∉ r.tokens start 0 s) {pre post : Str} (heq : s = pre ++ post) :
    r.headMatch (start && pre.isEmpty) post = none := by
  induction pre generalizing start s with
  | nil =>
      rw [List.nil_append] at heq
      subst heq
      simp only [List.isEmpty_nil, Bool.and_true]
      cases hmatch : r.headMatch start s with
      | none => rfl
      | some m =>
          obtain ⟨-, rest, -, htext⟩ := headMatch_eq_some hmatch
          rw [htext] at hmatch hall
          exact absurd (by simp [tokens_of_match hmatch]) (hall m)
  | cons c pre ih =>
      subst heq
      rw [List.cons_append] at hall
      have hhead : r.headMatch start (c :: (pre ++ post)) = none := by
        cases hmatch : r.headMatch start (c :: (pre ++ post)) with
        | none => rfl
        | some m =>
            obtain ⟨-, rest, -, htext⟩ := headMatch_eq_some hmatch
            rw [htext] at hmatch hall
            exact absurd (by simp [tokens_of_match hmatch]) (hall m)
      rw [tokens_of_no_match hhead] at hall
      have htail : r.headMatch (false && pre.isEmpty) post = none :=
        ih (fun m hm => hall m (List.mem_cons_of_mem _ hm)) rfl
      simpa using htail

end Regex

/-! ## Single characters and words -/

theorem tokens_cls (p : Char → Bool) (start : Bool) (s : Str) :
    (Regex.cls p).tokens start 0 s =
      s.map fun c => if p c then .inr ⟨[c], []⟩ else .inl c := by
  induction s generalizing start with
  | nil => rfl
  | cons c s ih =>
      by_cases hc : p c = true
      · have hmatch : (Regex.cls p).headMatch start (c :: s) = some ⟨[c], []⟩ := by
          simp [Regex.headMatch, Regex.run, hc, Option.filter]
        simp [Regex.tokens, hmatch, hc, ih]
      · have hmatch : (Regex.cls p).headMatch start (c :: s) = none := by
          simp [Regex.headMatch, Regex.run, hc]
        simp [Regex.tokens, hmatch, hc, ih]

theorem pregReplace_cls (p : Char → Bool) (rep s : Str) :
    pregReplace (.cls p) rep s = s.flatMap fun c => if p c then rep else [c] := by
  rw [pregReplace, replaceTokens, Regex.scan, tokens_cls, List.flatMap_map]
  congr 1
  funext c
  split <;> rfl

theorem pregSplit_cls (p : Char → Bool) (s : Str) : pregSplit (.cls p) s = s.splitOnP p := by
  rw [pregSplit, Regex.scan, tokens_cls]
  induction s with
  | nil => rfl
  | cons c s ih =>
      rw [List.map_cons, List.splitOnP_cons_eq_if_modifyHead, ← ih]
      split <;> rfl

/-- No part of a split has a separator. -/
theorem not_of_mem_splitOnP {p : Char → Bool} {s part : Str} (hpart : part ∈ s.splitOnP p)
    {c : Char} (hc : c ∈ part) : p c = false := by
  induction s generalizing part with
  | nil =>
      rw [List.splitOnP_nil, List.mem_singleton] at hpart
      simp [hpart] at hc
  | cons d s ih =>
      rw [List.splitOnP_cons_eq_if_modifyHead] at hpart
      split at hpart
      next =>
        rcases List.mem_cons.mp hpart with rfl | hpart
        · simp at hc
        · exact ih hpart hc
      next hd =>
        cases hsplit : s.splitOnP p with
        | nil => simp [hsplit] at hpart
        | cons head tail =>
            rw [hsplit, List.modifyHead_cons, List.mem_cons] at hpart
            rw [hsplit] at ih
            rcases hpart with rfl | hpart
            · rcases List.mem_cons.mp hc with rfl | hc
              · simpa using hd
              · exact ih List.mem_cons_self hc
            · exact ih (List.mem_cons_of_mem head hpart) hc

theorem headMatch_lit_eq_some {word : Str} (hword : word ≠ []) (start : Bool) (rest : Str) :
    (Regex.lit word).headMatch start (word ++ rest) = some ⟨word, []⟩ :=
  Regex.headMatch_of_head? (Regex.head?_run_lit word start rest) hword

theorem headMatch_lit_eq_none {word : Str} (start : Bool) {s : Str} (hstarts : ¬ word <+: s) :
    (Regex.lit word).headMatch start s = none := by
  simp [Regex.headMatch, Regex.run, hstarts]

theorem pregTest_eq_false_iff (r : Regex) (s : Str) :
    pregTest r s = false ↔ ∀ m, Sum.inr m ∉ r.scan s := by
  rw [pregTest, pregMatch, Option.isSome_eq_false_iff, Option.isNone_iff_eq_none,
    List.head?_eq_none_iff, pregMatchAll, List.filterMap_eq_nil_iff]
  constructor
  · intro hall m hm
    simpa using hall _ hm
  · intro hall token htoken
    cases token with
    | inl c => rfl
    | inr m => exact absurd htoken (hall m)

/-- A word is found exactly when it occurs. -/
theorem pregTest_lit {word : Str} (hword : word ≠ []) (s : Str) :
    pregTest (.lit word) s = true ↔ word <:+: s := by
  rw [← Bool.not_eq_false, not_iff_comm, pregTest_eq_false_iff]
  constructor
  · intro hnot m hm
    rw [Regex.scan, Regex.tokens_eq_map_of_no_match] at hm
    · simp at hm
    · intro pre post heq _
      apply headMatch_lit_eq_none
      rintro ⟨rest, rfl⟩
      exact hnot ⟨pre, rest, by simp [heq]⟩
  · rintro hall ⟨pre, rest, rfl⟩
    have hsplit : pre ++ word ++ rest = pre ++ (word ++ rest) := List.append_assoc _ _ _
    have hnone := Regex.no_match_of_tokens hall hsplit
    rw [headMatch_lit_eq_some hword] at hnone
    contradiction

/-! ## Anchored patterns -/

theorem run_bol_seq (r : Regex) (s : Str) : (Regex.seq .bol r).run true s = r.run true s := by
  simp [Regex.run, Match.append]

theorem headMatch_bol_of_false (r : Regex) (s : Str) :
    (Regex.seq .bol r).headMatch false s = none :=
  Regex.headMatch_eq_none_of_run (by simp [Regex.run])

theorem headMatch_bol (r : Regex) (s : Str) :
    (Regex.seq .bol r).headMatch true s = r.headMatch true s := by
  rw [Regex.headMatch, run_bol_seq, Regex.headMatch]

/-- Past the start of the subject an anchored pattern matches nowhere. -/
theorem tokens_bol_of_false (r : Regex) (s : Str) :
    (Regex.seq .bol r).tokens false 0 s = s.map .inl :=
  Regex.tokens_eq_map_of_no_match fun _ post _ _ => headMatch_bol_of_false r post

theorem scan_bol_of_match {r : Regex} {m : Match} {rest : Str}
    (hmatch : r.headMatch true (m.text ++ rest) = some m) :
    (Regex.seq .bol r).scan (m.text ++ rest) = .inr m :: rest.map .inl := by
  rw [Regex.scan, Regex.tokens_of_match ((headMatch_bol r _).trans hmatch), tokens_bol_of_false]

theorem scan_bol_of_no_match {r : Regex} {s : Str} (hmatch : r.headMatch true s = none) :
    (Regex.seq .bol r).scan s = s.map .inl := by
  refine Regex.tokens_eq_map_of_no_match fun pre post heq _ => ?_
  cases pre with
  | nil =>
      rw [List.nil_append] at heq
      subst heq
      exact (headMatch_bol r s).trans hmatch
  | cons c pre => exact headMatch_bol_of_false r post

theorem pregMatch_bol (r : Regex) (s : Str) :
    pregMatch (.seq .bol r) s = r.headMatch true s := by
  rw [pregMatch, pregMatchAll]
  cases hmatch : r.headMatch true s with
  | none => simp [scan_bol_of_no_match hmatch]
  | some m =>
      obtain ⟨-, rest, -, rfl⟩ := Regex.headMatch_eq_some hmatch
      simp [scan_bol_of_match hmatch]

theorem pregReplace_bol_of_match {r : Regex} {m : Match} {rest : Str} (rep : Str)
    (hmatch : r.headMatch true (m.text ++ rest) = some m) :
    pregReplace (.seq .bol r) rep (m.text ++ rest) = rep ++ rest := by
  simp [pregReplace, replaceTokens, scan_bol_of_match hmatch, List.flatMap_map]

theorem pregReplace_bol_of_no_match {r : Regex} {s : Str} (rep : Str)
    (hmatch : r.headMatch true s = none) : pregReplace (.seq .bol r) rep s = s := by
  simp [pregReplace, replaceTokens, scan_bol_of_no_match hmatch, List.flatMap_map]

/-- An anchored word is found exactly when the text starts with it. -/
theorem pregTest_bol_lit {word : Str} (hword : word ≠ []) (s : Str) :
    pregTest (.seq .bol (.lit word)) s = true ↔ word <+: s := by
  rw [pregTest, pregMatch_bol]
  constructor
  · intro hsome
    by_contra hstarts
    simp [headMatch_lit_eq_none true hstarts] at hsome
  · rintro ⟨rest, rfl⟩
    simp [headMatch_lit_eq_some hword]

theorem pregReplace_bol_lit {word : Str} (hword : word ≠ []) (rep rest : Str) :
    pregReplace (.seq .bol (.lit word)) rep (word ++ rest) = rep ++ rest :=
  pregReplace_bol_of_match (m := ⟨word, []⟩) rep (headMatch_lit_eq_some hword true rest)

theorem pregReplace_bol_lit_of_not_starts {word s : Str} (rep : Str) (hstarts : ¬ word <+: s) :
    pregReplace (.seq .bol (.lit word)) rep s = s :=
  pregReplace_bol_of_no_match rep (headMatch_lit_eq_none true hstarts)

end Foundation
