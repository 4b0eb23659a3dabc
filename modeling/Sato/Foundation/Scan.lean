import Sato.Foundation.Regex

/-! # Where a scan finds its matches

A scan tells where no match starts, and a text with one match is split or
rewritten there. A character that no match can hold cuts a scan in two.
-/

namespace Foundation

namespace Regex

/-! ## Reading a scan back -/

/-- A scan that begins with unmatched characters: the text begins with them, no
match starts among them, and the rest is scanned afresh. -/
theorem tokens_eq_map_append {r : Regex} {start : Bool} {s pre : Str}
    {rest : List (Char ⊕ Match)} (hscan : r.tokens start 0 s = pre.map .inl ++ rest) :
    ∃ t, s = pre ++ t ∧ r.tokens (start && pre.isEmpty) 0 t = rest ∧
      ∀ p q, pre = p ++ q → q ≠ [] → r.headMatch (start && p.isEmpty) (q ++ t) = none := by
  induction pre generalizing start s with
  | nil =>
      refine ⟨s, rfl, by simpa using hscan, fun p q heq hq => ?_⟩
      exact absurd (List.append_eq_nil_iff.mp heq.symm).2 hq
  | cons c pre ih =>
      cases s with
      | nil => simp [tokens] at hscan
      | cons d s =>
          cases hmatch : r.headMatch start (d :: s) with
          | some m => simp [tokens, hmatch] at hscan
          | none =>
              rw [tokens_of_no_match hmatch, List.map_cons, List.cons_append] at hscan
              obtain ⟨hchar, htail⟩ := List.cons.inj hscan
              obtain rfl : d = c := Sum.inl.inj hchar
              obtain ⟨t, rfl, hrest, hnone⟩ := ih htail
              refine ⟨t, rfl, by simpa using hrest, fun p q heq hq => ?_⟩
              cases p with
              | nil =>
                  rw [List.nil_append] at heq
                  subst heq
                  simpa using hmatch
              | cons e p =>
                  rw [List.cons_append] at heq
                  simpa using hnone p q (List.cons.inj heq).2 hq

theorem tokens_eq_cons_inr {r : Regex} {start : Bool} {s : Str} {m : Match}
    {rest : List (Char ⊕ Match)} (hscan : r.tokens start 0 s = .inr m :: rest) :
    ∃ t, s = m.text ++ t ∧ r.headMatch start s = some m ∧ r.tokens false 0 t = rest := by
  cases s with
  | nil => simp [tokens] at hscan
  | cons c s =>
      cases hmatch : r.headMatch start (c :: s) with
      | none => simp [tokens, hmatch] at hscan
      | some n =>
          obtain ⟨-, t, -, htext⟩ := headMatch_eq_some hmatch
          rw [htext] at hmatch hscan ⊢
          rw [tokens_of_match hmatch] at hscan
          obtain ⟨hn, hrest⟩ := List.cons.inj hscan
          obtain rfl := Sum.inr.inj hn
          exact ⟨t, rfl, rfl, hrest⟩

/-- A pattern whose matches begin with a character of a class finds nothing in a
text without them. -/
theorem tokens_append_of_head {r : Regex} {p : Char → Bool}
    (hr : ∀ start c s, p c = false → r.headMatch start (c :: s) = none) {s : Str}
    (hs : ∀ c ∈ s, p c = false) (start : Bool) (t : Str) :
    r.tokens start 0 (s ++ t) = s.map .inl ++ r.tokens (start && s.isEmpty) 0 t := by
  refine tokens_append_of_no_match fun pre post heq hpost => ?_
  obtain ⟨c, post, rfl⟩ := List.exists_cons_of_ne_nil hpost
  exact hr _ c (post ++ t) (hs c (by simp [heq]))

theorem headMatch_of_inr_mem_tokens {r : Regex} {start : Bool} {s : Str} {m : Match}
    (hm : Sum.inr m ∈ r.tokens start 0 s) : ∃ b t, r.headMatch b t = some m := by
  induction start, s using r.tokens_induction with
  | nil start => simp [tokens] at hm
  | unmatched start d s hmatch ih =>
      rw [tokens_of_no_match hmatch] at hm
      exact ih (List.mem_of_ne_of_mem Sum.inr_ne_inl hm)
  | matched start n rest _ hmatch ih =>
      rw [tokens_of_match hmatch] at hm
      rcases List.mem_cons.mp hm with heq | hm
      · exact ⟨start, n.text ++ rest, Sum.inr.inj heq ▸ hmatch⟩
      · exact ih hm

/-- A text with one match. -/
theorem tokens_once {r : Regex} {start : Bool} {pre post : Str} {m : Match}
    (hpre : ∀ p q, pre = p ++ q → q ≠ [] →
      r.headMatch (start && p.isEmpty) (q ++ (m.text ++ post)) = none)
    (hmatch : r.headMatch (start && pre.isEmpty) (m.text ++ post) = some m)
    (hpost : ∀ p q, post = p ++ q → q ≠ [] → r.headMatch false q = none) :
    r.tokens start 0 (pre ++ (m.text ++ post)) = pre.map .inl ++ .inr m :: post.map .inl := by
  rw [tokens_append_of_no_match hpre, tokens_of_match hmatch]
  rw [tokens_eq_map_of_no_match (by simpa using hpost)]

end Regex

/-! ## Giving back -/

/-- A run of a class ends inside a text that has a character outside it. -/
theorem exists_cons_of_run {p : Char → Bool} {run left s rest : Str}
    (hrun : ∀ c ∈ run, p c = true) (hs : ∃ c ∈ s, p c = false)
    (hsplit : run ++ left = s ++ rest) : ∃ c t, left = c :: t ∧ c ∈ s := by
  obtain ⟨d, hd, hnot⟩ := hs
  have hnotMem : d ∉ run := by
    intro hmem
    rw [hrun d hmem] at hnot
    contradiction
  rcases List.append_eq_append_iff.mp hsplit with ⟨u, rfl, hleft⟩ | ⟨u, rfl, -⟩
  · cases u with
    | nil => exact absurd (by simpa using hd) hnotMem
    | cons c u => exact ⟨c, u ++ rest, hleft, by simp⟩
  · exact absurd (List.mem_append_left u hd) hnotMem

/-- The splits after a run that passes a character: those further on come first,
then the one at the character. -/
theorem greedy_append_cons_of_all {p : Char → Bool} {s : Str} {c : Char}
    (hs : ∀ d ∈ s, p d = true) (hc : p c = true) (t : Str) :
    ∃ later, greedy p (s ++ c :: t) =
      (greedy p t).map (fun split => (s ++ c :: split.1, split.2)) ++ (s, c :: t) :: later := by
  induction s with
  | nil => exact ⟨[], by simp [greedy, hc]⟩
  | cons d s ih =>
      obtain ⟨later, hlater⟩ := ih fun e he => hs e (List.mem_cons_of_mem d he)
      refine ⟨later.map (fun split => (d :: split.1, split.2)) ++ [([], d :: (s ++ c :: t))], ?_⟩
      rw [List.cons_append, greedy, if_pos (hs d List.mem_cons_self), hlater]
      simp

namespace Regex

variable {p : Char → Bool} {second : Regex} {start : Bool} {s t rest : Str} {c : Char} {m : Match}

/-- A run gives characters back up to the last place where the rest matches. -/
theorem head?_run_greedy_seq {first : Regex} {g : Str → List Str}
    (hfirst : ∀ text, first.run start text =
      (greedy p text).map fun split => (⟨split.1, g split.1⟩, split.2))
    (hs : ∀ d ∈ s, p d = true) (hc : p c = true)
    (hfail : ∀ b, ∀ split ∈ greedy p t, second.run b split.2 = [])
    (hsecond : (second.run (start && s.isEmpty) (c :: t)).head? = some (m, rest)) :
    ((seq first second).run start (s ++ c :: t)).head? =
      some (⟨s ++ m.text, g s ++ m.groups⟩, rest) := by
  obtain ⟨later, hlater⟩ := greedy_append_cons_of_all hs hc t
  obtain ⟨more, hmore⟩ := List.head?_eq_some_iff.mp hsecond
  have hnil : ((greedy p t).flatMap fun split =>
      (second.run (start && List.isEmpty (s ++ c :: split.1)) split.2).map fun next =>
        ((⟨s ++ c :: split.1, g (s ++ c :: split.1)⟩ : Match).append next.1, next.2)) = [] := by
    rw [List.flatMap_eq_nil_iff]
    intro split hsplit
    rw [hfail _ split hsplit, List.map_nil]
  rw [run, hfirst, hlater, List.map_append, List.flatMap_append, List.map_map, List.flatMap_map]
  simp only [Function.comp_apply]
  rw [hnil, List.nil_append, List.map_cons, List.flatMap_cons, hmore]
  rfl

theorem head?_run_star_seq (hs : ∀ d ∈ s, p d = true) (hc : p c = true)
    (hfail : ∀ b, ∀ split ∈ greedy p t, second.run b split.2 = [])
    (hsecond : (second.run (start && s.isEmpty) (c :: t)).head? = some (m, rest)) :
    ((seq (star p) second).run start (s ++ c :: t)).head? =
      some (⟨s ++ m.text, m.groups⟩, rest) :=
  head?_run_greedy_seq (g := fun _ => []) (fun _ => rfl) hs hc hfail hsecond

theorem head?_run_group_star_seq (hs : ∀ d ∈ s, p d = true) (hc : p c = true)
    (hfail : ∀ b, ∀ split ∈ greedy p t, second.run b split.2 = [])
    (hsecond : (second.run (start && s.isEmpty) (c :: t)).head? = some (m, rest)) :
    ((seq (group (star p)) second).run start (s ++ c :: t)).head? =
      some (⟨s ++ m.text, s :: m.groups⟩, rest) :=
  head?_run_greedy_seq (g := fun text => [text]) (fun text => by simp [run])
    hs hc hfail hsecond

/-- One character more than a run of the class is read first. -/
theorem run_plus_seq {d : Char} (hd : p d = true) (text : Str) :
    (seq (plus p) second).run start (d :: text) =
      ((seq (star p) second).run false text).map fun found =>
        (⟨d :: found.1.text, found.1.groups⟩, found.2) := by
  simp only [plus, run, hd, if_true, List.flatMap_cons, List.flatMap_nil, List.append_nil,
    List.map_map, List.flatMap_map, List.map_flatMap]
  congr 1
  ext1 split
  simp [Function.comp_def, Match.append]

theorem head?_run_plus_seq (hne : s ≠ []) (hs : ∀ d ∈ s, p d = true) (hc : p c = true)
    (hfail : ∀ b, ∀ split ∈ greedy p t, second.run b split.2 = [])
    (hsecond : (second.run false (c :: t)).head? = some (m, rest)) :
    ((seq (plus p) second).run start (s ++ c :: t)).head? =
      some (⟨s ++ m.text, m.groups⟩, rest) := by
  obtain ⟨d, s, rfl⟩ := List.exists_cons_of_ne_nil hne
  rw [List.cons_append, run_plus_seq (hs d List.mem_cons_self), List.head?_map,
    head?_run_star_seq (fun e he => hs e (List.mem_cons_of_mem d he)) hc hfail
      (by simpa using hsecond)]
  rfl

theorem mem_run_cls {found : Match × Str} (hmem : found ∈ (cls p).run start s) :
    ∃ c, found.1.text = [c] ∧ p c = true := by
  cases s with
  | nil => simp [run] at hmem
  | cons c s =>
      unfold run at hmem
      split at hmem
      next hc => exact ⟨c, by rw [List.mem_singleton.mp hmem], hc⟩
      next => simp at hmem

theorem mem_run_star {found : Match × Str} (hmem : found ∈ (star p).run start s) :
    ∀ c ∈ found.1.text, p c = true := by
  obtain ⟨split, hsplit, rfl⟩ := List.mem_map.mp hmem
  exact (greedy_append hsplit).2

theorem mem_run_seq {first : Regex} {found : Match × Str} :
    found ∈ (seq first second).run start s ↔
      ∃ left ∈ first.run start s, ∃ right ∈ second.run (start && left.1.text.isEmpty) left.2,
        found = (left.1.append right.1, right.2) := by
  simp only [run, List.mem_flatMap, List.mem_map, eq_comm]

end Regex

theorem mem_pregMatchAll {r : Regex} {s : Str} {m : Match} (hm : m ∈ pregMatchAll r s) :
    ∃ start t rest, (m, rest) ∈ r.run start t := by
  obtain ⟨token, htoken, hright⟩ := List.mem_filterMap.mp hm
  cases token with
  | inl c => simp at hright
  | inr n =>
      obtain rfl : n = m := by simpa using hright
      obtain ⟨b, t, hmatch⟩ := Regex.headMatch_of_inr_mem_tokens htoken
      obtain ⟨-, rest, hhead, -⟩ := Regex.headMatch_eq_some hmatch
      exact ⟨b, t, rest, List.mem_of_head? hhead⟩

/-! ## Texts read in one way -/

/-- The pattern reads the word and leaves the rest, whatever it gives back later. -/
def Regex.Reads (r : Regex) (word rest : Str) : Prop :=
  ∀ start, (r.run start (word ++ rest)).head? = some (⟨word, []⟩, rest)

/-- A pattern that consumes a character before it asks for the start of the
subject is not anchored. -/
theorem Regex.headMatch_seq_start {first : Regex} (second : Regex)
    (hrun : ∀ start s, first.run start s = first.run false s)
    (hne : ∀ start s, ∀ found ∈ first.run start s, found.1.text ≠ []) (start : Bool) (s : Str) :
    (Regex.seq first second).headMatch start s = (Regex.seq first second).headMatch false s := by
  have hseq : (Regex.seq first second).run start s = (Regex.seq first second).run false s := by
    rw [Regex.run, Regex.run, hrun start]
    refine List.flatMap_congr fun found hfound => ?_
    have hempty : found.1.text.isEmpty = false :=
      List.isEmpty_eq_false_iff.mpr (hne false s found hfound)
    rw [hempty, Bool.and_false, Bool.and_false]
  rw [Regex.headMatch, hseq, Regex.headMatch]

theorem Regex.headMatch_cls_seq_start (p : Char → Bool) (second : Regex) (start : Bool)
    (s : Str) : (Regex.seq (.cls p) second).headMatch start s =
      (Regex.seq (.cls p) second).headMatch false s := by
  refine Regex.headMatch_seq_start second (fun _ s => ?_) (fun _ _ found hfound => ?_) start s
  · cases s <;> rfl
  · obtain ⟨c, hc, -⟩ := Regex.mem_run_cls hfound
    simp [hc]

theorem Regex.headMatch_lit_seq_start {word : Str} (hword : word ≠ []) (second : Regex)
    (start : Bool) (s : Str) : (Regex.seq (.lit word) second).headMatch start s =
      (Regex.seq (.lit word) second).headMatch false s := by
  refine Regex.headMatch_seq_start second (fun _ _ => rfl) (fun _ _ found hfound => ?_) start s
  unfold Regex.run at hfound
  split at hfound
  · rw [List.mem_singleton.mp hfound]
    exact hword
  · simp at hfound

namespace Regex.Reads

variable {p : Char → Bool} {word rest : Str}

theorem seq {first second : Regex} {later : Str} (hfirst : first.Reads word (later ++ rest))
    (hsecond : second.Reads later rest) : (Regex.seq first second).Reads (word ++ later) rest := by
  intro start
  rw [List.append_assoc]
  exact Regex.head?_run_seq (hfirst start) (hsecond _)

theorem cls {c : Char} (hc : p c = true) : (Regex.cls p).Reads [c] rest :=
  fun start => Regex.head?_run_cls start hc rest

theorem star (hword : ∀ c ∈ word, p c = true) (hrest : ∀ c ∈ rest.head?, p c = false) :
    (Regex.star p).Reads word rest := by
  intro start
  rw [Regex.head?_run_star, takeWhile_append_of_head hword hrest,
    dropWhile_append_of_head hword hrest]

theorem plus (hne : word ≠ []) (hword : ∀ c ∈ word, p c = true)
    (hrest : ∀ c ∈ rest.head?, p c = false) : (Regex.plus p).Reads word rest :=
  fun start => Regex.head?_run_plus_append start hne hword hrest

/-- An optional character is read where it stands. -/
theorem opt {c : Char} (hc : p c = true) : (Regex.opt p).Reads [c] rest := by
  intro start
  simp [Regex.run, hc]

theorem opt_nil (hrest : ∀ c ∈ rest.head?, p c = false) : (Regex.opt p).Reads [] rest := by
  intro start
  cases rest with
  | nil => rfl
  | cons c rest => simp [Regex.run, hrest c (by simp)]

theorem headMatch {r : Regex} (h : r.Reads word rest) (hne : word ≠ []) (start : Bool) :
    r.headMatch start (word ++ rest) = some ⟨word, []⟩ :=
  Regex.headMatch_of_head? (h start) hne

end Regex.Reads

/-! ## Splits -/

theorem splitTokens_ne_nil (ts : List (Char ⊕ Match)) : splitTokens ts ≠ [] := by
  induction ts with
  | nil => simp [splitTokens]
  | cons token ts ih =>
      cases token with
      | inl c =>
          obtain ⟨head, tail, heq⟩ := List.exists_cons_of_ne_nil ih
          simp [splitTokens, heq]
      | inr m => simp [splitTokens]

theorem splitTokens_map_append (part : Str) (ts : List (Char ⊕ Match)) :
    splitTokens (part.map .inl ++ ts) = (splitTokens ts).modifyHead (part ++ ·) := by
  induction part with
  | nil => cases h : splitTokens ts <;> simp [h]
  | cons c part ih =>
      rw [List.map_cons, List.cons_append, splitTokens, ih]
      cases splitTokens ts <;> simp

theorem splitTokens_once (left right : Str) (m : Match) :
    splitTokens (left.map .inl ++ .inr m :: right.map .inl) = [left, right] := by
  have hright : splitTokens (right.map Sum.inl ++ []) = [right] := by
    rw [splitTokens_map_append]
    simp [splitTokens]
  rw [splitTokens_map_append, splitTokens, ← List.append_nil (right.map _), hright]
  simp

/-- The first part of a split is followed by a match or by the end. -/
theorem splitTokens_eq_cons {ts : List (Char ⊕ Match)} {part : Str} {parts : List Str}
    (hsplit : splitTokens ts = part :: parts) :
    (parts = [] ∧ ts = part.map .inl) ∨
      ∃ m later, ts = part.map .inl ++ .inr m :: later ∧ splitTokens later = parts := by
  induction ts generalizing part with
  | nil =>
      obtain ⟨rfl, rfl⟩ := List.cons.inj hsplit
      exact Or.inl ⟨rfl, rfl⟩
  | cons token ts ih =>
      cases token with
      | inl c =>
          rw [splitTokens] at hsplit
          cases htail : splitTokens ts with
          | nil => simp [htail] at hsplit
          | cons head tail =>
              rw [htail, List.modifyHead_cons] at hsplit
              obtain ⟨rfl, rfl⟩ := List.cons.inj hsplit
              rcases ih htail with ⟨hnil, rfl⟩ | ⟨m, later, rfl, hlater⟩
              · exact Or.inl ⟨hnil, rfl⟩
              · exact Or.inr ⟨m, later, rfl, hlater⟩
      | inr m =>
          obtain ⟨rfl, hlater⟩ := List.cons.inj hsplit
          exact Or.inr ⟨m, ts, rfl, hlater⟩

/-- A split in two parts has one match. -/
theorem splitTokens_eq_pair {ts : List (Char ⊕ Match)} {left right : Str}
    (hsplit : splitTokens ts = [left, right]) :
    ∃ m, ts = left.map .inl ++ .inr m :: right.map .inl := by
  rcases splitTokens_eq_cons hsplit with ⟨hnil, -⟩ | ⟨m, later, rfl, hlater⟩
  · simp at hnil
  · rcases splitTokens_eq_cons hlater with ⟨-, rfl⟩ | ⟨n, rest, -, hrest⟩
    · exact ⟨m, rfl⟩
    · exact absurd hrest (splitTokens_ne_nil rest)

/-! ## Replacements -/

theorem mem_of_mem_replaceTokens {r : Regex} {start : Bool} {s : Str} {c : Char}
    (hc : c ∈ replaceTokens [] (r.tokens start 0 s)) : c ∈ s := by
  obtain ⟨token, htoken, hmem⟩ := List.mem_flatMap.mp hc
  cases token with
  | inl d =>
      obtain rfl : c = d := by simpa using hmem
      rw [← Regex.tokens_text r start s]
      exact List.mem_flatMap.mpr ⟨_, htoken, List.mem_singleton.mpr rfl⟩
  | inr m => simp at hmem

theorem replaceTokens_append (rep : Str) (ts us : List (Char ⊕ Match)) :
    replaceTokens rep (ts ++ us) = replaceTokens rep ts ++ replaceTokens rep us :=
  List.flatMap_append

theorem replaceTokens_map (rep s : Str) : replaceTokens rep (s.map .inl) = s := by
  simp [replaceTokens, List.flatMap_map]

section Head

variable {r : Regex} {p : Char → Bool}
  (hhead : ∀ start c s, p c = false → r.headMatch start (c :: s) = none)
  (hstart : ∀ start s, r.headMatch start s = r.headMatch false s)

include hstart in
theorem Regex.tokens_of_start (start : Bool) (skip : ℕ) (s : Str) :
    r.tokens start skip s = r.tokens false skip s := by
  cases s with
  | nil => rfl
  | cons c s =>
      cases skip with
      | zero => rw [Regex.tokens, Regex.tokens, hstart]
      | succ skip => rfl

include hhead hstart

/-- A pattern that is not anchored leaves a text alone in which no match starts. -/
theorem pregReplace_append_of_head (rep : Str) {s : Str} (hs : ∀ c ∈ s, p c = false) (t : Str) :
    pregReplace r rep (s ++ t) = s ++ pregReplace r rep t := by
  rw [pregReplace, Regex.scan, Regex.tokens_append_of_head hhead hs, replaceTokens_append,
    replaceTokens_map, Regex.tokens_of_start hstart, pregReplace, Regex.scan,
    Regex.tokens_of_start hstart true]

theorem pregTest_append_of_head {s : Str} (hs : ∀ c ∈ s, p c = false) (t : Str) :
    pregTest r (s ++ t) = pregTest r t := by
  rw [pregTest, pregMatch, pregMatchAll, Regex.scan, Regex.tokens_append_of_head hhead hs,
    List.filterMap_append, filterMap_inl, List.nil_append, Regex.tokens_of_start hstart,
    pregTest, pregMatch, pregMatchAll, Regex.scan, Regex.tokens_of_start hstart true]

end Head

section Word

variable {c : Char} {word : Str}

theorem run_lit_eq_nil (start : Bool) {s : Str} (hs : s.head? ≠ some c) :
    (Regex.lit (c :: word)).run start s = [] := by
  cases s with
  | nil => rfl
  | cons d s =>
      have hne : (c == d) = false := by
        rw [beq_eq_false_iff_ne]
        rintro rfl
        simp at hs
      simp [Regex.run, List.isPrefixOf, hne]

theorem headMatch_lit (start : Bool) (s : Str) :
    (Regex.lit (c :: word)).headMatch start s =
      if (c :: word).isPrefixOf s then some ⟨c :: word, []⟩ else none := by
  split
  next hstarts => simp [Regex.headMatch, Regex.run, hstarts, Option.filter]
  next hstarts => simp [Regex.headMatch, Regex.run, hstarts]

theorem headMatch_lit_of_ne (start : Bool) (d : Char) (s : Str) (hd : (d == c) = false) :
    (Regex.lit (c :: word)).headMatch start (d :: s) = none := by
  apply Regex.headMatch_eq_none_of_run
  apply run_lit_eq_nil
  rw [List.head?_cons, Ne, Option.some.injEq]
  exact beq_eq_false_iff_ne.mp hd

theorem pregReplace_lit_append (rep : Str) {s : Str} (hs : c ∉ s) (t : Str) :
    pregReplace (.lit (c :: word)) rep (s ++ t) = s ++ pregReplace (.lit (c :: word)) rep t := by
  refine pregReplace_append_of_head headMatch_lit_of_ne (fun _ _ => ?_) rep (fun d hd => ?_) t
  · rw [headMatch_lit, headMatch_lit]
  · rw [beq_eq_false_iff_ne]
    rintro rfl
    exact hs hd

theorem pregTest_lit_append {s : Str} (hs : c ∉ s) (t : Str) :
    pregTest (.lit (c :: word)) (s ++ t) = pregTest (.lit (c :: word)) t := by
  refine pregTest_append_of_head headMatch_lit_of_ne (fun _ _ => ?_) (fun d hd => ?_) t
  · rw [headMatch_lit, headMatch_lit]
  · rw [beq_eq_false_iff_ne]
    rintro rfl
    exact hs hd

theorem headMatch_alt_lit (r : Regex) (start : Bool) (s : Str) :
    (Regex.alt (.lit (c :: word)) r).headMatch start s =
      if (c :: word).isPrefixOf s then some ⟨c :: word, []⟩ else r.headMatch start s := by
  split
  next hstarts => simp [Regex.headMatch, Regex.run, hstarts, Option.filter]
  next hstarts => simp [Regex.headMatch, Regex.run, hstarts]

/-- A word whose first character occurs once is found there. -/
theorem scan_lit_once {pre post : Str} (hpre : c ∉ pre) (hpost : c ∉ post) :
    (Regex.lit (c :: word)).scan (pre ++ (c :: word ++ post)) =
      pre.map .inl ++ .inr ⟨c :: word, []⟩ :: post.map .inl := by
  have hmatch := fun start => headMatch_lit_eq_some (List.cons_ne_nil c word) start post
  have hpost : (Regex.lit (c :: word)).tokens false 0 (post ++ []) = post.map .inl ++ [] :=
    Regex.tokens_append_of_notMem (fun start _ => run_lit_eq_nil start) hpost false []
  rw [List.append_nil, List.append_nil] at hpost
  rw [Regex.scan, Regex.tokens_append_of_notMem (fun start _ => run_lit_eq_nil start) hpre]
  rw [Regex.tokens_of_match (m := ⟨c :: word, []⟩) (hmatch _), hpost]

theorem pregSplit_lit_once {left right : Str} (hleft : c ∉ left) (hright : c ∉ right) :
    pregSplit (.lit (c :: word)) (left ++ (c :: word ++ right)) = [left, right] := by
  rw [pregSplit, scan_lit_once hleft hright, splitTokens_once]

end Word

/-! ## Barriers -/

namespace Regex

/-- The pattern is not anchored and no match of it can hold the character. -/
def Avoids (c : Char) : Regex → Prop
  | .lit word => c ∉ word
  | .cls p => p c = false
  | .star p => p c = false
  | .opt p => p c = false
  | .seq first second => first.Avoids c ∧ second.Avoids c
  | .alt first second => first.Avoids c ∧ second.Avoids c
  | .group body => body.Avoids c
  | .bol => False
  | .eol => False

/-- The matches at the head of a text are not affected by what follows the
character. -/
def Barrier (r : Regex) (c : Char) : Prop :=
  ∀ start s t, s ≠ [] →
    r.run start (s ++ c :: t) =
      (r.run start s).map fun found => (found.1, found.2 ++ c :: t)

end Regex

theorem isPrefixOf_append_cons {word : Str} {c : Char} (hword : c ∉ word) (s t : Str) :
    word.isPrefixOf (s ++ c :: t) = word.isPrefixOf s := by
  induction word generalizing s with
  | nil => simp
  | cons d word ih =>
      rw [List.mem_cons, not_or] at hword
      cases s with
      | nil => simp [List.isPrefixOf, Ne.symm hword.1]
      | cons e s => simp [List.isPrefixOf, ih hword.2]

theorem greedy_append_cons {p : Char → Bool} {c : Char} (hc : p c = false) (s t : Str) :
    greedy p (s ++ c :: t) =
      (greedy p s).map fun split => (split.1, split.2 ++ c :: t) := by
  induction s with
  | nil => simp [greedy, hc]
  | cons d s ih =>
      rw [List.cons_append, greedy, greedy]
      split
      · simp [ih]
      · simp

namespace Regex

theorem Avoids.run_append {r : Regex} {c : Char} (h : r.Avoids c) (start start' : Bool)
    (s t : Str) :
    r.run start (s ++ c :: t) =
      (r.run start' s).map fun found => (found.1, found.2 ++ c :: t) := by
  induction r generalizing start start' s with
  | lit word =>
      unfold run
      rw [isPrefixOf_append_cons h]
      split
      next hstarts =>
        have hlen := (List.isPrefixOf_iff_prefix.mp hstarts).length_le
        simp [List.drop_append_of_le_length hlen]
      next => rfl
  | cls p =>
      have hp : p c = false := h
      cases s with
      | nil => simp [run, hp]
      | cons d s =>
          rw [List.cons_append, run, run]
          split <;> rfl
  | star p =>
      rw [run, run, greedy_append_cons h]
      simp
  | opt p =>
      have hp : p c = false := h
      cases s with
      | nil => simp [run, hp]
      | cons d s =>
          rw [List.cons_append, run, run]
          split <;> rfl
  | seq first second ihfirst ihsecond =>
      simp only [run, ihfirst h.1 start start' s, List.flatMap_map, List.map_flatMap,
        List.map_map]
      congr 1
      funext found
      rw [ihsecond h.2 _ (start' && found.1.text.isEmpty) found.2, List.map_map]
      rfl
  | alt first second ihfirst ihsecond =>
      simp only [run, ihfirst h.1 start start' s, ihsecond h.2 start start' s, List.map_append]
  | group body ih =>
      simp only [run, ih h start start' s, List.map_map]
      rfl
  | bol => exact absurd h id
  | eol => exact absurd h id

theorem Avoids.barrier {r : Regex} {c : Char} (h : r.Avoids c) : r.Barrier c :=
  fun start s t _ => h.run_append start start s t

/-- After its own head character a pattern that avoids the character has it as a
barrier. -/
theorem barrier_cons {r : Regex} {c : Char} (h : r.Avoids c) :
    (seq (lit [c]) r).Barrier c := by
  intro start s t hs
  obtain ⟨d, s, rfl⟩ := List.exists_cons_of_ne_nil hs
  by_cases hd : c = d
  · subst hd
    simp only [run, List.cons_append, List.isPrefixOf, beq_self_eq_true, Bool.true_and,
      if_true, List.length_cons, List.length_nil, List.drop_succ_cons, List.drop_zero,
      List.flatMap_cons, List.flatMap_nil, List.append_nil, List.map_map]
    rw [h.run_append _ (start && [c].isEmpty) s t, List.map_map]
    rfl
  · simp [run, List.isPrefixOf, hd]

theorem Barrier.headMatch_append {r : Regex} {c : Char} (h : r.Barrier c) (start : Bool)
    {s : Str} (hs : s ≠ []) (t : Str) :
    r.headMatch start (s ++ c :: t) = r.headMatch start s := by
  rw [headMatch, h start s t hs, headMatch, List.head?_map, Option.map_map]
  rfl

/-- A barrier cuts the scan in two. -/
theorem Barrier.tokens_append {r : Regex} {c : Char} (h : r.Barrier c) (start : Bool)
    (s t : Str) :
    r.tokens start 0 (s ++ c :: t) =
      r.tokens start 0 s ++ r.tokens (start && s.isEmpty) 0 (c :: t) := by
  induction start, s using r.tokens_induction with
  | nil start => simp [tokens]
  | unmatched start d s hmatch ih =>
      have hlong : r.headMatch start (d :: (s ++ c :: t)) = none :=
        (h.headMatch_append start (List.cons_ne_nil d s) t).trans hmatch
      rw [List.cons_append, tokens_of_no_match hlong, tokens_of_no_match hmatch, ih]
      simp
  | matched start m rest hne hmatch ih =>
      have hlong := h.headMatch_append start (List.append_ne_nil_of_left_ne_nil hne rest) t
      rw [hmatch, List.append_assoc] at hlong
      have hempty : List.isEmpty (m.text ++ rest) = false := by
        rw [List.isEmpty_eq_false_iff]
        exact List.append_ne_nil_of_left_ne_nil hne rest
      rw [List.append_assoc, tokens_of_match hlong, tokens_of_match hmatch, ih, hempty]
      simp

end Regex

end Foundation
