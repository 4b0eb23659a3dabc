import Sato.Dimacs.Decode

/-! # The problem file

The exported text, as the bundled solver reads it and as the search rewrites it:
one more clause line, and a header that counts it.
-/

namespace Sato

open Foundation

/-- The text of a problem with the given rows of numbers. -/
def fileText (n m : ℕ) (rows : List (List ℤ)) : Str :=
  SAT.preamble [] ++ SAT.header n m ++ rows.flatMap SAT.clauseLine

namespace Dimacs

/-! ## Reading -/

theorem parseDigits_natText (n : ℕ) {rest : Str} (hrest : ∀ c ∈ rest.head?, isDigit c = false) :
    parseDigits (natText n ++ rest) = some (n, rest) := by
  rw [parseDigits, takeWhile_isDigit_natText n hrest, dropWhile_isDigit_natText n hrest,
    digitsValue_natText, if_neg (by simp)]

/-- The reader finds a written number after white space. -/
theorem parseInt_intText {space : Str} (hspace : ∀ c ∈ space, isSpace c = true) (k : ℤ)
    {rest : Str} (hrest : ∀ c ∈ rest.head?, isDigit c = false) :
    parseInt (space ++ (intText k ++ rest)) = some (k, rest) := by
  have hskip : skipWhitespace (space ++ (intText k ++ rest)) = intText k ++ rest := by
    rw [skipWhitespace, List.dropWhile_append_of_pos hspace]
    obtain ⟨c, s, heq⟩ := List.exists_cons_of_ne_nil (intText_ne_nil k)
    have hc : isSpace c = false := by
      rcases mem_intText (z := k) (c := c) (by simp [heq]) with rfl | hc
      · rfl
      · exact isSpace_of_isDigit hc
    rw [heq, List.cons_append, List.dropWhile_cons_of_neg (by simp [hc])]
  rw [parseInt, hskip]
  cases k with
  | ofNat n =>
      obtain ⟨c, s, heq, hc⟩ := exists_natText_eq_cons n
      have hread := parseDigits_natText n hrest
      have htext : intText (Int.ofNat n) = natText n := rfl
      rw [heq, List.cons_append] at hread
      rw [htext, heq, List.cons_append]
      have hminus : c ≠ '-' := by rintro rfl; simp [isDigit] at hc
      have hplus : c ≠ '+' := by rintro rfl; simp [isDigit] at hc
      split
      next heq => exact absurd (List.cons.inj heq).1 hminus
      next heq => exact absurd (List.cons.inj heq).1 hplus
      next => rw [hread]; rfl
  | negSucc n =>
      change (parseDigits (natText (n + 1) ++ rest)).map _ = _
      rw [parseDigits_natText (n + 1) hrest]
      rfl

theorem readClause_of_zero {fuel : ℕ} {s rest : Str} (hread : parseInt s = some (0, rest)) :
    readClause (fuel + 1) s = some ([], rest) := by
  simp [readClause, hread]

theorem readClause_of_ne_zero {fuel : ℕ} {s middle rest : Str} {k : ℤ} {lits : List ℤ}
    (hread : parseInt s = some (k, middle)) (hk : k ≠ 0)
    (hnext : readClause fuel middle = some (lits, rest)) :
    readClause (fuel + 1) s = some (k :: lits, rest) := by
  simp [readClause, hread, hk, hnext]

/-- The reader finds the numbers of a clause line. -/
theorem readClause_lineText {row : List ℤ} (hrow : ∀ k ∈ row, k ≠ 0) {fuel : ℕ}
    (hfuel : row.length < fuel) {space : Str} (hspace : ∀ c ∈ space, isSpace c = true)
    {rest : Str} (hrest : ∀ c ∈ rest.head?, isDigit c = false) :
    readClause fuel (space ++ (SAT.lineText row ++ rest)) = some (row, rest) := by
  induction row generalizing fuel space with
  | nil =>
      obtain ⟨fuel, rfl⟩ := Nat.exists_eq_succ_of_ne_zero (Nat.ne_of_gt hfuel)
      exact readClause_of_zero (parseInt_intText hspace 0 hrest)
  | cons k row ih =>
      obtain ⟨fuel, rfl⟩ := Nat.exists_eq_succ_of_ne_zero (Nat.ne_of_gt (Nat.zero_lt_of_lt hfuel))
      rw [List.forall_mem_cons] at hrow
      have hline : SAT.lineText (k :: row) ++ rest =
          intText k ++ ([' '] ++ (SAT.lineText row ++ rest)) := by
        simp [SAT.lineText_eq]
      rw [hline]
      exact readClause_of_ne_zero (parseInt_intText hspace k (by simp [isDigit])) hrow.1
        (ih hrow.2 (Nat.lt_of_succ_lt_succ hfuel) (by simp [isSpace]))

/-- The head of a clause line is a digit or a minus sign. -/
theorem head_lineText (row : List ℤ) :
    ∃ c s, SAT.lineText row = c :: s ∧ (c = '-' ∨ isDigit c = true) := by
  cases row with
  | nil => exact ⟨'0', [], rfl, Or.inr rfl⟩
  | cons k row =>
      obtain ⟨c, s, heq⟩ := List.exists_cons_of_ne_nil (intText_ne_nil k)
      refine ⟨c, s ++ ' ' :: SAT.lineText row, ?_, mem_intText (z := k) (by simp [heq])⟩
      simp [SAT.lineText_eq, heq]

theorem length_le_lineText (row : List ℤ) : row.length ≤ (SAT.lineText row).length := by
  induction row with
  | nil => simp
  | cons k row ih =>
      simp only [SAT.lineText_eq, List.flatMap_cons, List.length_append, List.length_cons] at ih ⊢
      omega

/-- One pass of the main loop over a clause line. -/
theorem parseMain_of_clause {fuel : ℕ} {read : Dimacs} {s rest : Str} {row : List ℤ}
    (hhead : ∃ c t, skipWhitespace s = c :: t ∧ (c = '-' ∨ isDigit c = true))
    (hread : readClause ((skipWhitespace s).length + 1) (skipWhitespace s) = some (row, rest)) :
    parseMain (fuel + 1) read s =
      parseMain fuel { read with clauses := read.clauses ++ [row] } rest := by
  obtain ⟨c, t, heq, hc⟩ := hhead
  have hp : c ≠ 'p' := by rintro rfl; simp [isDigit] at hc
  have hcomment : c ≠ 'c' := by rintro rfl; simp [isDigit] at hc
  rw [heq] at hread
  rw [parseMain, heq]
  split
  next heq => exact absurd heq (List.cons_ne_nil _ _)
  next heq => exact absurd (List.cons.inj heq).1 hp
  next heq => exact absurd (List.cons.inj heq).1 hcomment
  next =>
    rw [hread]
    rfl

/-- Between two clause lines only blanks are skipped. -/
theorem skipWhitespace_clauseLines {space : Str} (hspace : ∀ c ∈ space, isSpace c = true)
    (row : List ℤ) (rows : List (List ℤ)) :
    skipWhitespace (space ++ (row :: rows).flatMap SAT.clauseLine) =
      SAT.lineText row ++ (['\n'] ++ rows.flatMap SAT.clauseLine) := by
  obtain ⟨c, t, heq, hc⟩ := head_lineText row
  have hcspace : isSpace c = false := by
    rcases hc with rfl | hc
    · rfl
    · exact isSpace_of_isDigit hc
  have hline : (row :: rows).flatMap SAT.clauseLine =
      SAT.lineText row ++ (['\n'] ++ rows.flatMap SAT.clauseLine) := by
    simp [SAT.clauseLine_eq]
  rw [hline, skipWhitespace, List.dropWhile_append_of_pos hspace, heq, List.cons_append,
    List.dropWhile_cons_of_neg (by simp [hcspace])]

/-- The main loop reads the clause lines to the end of the text. -/
theorem parseMain_clauseLines {rows : List (List ℤ)} (hrows : ∀ row ∈ rows, ∀ k ∈ row, k ≠ 0)
    {fuel : ℕ} (hfuel : rows.length < fuel) (read : Dimacs) {space : Str}
    (hspace : ∀ c ∈ space, isSpace c = true) :
    parseMain fuel read (space ++ rows.flatMap SAT.clauseLine) =
      some { read with clauses := read.clauses ++ rows } := by
  induction rows generalizing fuel read space with
  | nil =>
      obtain ⟨fuel, rfl⟩ := Nat.exists_eq_succ_of_ne_zero (Nat.ne_of_gt hfuel)
      have hskip : skipWhitespace (space ++ [].flatMap SAT.clauseLine) = [] := by
        simpa [skipWhitespace] using hspace
      rw [parseMain, hskip]
      simp
  | cons row rows ih =>
      obtain ⟨fuel, rfl⟩ := Nat.exists_eq_succ_of_ne_zero (Nat.ne_of_gt (Nat.zero_lt_of_lt hfuel))
      rw [List.forall_mem_cons] at hrows
      obtain ⟨c, t, heq, hc⟩ := head_lineText row
      have hskip := skipWhitespace_clauseLines hspace row rows
      have hlength : row.length <
          (SAT.lineText row ++ (['\n'] ++ rows.flatMap SAT.clauseLine)).length + 1 := by
        have := length_le_lineText row
        rw [List.length_append]
        omega
      have hread : readClause _
          ([] ++ (SAT.lineText row ++ (['\n'] ++ rows.flatMap SAT.clauseLine))) =
          some (row, ['\n'] ++ rows.flatMap SAT.clauseLine) :=
        readClause_lineText hrows.1 hlength (List.forall_mem_nil _) (by simp [isDigit])
      rw [List.nil_append, ← hskip] at hread
      have hhead : ∃ c t, skipWhitespace (space ++ (row :: rows).flatMap SAT.clauseLine) =
          c :: t ∧ (c = '-' ∨ isDigit c = true) := ⟨c, _, by rw [hskip, heq]; rfl, hc⟩
      rw [parseMain_of_clause hhead hread]
      -- the newline that ends the line is the blank before the next one
      apply (ih hrows.2 (Nat.lt_of_succ_lt_succ hfuel) _ (by simp [isSpace])).trans
      simp

theorem parseMain_comment (fuel : ℕ) (read : Dimacs) {line : Str} (hline : '\n' ∉ line)
    (rest : Str) :
    parseMain (fuel + 1) read ('c' :: (line ++ '\n' :: rest)) = parseMain fuel read rest := by
  have hskip : skipLine (line ++ '\n' :: rest) = rest := by
    have hpos : ∀ c ∈ line, (c != '\n') = true := fun c hc =>
      bne_iff_ne.mpr fun heq => hline (heq ▸ hc)
    simp [skipLine, List.dropWhile_append_of_pos hpos]
  have hhead : skipWhitespace ('c' :: (line ++ '\n' :: rest)) = 'c' :: (line ++ '\n' :: rest) := by
    simp [skipWhitespace, isSpace]
  rw [parseMain, hhead]
  simp [hskip]

theorem preamble_nil : SAT.preamble [] =
    'c' :: (" Created from SAT object".toList ++ '\n' :: ('c' :: ([] ++ ['\n']))) := by
  decide

/-- The reader passes over the two comment lines. -/
theorem parseMain_preamble (fuel : ℕ) (read : Dimacs) (rest : Str) :
    parseMain (fuel + 2) read (SAT.preamble [] ++ rest) = parseMain fuel read rest := by
  have hline : '\n' ∉ " Created from SAT object".toList := by decide
  have htext : SAT.preamble [] ++ rest =
      'c' :: (" Created from SAT object".toList ++ '\n' :: ('c' :: ([] ++ '\n' :: rest))) := by
    rw [preamble_nil, List.cons_append, List.append_assoc]
    rfl
  rw [htext, parseMain_comment _ _ hline, parseMain_comment _ _ List.not_mem_nil]

theorem parseMain_of_header {fuel : ℕ} {read : Dimacs} {s t middle rest : Str} {vars count : ℤ}
    (hhead : skipWhitespace s = 'p' :: ' ' :: 'c' :: 'n' :: 'f' :: t)
    (hvars : parseInt t = some (vars, middle)) (hcount : parseInt middle = some (count, rest)) :
    parseMain (fuel + 1) read s = parseMain fuel { read with vars, count } rest := by
  rw [parseMain, hhead]
  simp [hvars, hcount]

theorem header_append (n m : ℕ) (rest : Str) :
    SAT.header n m ++ rest = ['p', ' ', 'c', 'n', 'f', ' '] ++
      (natText n ++ ([' '] ++ (natText m ++ (['\n'] ++ rest)))) := by
  have hword : "p cnf ".toList = ['p', ' ', 'c', 'n', 'f', ' '] := by decide
  unfold SAT.header
  rw [hword]
  simp only [List.append_assoc]

/-- The reader takes the two numbers of the header. -/
theorem parseMain_header (fuel : ℕ) (read : Dimacs) (n m : ℕ) (rest : Str) :
    parseMain (fuel + 1) read (SAT.header n m ++ rest) =
      parseMain fuel { read with vars := n, count := m } (['\n'] ++ rest) := by
  have hvars : parseInt ([' '] ++ (natText n ++ ([' '] ++ (natText m ++ (['\n'] ++ rest))))) =
      some ((n : ℤ), [' '] ++ (natText m ++ (['\n'] ++ rest))) :=
    parseInt_intText (by simp [isSpace]) n (by simp [isDigit])
  have hcount : parseInt ([' '] ++ (natText m ++ (['\n'] ++ rest))) =
      some ((m : ℤ), ['\n'] ++ rest) :=
    parseInt_intText (by simp [isSpace]) m (by simp [isDigit])
  refine parseMain_of_header ?_ hvars hcount
  rw [header_append]
  simp [skipWhitespace, isSpace]

theorem length_le_clauseLines (rows : List (List ℤ)) :
    rows.length ≤ (rows.flatMap SAT.clauseLine).length := by
  induction rows with
  | nil => simp
  | cons row rows ih =>
      rw [List.flatMap_cons, SAT.clauseLine_eq]
      simp only [List.length_append, List.length_cons]
      omega

/-- The reader gives back the rows of a file. -/
theorem parse_fileText (n m : ℕ) {rows : List (List ℤ)}
    (hrows : ∀ row ∈ rows, ∀ k ∈ row, k ≠ 0) :
    parse (fileText n m rows) = some ⟨n, m, rows⟩ := by
  have hlength : rows.length + 4 ≤ (fileText n m rows).length + 1 := by
    have hlines := length_le_clauseLines rows
    have hpreamble : (SAT.preamble []).length = 28 := by decide
    simp only [fileText, List.length_append]
    omega
  obtain ⟨fuel, hfuel⟩ := Nat.exists_eq_add_of_le hlength
  have hsteps : (fileText n m rows).length + 1 = (rows.length + 1 + fuel) + 1 + 2 := by omega
  have hlines : parseMain (rows.length + 1 + fuel) ⟨n, m, []⟩
      (['\n'] ++ rows.flatMap SAT.clauseLine) = some ⟨n, m, [] ++ rows⟩ :=
    parseMain_clauseLines hrows (by omega) _ (by simp [isSpace])
  rw [parse, hsteps, fileText, List.append_assoc, parseMain_preamble, parseMain_header, hlines]
  rfl

/-! ## The exported text with a comment -/

/-- The reader passes over the comment lines, of which there are two or three. -/
theorem exists_parseMain_preamble {comment : Str} (hcomment : '\n' ∉ comment) (read : Dimacs)
    (rest : Str) :
    ∃ extra, ∀ fuel, parseMain (fuel + 3) read (SAT.preamble comment ++ rest) =
      parseMain (fuel + extra) read rest := by
  by_cases hempty : comment = [] ∨ comment = ['0']
  · refine ⟨1, fun fuel => ?_⟩
    have htext : SAT.preamble comment = SAT.preamble [] := by
      have hnil : ([] : Str) = [] ∨ ([] : Str) = ['0'] := Or.inl rfl
      unfold SAT.preamble
      rw [if_pos hempty, if_pos hnil]
    have hsteps : fuel + 3 = fuel + 1 + 2 := rfl
    rw [htext, hsteps, parseMain_preamble]
  · refine ⟨0, fun fuel => ?_⟩
    have hline : '\n' ∉ " Created from SAT object".toList := by decide
    have hcomment' : '\n' ∉ ' ' :: comment := by simpa using hcomment
    have hword : "c Created from SAT object\n".toList =
        'c' :: (" Created from SAT object".toList ++ ['\n']) := by decide
    have hc : "c ".toList = ['c', ' '] := by decide
    have hlast : "c\n".toList = ['c', '\n'] := by decide
    have htext : SAT.preamble comment ++ rest =
        'c' :: (" Created from SAT object".toList ++ '\n' :: ('c' :: ((' ' :: comment) ++
          '\n' :: ('c' :: ([] ++ '\n' :: rest))))) := by
      unfold SAT.preamble
      rw [if_neg hempty, hword, hc, hlast]
      simp
    have hsteps : fuel + 3 = fuel + 0 + 1 + 1 + 1 := rfl
    rw [htext, hsteps, parseMain_comment _ _ hline, parseMain_comment _ _ hcomment',
      parseMain_comment _ _ List.not_mem_nil, Nat.add_zero]

/-- The reader gives back the rows of an exported text. -/
theorem parse_exportText {comment : Str} (hcomment : '\n' ∉ comment) (n m : ℕ)
    {rows : List (List ℤ)} (hrows : ∀ row ∈ rows, ∀ k ∈ row, k ≠ 0) :
    parse (SAT.preamble comment ++ SAT.header n m ++ rows.flatMap SAT.clauseLine) =
      some ⟨n, m, rows⟩ := by
  obtain ⟨extra, hpreamble⟩ := exists_parseMain_preamble hcomment ⟨0, 0, []⟩
    (SAT.header n m ++ rows.flatMap SAT.clauseLine)
  have hheader : 4 ≤ (SAT.header n m).length := by
    have hword : "p cnf ".toList.length = 6 := by decide
    unfold SAT.header
    simp only [List.length_append, hword]
    omega
  have hlines := length_le_clauseLines rows
  have hlength : rows.length + 5 ≤ (SAT.preamble comment ++ SAT.header n m ++
      rows.flatMap SAT.clauseLine).length + 1 := by
    simp only [List.length_append]
    omega
  obtain ⟨fuel, hfuel⟩ := Nat.exists_eq_add_of_le hlength
  have hsum : rows.length + 5 + fuel = rows.length + 1 + fuel + 1 + 3 := by omega
  have hread : parseMain (rows.length + 1 + fuel + extra) ⟨n, m, []⟩
      (['\n'] ++ rows.flatMap SAT.clauseLine) = some ⟨n, m, [] ++ rows⟩ :=
    parseMain_clauseLines hrows (by omega) _ (by simp [isSpace])
  have hsteps : rows.length + 1 + fuel + 1 + extra = rows.length + 1 + fuel + extra + 1 := by omega
  rw [parse, hfuel, hsum, List.append_assoc, hpreamble, hsteps, parseMain_header, hread]
  rfl

end Dimacs

theorem SAT.Closed.rows_ne_zero {sat : SAT} (hclosed : sat.Closed) :
    ∀ row ∈ sat.rows, ∀ k ∈ row, k ≠ 0 := by
  intro row hrow k hk
  obtain ⟨clause, hclause, rfl⟩ := List.mem_map.mp hrow
  obtain ⟨l, hl, rfl⟩ := List.mem_map.mp hk
  have := hclosed.number_mem_range (hclosed.literals_mem clause hclause l hl)
  omega

namespace Encoder

/-- The encoded problem is exported: one line for each clause in order, with the
numbers of its literals between 1 and the number of variables and then a zero.
Under a comment of one line the bundled reader finds the announced counts and these
numbers. They give the literals back; distinct literals have distinct numbers and
opposite ones opposite numbers. -/
theorem exportToDimacs_faithful {csp : CSP} (hwf : csp.WellFormed) {sat : SAT}
    (h : encode csp = .ok sat) (comment : Str) :
    ∃ number : Str → ℤ, ∃ body : Str,
      sat.exportToDimacs comment =
        .ok (SAT.preamble comment ++ SAT.header sat.variables.length sat.clauses.length ++ body) ∧
      explode '\n' body = sat.clauses.map (fun clause =>
        implode ' ' ((clause.map number).map intText ++ [['0']])) ++ [[]] ∧
      ('\n' ∉ comment → Dimacs.parse (SAT.preamble comment ++
          SAT.header sat.variables.length sat.clauses.length ++ body) =
        some ⟨sat.variables.length, sat.clauses.length, sat.clauses.map (List.map number)⟩) ∧
      (∀ l ∈ sat.clauses.flatten,
        1 ≤ (number l).natAbs ∧ (number l).natAbs ≤ sat.variables.length) ∧
      (∀ l ∈ sat.clauses.flatten, sat.signedLiteral (number l) = .ok l) ∧
      (∀ l ∈ sat.clauses.flatten, ∀ l' ∈ sat.clauses.flatten, l ≠ l' → number l ≠ number l') ∧
      ∀ l ∈ sat.clauses.flatten, ∀ l' ∈ sat.clauses.flatten,
        l' = '-' :: l → number l' = -number l := by
  have hclosed := closed_encode hwf h
  have hliteral : ∀ l ∈ sat.clauses.flatten, SAT.IsLiteral sat.variables l := by
    intro l hl
    obtain ⟨clause, hclause, hl⟩ := List.mem_flatten.mp hl
    exact hclosed.literals_mem clause hclause l hl
  refine ⟨sat.number, _, hclosed.exportToDimacs_eq comment, ?_,
    fun hcomment => Dimacs.parse_exportText hcomment _ _ hclosed.rows_ne_zero,
    fun l hl => hclosed.number_mem_range (hliteral l hl),
    fun l hl => hclosed.signedLiteral_number (hliteral l hl),
    fun l hl l' hl' hne heq => hne (hclosed.number_inj (hliteral l hl) (hliteral l' hl') heq), ?_⟩
  · rw [SAT.explode_clauseLines, SAT.rows, List.map_map]
    rfl
  · rintro l - l' hl' rfl
    obtain ⟨a, ha, hcase⟩ := hliteral _ hl'
    rcases hcase with rfl | heq
    · exact absurd ⟨l, rfl⟩ (hclosed.unsigned _ ha)
    · rw [(List.cons.inj heq).2]
      exact hclosed.number_minus ha

theorem exportToDimacs_faithful_notOne :
    ∃ number : Str → ℤ, ∃ body : Str,
      notOneSat.exportToDimacs "x != 1".toList =
        .ok (SAT.preamble "x != 1".toList ++ SAT.header 6 8 ++ body) ∧
      explode '\n' body = notOneSat.clauses.map (fun clause =>
        implode ' ' ((clause.map number).map intText ++ [['0']])) ++ [[]] ∧
      ('\n' ∉ "x != 1".toList → Dimacs.parse (SAT.preamble "x != 1".toList ++ SAT.header 6 8 ++
          body) = some ⟨6, 8, notOneSat.clauses.map (List.map number)⟩) ∧
      (∀ l ∈ notOneSat.clauses.flatten, 1 ≤ (number l).natAbs ∧ (number l).natAbs ≤ 6) ∧
      (∀ l ∈ notOneSat.clauses.flatten, notOneSat.signedLiteral (number l) = .ok l) ∧
      (∀ l ∈ notOneSat.clauses.flatten, ∀ l' ∈ notOneSat.clauses.flatten,
        l ≠ l' → number l ≠ number l') ∧
      ∀ l ∈ notOneSat.clauses.flatten, ∀ l' ∈ notOneSat.clauses.flatten,
        l' = '-' :: l → number l' = -number l :=
  exportToDimacs_faithful notOne_wellFormed encode_notOne _

end Encoder

namespace Solver

/-! ## Rewriting -/

theorem run_headerStart_of_head (start : Bool) {s : Str} (hs : s.head? ≠ some 'p') :
    headerStart.run start s = [] := by
  refine Regex.run_seq_eq_nil fun found hfound => ?_
  cases s with
  | nil => simp [Regex.run] at hfound
  | cons c s =>
      have hc : c ≠ 'p' := by simpa using hs
      simp [Regex.run, List.isPrefixOf, Ne.symm hc] at hfound

/-- The text before the number of clauses. -/
def headerPrefix (n : ℕ) : Str := ['p', ' ', 'c', 'n', 'f', ' '] ++ (natText n ++ [' '])

theorem head?_run_headerStart (start : Bool) (n : ℕ) (rest : Str) :
    (headerStart.run start (headerPrefix n ++ rest)).head? = some (⟨headerPrefix n, []⟩, rest) := by
  have hdigits : ∀ start, ((Regex.seq (.plus isDigit) (.cls isSpace)).run start
      (natText n ++ (' ' :: rest))).head? = some (⟨natText n ++ [' '], []⟩, rest) := fun start =>
    Regex.head?_run_seq (Regex.head?_run_digits start n (by simp [isDigit]))
      (Regex.head?_run_cls _ (by decide) rest)
  have hspace : isSpace ' ' = true := by decide
  have hcnf : "cnf".toList = ['c', 'n', 'f'] := by decide
  have htext : headerPrefix n ++ rest =
      ['p'] ++ (' ' :: (['c', 'n', 'f'] ++ (' ' :: (natText n ++ (' ' :: rest))))) := by
    simp [headerPrefix]
  rw [htext, headerStart, hcnf]
  exact Regex.head?_run_seq (Regex.head?_run_lit ['p'] start _)
    (Regex.head?_run_seq (Regex.head?_run_cls _ hspace _)
      (Regex.head?_run_seq (Regex.head?_run_lit ['c', 'n', 'f'] _ _)
        (Regex.head?_run_seq (Regex.head?_run_cls _ hspace _) (hdigits _))))

theorem headMatch_headerPattern (start : Bool) (n m : ℕ) (rest : Str) :
    headerPattern.headMatch start (headerPrefix n ++ (natText m ++ '\n' :: rest)) =
      some ⟨headerPrefix n ++ (natText m ++ ['\n']), [headerPrefix n, natText m]⟩ := by
  have hspace : isSpace '\n' = true := by decide
  have hhead := Regex.head?_run_seq
    (Regex.head?_run_group (head?_run_headerStart start n (natText m ++ '\n' :: rest)))
    (Regex.head?_run_seq (Regex.head?_run_group (Regex.head?_run_digits _ m (by simp [isDigit])))
      (Regex.head?_run_cls _ hspace rest))
  exact Regex.headMatch_of_head? hhead (by simp [headerPrefix])

theorem headMatch_countPattern (start : Bool) (n m : ℕ) (rest : Str) :
    countPattern.headMatch start (headerPrefix n ++ (natText m ++ '\n' :: rest)) =
      some ⟨headerPrefix n ++ natText m, [natText m]⟩ := by
  have hhead := Regex.head?_run_seq (head?_run_headerStart start n (natText m ++ '\n' :: rest))
    (Regex.head?_run_group (Regex.head?_run_digits _ m (by simp [isDigit])))
  exact Regex.headMatch_of_head? hhead (by simp [headerPrefix])

/-- A pattern that starts at a `p` finds the header of a file and nothing else. -/
theorem scan_fileText {r : Regex} (hr : ∀ start s, s.head? ≠ some 'p' → r.run start s = [])
    (n m : ℕ) (rows : List (List ℤ)) (found : Match) (rest : Str)
    (htext : SAT.header n m ++ rows.flatMap SAT.clauseLine = found.text ++ rest)
    (hrest : 'p' ∉ rest)
    (hmatch : r.headMatch false (found.text ++ rest) = some found) :
    r.scan (fileText n m rows) =
      (SAT.preamble []).map .inl ++ .inr found :: rest.map .inl := by
  have hpre : 'p' ∉ SAT.preamble [] := by decide
  rw [Regex.scan, fileText, List.append_assoc, htext, Regex.tokens_append_of_notMem hr hpre]
  have hnonempty : (true && (SAT.preamble []).isEmpty) = false := by decide
  have htail := Regex.tokens_append_of_notMem hr hrest false []
  rw [List.append_nil] at htail
  rw [hnonempty, Regex.tokens_of_match hmatch, htail]
  simp [Regex.tokens]

theorem p_notMem_clauseLines (rows : List (List ℤ)) : 'p' ∉ rows.flatMap SAT.clauseLine := by
  intro hmem
  obtain ⟨row, -, hmem⟩ := List.mem_flatMap.mp hmem
  rw [SAT.clauseLine_eq, SAT.lineText_eq, List.append_assoc] at hmem
  rcases List.mem_append.mp hmem with hmem | hmem
  · obtain ⟨k, -, hmem⟩ := List.mem_flatMap.mp hmem
    rcases List.mem_append.mp hmem with hmem | hmem
    · exact not_mem_intText (by decide) (by decide) hmem
    · simp at hmem
  · simp at hmem

theorem pregMatch_headerPattern (n m : ℕ) (rows : List (List ℤ)) :
    pregMatch headerPattern (fileText n m rows) =
      some ⟨headerPrefix n ++ (natText m ++ ['\n']), [headerPrefix n, natText m]⟩ := by
  have hr : ∀ start s, s.head? ≠ some 'p' → headerPattern.run start s = [] := by
    intro start s hs
    refine Regex.run_seq_eq_nil fun found hfound => ?_
    simp [Regex.run, run_headerStart_of_head start hs] at hfound
  have hmatch := headMatch_headerPattern false n m (rows.flatMap SAT.clauseLine)
  have hscan := scan_fileText hr n m rows
    ⟨headerPrefix n ++ (natText m ++ ['\n']), [headerPrefix n, natText m]⟩
    (rows.flatMap SAT.clauseLine)
    (by rw [Dimacs.header_append]; simp [headerPrefix]) (p_notMem_clauseLines rows)
    (by simpa using hmatch)
  rw [pregMatch, pregMatchAll, hscan, List.filterMap_append, filterMap_inl]
  rfl

theorem pregReplace_countPattern (replacement : Str) (n m : ℕ) (rows : List (List ℤ)) :
    pregReplace countPattern replacement (fileText n m rows) =
      SAT.preamble [] ++ (replacement ++ '\n' :: rows.flatMap SAT.clauseLine) := by
  have hr : ∀ start s, s.head? ≠ some 'p' → countPattern.run start s = [] := by
    intro start s hs
    refine Regex.run_seq_eq_nil fun found hfound => ?_
    simp [run_headerStart_of_head start hs] at hfound
  have hmatch := headMatch_countPattern false n m (rows.flatMap SAT.clauseLine)
  have hscan := scan_fileText hr n m rows ⟨headerPrefix n ++ natText m, [natText m]⟩
    ('\n' :: rows.flatMap SAT.clauseLine)
    (by rw [Dimacs.header_append]; simp [headerPrefix])
    (List.not_mem_cons_of_ne_of_not_mem (by decide) (p_notMem_clauseLines rows))
    (by simpa using hmatch)
  rw [pregReplace, hscan]
  simp [replaceTokens, List.flatMap_map]

/-- The row added to the file is the opposite of the result. -/
theorem opposite_resultText {row : List ℤ} (hne : row ≠ []) :
    implode ' ' ((explode ' ' (Dimacs.resultText row)).map fun value =>
      intText (-1 * intval value)) ++ ['\n'] = SAT.clauseLine (row.map Neg.neg) := by
  have hzero : intText (-1 * intval ['0', '\n']) = ['0'] := by decide
  rw [explode_resultText hne, List.map_append, List.map_singleton, hzero, SAT.clauseLine_eq,
    SAT.lineText, List.map_map, List.map_map]
  congr 4
  funext k
  simp

/-- A result adds its opposite as a clause line, and the header counts it. -/
theorem addResultInDimacs_fileText {row : List ℤ} (hne : row ≠ []) (n m : ℕ)
    (rows : List (List ℤ)) :
    addResultInDimacs ⟨fileText n m rows, Dimacs.resultText row⟩ =
      fileText n (m + 1) (rows ++ [row.map Neg.neg]) := by
  have hheader : headerPrefix n ++ intText (intval (natText m) + 1) ++ ['\n'] =
      SAT.header n (m + 1) := by
    have hcount : intval (natText m) = m := intval_intText m
    have hsucc : intText ((m : ℤ) + 1) = natText (m + 1) := intText_natCast (m + 1)
    have := Dimacs.header_append n (m + 1) []
    rw [List.append_nil] at this
    rw [hcount, hsucc, this, headerPrefix]
    simp
  unfold addResultInDimacs
  rw [pregMatch_headerPattern]
  simp only [List.getD_cons_zero, List.getD_cons_succ]
  rw [pregReplace_countPattern, List.append_assoc, opposite_resultText hne, fileText, ← hheader,
    List.flatMap_append]
  simp

end Solver

end Sato
