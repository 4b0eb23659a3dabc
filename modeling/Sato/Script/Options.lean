import Sato.Dimacs.Search
import Sato.Script.Groups
import Sato.Source.Script

/-! # The options of the script

An option is found by the first argument that is its word, and taken out by its
key, so the keys of the arguments after it stay as they were. Wherever options
stand between declarations and clauses, what is parsed is what the declarations and
clauses alone give.
-/

namespace Sato

open Foundation

namespace Script

/-! ## Arguments with keys -/

section Keys

variable {pre post : Argv} {word : Str} {key : ℕ}

theorem arraySearch_append (hpre : word ∉ pre.map Prod.fst) :
    arraySearch word (pre ++ (word, key) :: post) = some key := by
  have hnone : pre.find? (fun entry => entry.1 == word) = none := by
    rw [List.find?_eq_none]
    intro entry hentry heq
    exact hpre (List.mem_map.mpr ⟨entry, hentry, by simpa using heq⟩)
  rw [arraySearch, List.find?_append, hnone]
  simp

theorem arraySearch_eq_none {argv : Argv} (hargv : word ∉ argv.map Prod.fst) :
    arraySearch word argv = none := by
  rw [arraySearch, Option.map_eq_none_iff, List.find?_eq_none]
  intro entry hentry heq
  exact hargv (List.mem_map.mpr ⟨entry, hentry, by simpa using heq⟩)

theorem entryAt_eq_none {argv : Argv} (hargv : key ∉ argv.map Prod.snd) :
    entryAt argv key = none := by
  rw [entryAt, Option.map_eq_none_iff, List.find?_eq_none]
  intro entry hentry heq
  exact hargv (List.mem_map.mpr ⟨entry, hentry, by simpa using heq⟩)

theorem inArray_iff {argv : Argv} : inArray word argv = true ↔ word ∈ argv.map Prod.fst := by
  rw [inArray, List.any_eq_true, List.mem_map]
  simp only [beq_iff_eq]

variable (hkeys : ((pre ++ (word, key) :: post).map Prod.snd).Nodup)
include hkeys

theorem key_notMem : key ∉ pre.map Prod.snd ∧ key ∉ post.map Prod.snd := by
  rw [List.map_append, List.map_cons, List.nodup_append, List.nodup_cons] at hkeys
  obtain ⟨-, ⟨hpost, -⟩, hne⟩ := hkeys
  exact ⟨fun hpre => hne key hpre key List.mem_cons_self rfl, hpost⟩

theorem unset_append : unset (pre ++ (word, key) :: post) key = pre ++ post := by
  obtain ⟨hpre, hpost⟩ := key_notMem hkeys
  have hkeep : ∀ {argv : Argv}, key ∉ argv.map Prod.snd →
      argv.filter (fun entry => entry.2 != key) = argv := by
    intro argv hargv
    rw [List.filter_eq_self]
    intro entry hentry
    rw [bne_iff_ne]
    rintro rfl
    exact hargv (List.mem_map_of_mem hentry)
  rw [unset, List.filter_append, List.filter_cons_of_neg (by simp), hkeep hpre, hkeep hpost]

theorem entryAt_append : entryAt (pre ++ (word, key) :: post) key = some word := by
  have hnone : pre.find? (fun entry => entry.2 == key) = none := by
    rw [List.find?_eq_none]
    intro entry hentry heq
    exact (key_notMem hkeys).1 (List.mem_map.mpr ⟨entry, hentry, by simpa using heq⟩)
  rw [entryAt, List.find?_append, hnone]
  simp

end Keys

theorem readFile_eq_none {argv : Argv} (hargv : "-f".toList ∉ argv.map Prod.fst) :
    readFile argv = .ok (none, argv) := by
  rw [readFile, arraySearch_eq_none hargv]

/-! ## Options among the groups -/

/-- The words that the script looks for. -/
def optionWords : List Str :=
  ["-h".toList, "--help".toList, "-v".toList, "-i".toList, "-f".toList]

/-- What `-f` is given: a path that the script takes, and perhaps a comment, which is
not itself an option. -/
structure FileRequest where
  path : Str
  comment : Option Str
  path_accepted : pregTest dimacsPattern path = true
  comment_not_option : ∀ word ∈ comment, word ∉ optionWords

namespace FileRequest

def arguments (f : FileRequest) : List Str := "-f".toList :: f.path :: f.comment.toList

/-- `$dimacsFilePath` and `$comment`. -/
def written (f : FileRequest) : Str × Str := (f.path, f.comment.getD [])

end FileRequest

/-- What the script is given, in any order. -/
inductive Item where
  | declaration (d : Declaration)
  | clause (c : Clause)
  | verbose
  | interprete
  | file (f : FileRequest)

namespace Item

def arguments : Item → List Str
  | declaration d => d.arguments
  | clause c => c.arguments
  | verbose => ["-v".toList]
  | interprete => ["-i".toList]
  | file f => f.arguments

/-- The option that an item gives. -/
def option? : Item → Option Str
  | verbose => some "-v".toList
  | interprete => some "-i".toList
  | file _ => some "-f".toList
  | _ => none

def gives (word : Str) (item : Item) : Bool := item.option? == some word

def file? : Item → Option FileRequest
  | file f => some f
  | _ => none

def declaration? : Item → Option Declaration
  | declaration d => some d
  | _ => none

def clause? : Item → Option Clause
  | clause c => some c
  | _ => none

/-- Declarations and clauses. -/
def isPlain (item : Item) : Bool := item.option?.isNone

theorem eq_interprete {item : Item} (h : item.gives "-i".toList = true) : item = interprete := by
  cases item with
  | interprete => rfl
  | _ => simp [gives, option?] at h

theorem gives_file (item : Item) : item.gives "-f".toList = item.file?.isSome := by
  cases item <;> simp [gives, option?, file?]

theorem eq_file {item : Item} (h : item.gives "-f".toList = true) : ∃ f, item = file f := by
  rw [gives_file] at h
  cases item with
  | file f => exact ⟨f, rfl⟩
  | _ => contradiction

theorem file?_of_gives_interprete {item : Item} (h : item.gives "-i".toList = true) :
    item.file? = none := by
  rw [eq_interprete h]
  rfl

end Item

/-- The options that are given. -/
def optionsOf (items : List Item) : Options where
  verbose := items.any (Item.gives "-v".toList)
  interprete := items.any (Item.gives "-i".toList)
  dimacsFile := (items.findSome? Item.file?).map FileRequest.written

/-! ## Reading of the options -/

theorem optionWords_spec : ∀ word ∈ optionWords, '-' ∈ word ∧ word.any isLetter = true ∧
    '=' ∉ word ∧ '<' ∉ word ∧ '>' ∉ word := by
  decide

/-- A relation sign, which every accepted literal has. -/
def HasRelationSign (s : Str) : Prop := '=' ∈ s ∨ '<' ∈ s ∨ '>' ∈ s

theorem hasRelationSign_of_accepted {vars : List IntegerVariable} {literal : Str}
    (h : CSP.Accepted vars literal) : HasRelationSign literal := by
  obtain ⟨cnf, hok, -⟩ := h
  obtain ⟨left, op, right, hsplit, -⟩ := CSP.normalizeExpression_eq_ok.mp hok
  rw [hsplit.text]
  cases op with
  | ne | eq => exact Or.inl (by simp [Op.text])
  | le | lt => exact Or.inr (Or.inl (by simp [Op.text]))
  | ge | gt => exact Or.inr (Or.inr (by simp [Op.text]))

theorem SignedNumeral.text_not_option (n : SignedNumeral) : n.text ∉ optionWords := by
  intro hmem
  obtain ⟨c, hc, hletter⟩ := List.any_eq_true.mp (optionWords_spec _ hmem).2.1
  rcases List.mem_append.mp hc with hc | hc
  · split at hc
    · rw [List.mem_singleton.mp hc] at hletter
      contradiction
    · exact absurd hc List.not_mem_nil
  · have hdigit := n.size.isDigit_of_mem c hc
    rw [isDigit_of_isLetter hletter] at hdigit
    contradiction

theorem Declaration.arguments_not_option (d : Declaration) :
    ∀ word ∈ d.arguments, word ∉ optionWords := by
  simp only [Declaration.arguments, List.forall_mem_cons]
  refine ⟨fun hmem => ?_, SignedNumeral.text_not_option _, SignedNumeral.text_not_option _,
    by simp⟩
  have hword := d.name.isName.isWord_of_mem (optionWords_spec _ hmem).1
  contradiction

theorem Clause.arguments_not_option {c : Clause}
    (hsign : ∀ literal ∈ c.literals, HasRelationSign literal) :
    ∀ word ∈ c.arguments, word ∉ optionWords := by
  intro word hword hmem
  obtain ⟨literal, hliteral, hsubset, -⟩ := Clause.exists_of_mem_arguments hword
  obtain ⟨-, -, heq, hlt, hgt⟩ := optionWords_spec _ hmem
  rcases hsign literal hliteral with h | h | h
  · exact heq (hsubset h)
  · exact hlt (hsubset h)
  · exact hgt (hsubset h)

theorem FileRequest.path_not_option (f : FileRequest) : f.path ∉ optionWords := by
  have hnone : ∀ word ∈ optionWords, pregTest dimacsPattern word = false := by decide
  intro hmem
  have hfalse := hnone f.path hmem
  rw [f.path_accepted] at hfalse
  contradiction

/-- No clause has an argument that the script would take for an option. -/
def Proper (items : List Item) : Prop :=
  ∀ clause ∈ items.filterMap Item.clause?, ∀ literal ∈ clause.literals, HasRelationSign literal

theorem Proper.of_sublist {items later : List Item} (h : Proper items)
    (hsublist : later.Sublist items) : Proper later :=
  fun clause hclause => h clause ((hsublist.filterMap Item.clause?).subset hclause)

/-- The only option among the arguments of an item is its own. -/
theorem option_mem_arguments {items : List Item} (hproper : Proper items) {item : Item}
    (hitem : item ∈ items) {word : Str} (hoption : word ∈ optionWords) :
    word ∈ item.arguments ↔ item.gives word = true := by
  rw [Item.gives, beq_iff_eq]
  cases item with
  | declaration d =>
      refine iff_of_false (fun hword => ?_) (Option.some_ne_none word).symm
      exact Declaration.arguments_not_option d word hword hoption
  | clause c =>
      have hsign := hproper c (List.mem_filterMap.mpr ⟨.clause c, hitem, rfl⟩)
      refine iff_of_false (fun hword => ?_) (Option.some_ne_none word).symm
      exact Clause.arguments_not_option hsign word hword hoption
  | verbose | interprete => simp [Item.arguments, Item.option?, eq_comm]
  | file f =>
      simp only [Item.arguments, FileRequest.arguments, Item.option?, List.mem_cons,
        Option.mem_toList, Option.some.injEq]
      constructor
      · rintro (rfl | rfl | hcomment)
        · rfl
        · exact absurd hoption f.path_not_option
        · exact absurd hoption (f.comment_not_option word hcomment)
      · exact fun heq => Or.inl heq.symm

/-- The items with the keys of their first arguments. -/
def keyItems : ℕ → List Item → List (Item × ℕ)
  | _, [] => []
  | key, item :: items => (item, key) :: keyItems (key + item.arguments.length) items

def argvOf (keyed : List (Item × ℕ)) : Argv :=
  keyed.flatMap fun entry => entry.1.arguments.zipIdx entry.2

theorem argvOf_keyItems (key : ℕ) (items : List Item) :
    argvOf (keyItems key items) = (items.flatMap Item.arguments).zipIdx key := by
  induction items generalizing key with
  | nil => rfl
  | cons item items ih =>
      rw [keyItems, List.flatMap_cons, List.zipIdx_append, ← ih]
      simp [argvOf]

theorem map_fst_keyItems (key : ℕ) (items : List Item) :
    (keyItems key items).map Prod.fst = items := by
  induction items generalizing key with
  | nil => rfl
  | cons item items ih => rw [keyItems, List.map_cons, ih]

theorem keyItems_append (key : ℕ) (items later : List Item) :
    keyItems key (items ++ later) = keyItems key items ++
      keyItems (key + (items.flatMap Item.arguments).length) later := by
  induction items generalizing key with
  | nil => rfl
  | cons item items ih =>
      rw [List.cons_append, keyItems, ih, keyItems, List.flatMap_cons, List.length_append,
        Nat.add_assoc]
      rfl

theorem mem_keyItems {key key' : ℕ} {items : List Item} {item : Item}
    (hmem : (item, key') ∈ keyItems key items) :
    ∃ pre post, items = pre ++ item :: post ∧
      key' = key + (pre.flatMap Item.arguments).length := by
  induction items generalizing key with
  | nil => exact absurd hmem List.not_mem_nil
  | cons first items ih =>
      rw [keyItems, List.mem_cons] at hmem
      rcases hmem with heq | hmem
      · obtain ⟨rfl, rfl⟩ := Prod.mk.inj heq
        exact ⟨[], items, rfl, rfl⟩
      · obtain ⟨pre, post, rfl, rfl⟩ := ih hmem
        refine ⟨first :: pre, post, rfl, ?_⟩
        rw [List.flatMap_cons, List.length_append, Nat.add_assoc]

theorem words_argvOf (keyed : List (Item × ℕ)) :
    (argvOf keyed).map Prod.fst = (keyed.map Prod.fst).flatMap Item.arguments := by
  rw [argvOf, List.map_flatMap, List.flatMap_map]
  refine List.flatMap_congr fun entry _ => ?_
  rw [List.zipIdx_map_fst]

/-- An option is among the arguments when an item gives it. -/
theorem mem_words_iff {keyed : List (Item × ℕ)} (hproper : Proper (keyed.map Prod.fst))
    {word : Str} (hoption : word ∈ optionWords) :
    word ∈ (argvOf keyed).map Prod.fst ↔ ∃ entry ∈ keyed, entry.1.gives word = true := by
  rw [words_argvOf, List.mem_flatMap, exists_mem_map]
  refine exists_congr fun entry => and_congr_right fun hentry => ?_
  exact option_mem_arguments hproper (List.mem_map_of_mem hentry) hoption

/-- The first item that gives an option, and what is around it. -/
theorem exists_split {keyed : List (Item × ℕ)} {word : Str}
    (hexists : ∃ entry ∈ keyed, entry.1.gives word = true) :
    ∃ pre item key post, (∀ entry ∈ pre, entry.1.gives word = false) ∧
      item.gives word = true ∧ keyed = pre ++ (item, key) :: post ∧
      keyed.eraseP (fun entry => entry.1.gives word) = pre ++ post := by
  obtain ⟨entry, hentry, hgives⟩ := hexists
  obtain ⟨⟨item, key⟩, pre, post, hpre, hitem, heq, herase⟩ :=
    @List.exists_of_eraseP _ (fun entry => entry.1.gives word) _ _ hentry hgives
  exact ⟨pre, item, key, post, fun e he => by simpa using hpre e he, hitem, heq, herase⟩

theorem readInterprete_argvOf {keyed : List (Item × ℕ)}
    (hkeys : ((argvOf keyed).map Prod.snd).Nodup) (hproper : Proper (keyed.map Prod.fst)) :
    readInterprete (argvOf keyed) =
      ((keyed.map Prod.fst).any (Item.gives "-i".toList),
        argvOf (keyed.eraseP fun entry => entry.1.gives "-i".toList)) := by
  have hany : (keyed.map Prod.fst).any (Item.gives "-i".toList) = true ↔
      ∃ entry ∈ keyed, entry.1.gives "-i".toList = true := by
    rw [List.any_eq_true, exists_mem_map]
  by_cases hexists : ∃ entry ∈ keyed, entry.1.gives "-i".toList = true
  · rw [hany.mpr hexists]
    obtain ⟨pre, item, key, post, hpre, hitem, heq, herase⟩ := exists_split hexists
    obtain rfl := Item.eq_interprete hitem
    have hargv : argvOf keyed = argvOf pre ++ ("-i".toList, key) :: argvOf post := by
      rw [heq]
      simp [argvOf, Item.arguments]
    have hproper' : Proper (pre.map Prod.fst) := by
      refine hproper.of_sublist ?_
      rw [heq]
      exact (List.sublist_append_left _ _).map Prod.fst
    have hnotMem : "-i".toList ∉ (argvOf pre).map Prod.fst := by
      rw [mem_words_iff hproper' (by decide)]
      rintro ⟨entry, hentry, hyes⟩
      rw [hpre entry hentry] at hyes
      contradiction
    rw [hargv] at hkeys ⊢
    rw [readInterprete, arraySearch_append hnotMem]
    simp only [unset_append hkeys, herase]
    simp [argvOf]
  · rw [Bool.eq_false_iff.mpr fun h => hexists (hany.mp h)]
    have hnotMem : "-i".toList ∉ (argvOf keyed).map Prod.fst := by
      rwa [mem_words_iff hproper (by decide)]
    have herase : keyed.eraseP (fun entry => entry.1.gives "-i".toList) = keyed :=
      List.eraseP_of_forall_not fun entry hentry hyes => hexists ⟨entry, hentry, hyes⟩
    rw [readInterprete, arraySearch_eq_none hnotMem, herase]

/-- `-f` takes the path after it, and the comment after that if there is one: without a
comment the next key must not be set. -/
theorem readFile_append {pre post : Argv} {f : FileRequest} {key : ℕ}
    (hkeys : ((pre ++ (f.arguments.zipIdx key ++ post)).map Prod.snd).Nodup)
    (hpre : "-f".toList ∉ pre.map Prod.fst)
    (hfree : f.comment = none → key + 2 ∉ (pre ++ post).map Prod.snd) :
    readFile (pre ++ (f.arguments.zipIdx key ++ post)) = .ok (some f.written, pre ++ post) := by
  have harguments : f.arguments.zipIdx key ++ post = ("-f".toList, key) :: (f.path, key + 1) ::
      (f.comment.toList.zipIdx (key + 2) ++ post) := rfl
  rw [harguments] at hkeys ⊢
  have hsublist : ∀ {entry : Str × ℕ} {rest : Argv},
      (pre ++ rest).Sublist (pre ++ entry :: rest) :=
    fun {_ _} => (List.sublist_cons_self _ _).append_left pre
  have hkeys' := (hsublist.map Prod.snd).nodup hkeys
  have hkeys'' := (hsublist.map Prod.snd).nodup hkeys'
  rw [readFile, arraySearch_append hpre]
  simp only [unset_append hkeys, entryAt_append hkeys', f.path_accepted, if_true,
    unset_append hkeys']
  cases hcomment : f.comment with
  | none =>
      have hnone := entryAt_eq_none (hfree hcomment)
      simp [hnone, FileRequest.written, hcomment]
  | some comment =>
      have hlast : f.comment.toList.zipIdx (key + 2) ++ post = (comment, key + 2) :: post := by
        rw [hcomment]
        rfl
      rw [hlast] at hkeys''
      have hentry := entryAt_append hkeys''
      have hrest := unset_append hkeys''
      simp [hentry, hrest, FileRequest.written, hcomment]

theorem readFile_argvOf {keyed : List (Item × ℕ)}
    (hkeys : ((argvOf keyed).map Prod.snd).Nodup) (hproper : Proper (keyed.map Prod.fst))
    (hfree : ∀ f key, (Item.file f, key) ∈ keyed → f.comment = none →
      key + 2 ∉ (argvOf keyed).map Prod.snd) :
    readFile (argvOf keyed) =
      .ok (((keyed.map Prod.fst).findSome? Item.file?).map FileRequest.written,
        argvOf (keyed.eraseP fun entry => entry.1.gives "-f".toList)) := by
  have hfile : ∀ item : Item, item.gives "-f".toList = false → item.file? = none := by
    intro item hitem
    rwa [Item.gives_file, Option.isSome_eq_false_iff, Option.isNone_iff_eq_none] at hitem
  by_cases hexists : ∃ entry ∈ keyed, entry.1.gives "-f".toList = true
  · obtain ⟨pre, item, key, post, hpre, hitem, heq, herase⟩ := exists_split hexists
    obtain ⟨f, rfl⟩ := Item.eq_file hitem
    have hargv : argvOf keyed = argvOf pre ++ (f.arguments.zipIdx key ++ argvOf post) := by
      rw [heq]
      simp [argvOf, Item.arguments]
    have hlater : argvOf pre ++ argvOf post = argvOf (pre ++ post) := by simp [argvOf]
    have hproper' : Proper (pre.map Prod.fst) := by
      refine hproper.of_sublist ?_
      rw [heq]
      exact (List.sublist_append_left _ _).map Prod.fst
    have hnotMem : "-f".toList ∉ (argvOf pre).map Prod.fst := by
      rw [mem_words_iff hproper' (by decide)]
      rintro ⟨entry, hentry, hyes⟩
      rw [hpre entry hentry] at hyes
      contradiction
    have hfree' : f.comment = none → key + 2 ∉ (argvOf pre ++ argvOf post).map Prod.snd := by
      intro hcomment hkey
      refine hfree f key (by simp [heq]) hcomment ?_
      rw [hargv]
      exact ((List.sublist_append_right _ _).append_left _ |>.map Prod.snd).subset hkey
    have hsome : (keyed.map Prod.fst).findSome? Item.file? = some f := by
      have hnone : (pre.map Prod.fst).findSome? Item.file? = none := by
        rw [List.findSome?_eq_none_iff]
        intro other hother
        obtain ⟨entry, hentry, rfl⟩ := List.mem_map.mp hother
        exact hfile _ (hpre entry hentry)
      rw [heq, List.map_append, List.findSome?_append, hnone]
      rfl
    rw [hargv] at hkeys ⊢
    rw [readFile_append hkeys hnotMem hfree', herase, hsome, hlater]
    rfl
  · have hnotMem : "-f".toList ∉ (argvOf keyed).map Prod.fst := by
      rwa [mem_words_iff hproper (by decide)]
    have herase : keyed.eraseP (fun entry => entry.1.gives "-f".toList) = keyed :=
      List.eraseP_of_forall_not fun entry hentry hyes => hexists ⟨entry, hentry, hyes⟩
    have hnone : (keyed.map Prod.fst).findSome? Item.file? = none := by
      rw [List.findSome?_eq_none_iff]
      intro item hitem
      obtain ⟨entry, hentry, rfl⟩ := List.mem_map.mp hitem
      exact hfile _ (by simpa using fun hyes => hexists ⟨entry, hentry, hyes⟩)
    rw [readFile_eq_none hnotMem, herase, hnone]
    rfl

theorem filterMap_eraseP {α β : Type*} {p : α → Bool} {f : α → Option β}
    (hnone : ∀ a, p a = true → f a = none) (l : List α) :
    (l.eraseP p).filterMap f = l.filterMap f := by
  induction l with
  | nil => rfl
  | cons a l ih =>
      by_cases ha : p a = true
      · rw [List.eraseP_cons_of_pos ha, List.filterMap_cons_none (hnone a ha)]
      · rw [List.eraseP_cons_of_neg ha, List.filterMap_cons, List.filterMap_cons, ih]

/-- There is one `-f` at most. Where it has no comment, no argument is left at the place
of one: it is the last item, or the first `-i`, which is taken out before, comes next. -/
structure Placed (items : List Item) : Prop where
  one_file : (items.filterMap Item.file?).length ≤ 1
  comment : ∀ pre f post, items = pre ++ Item.file f :: post → f.comment = none →
    post = [] ∨ ∃ later, post = .interprete :: later ∧ .interprete ∉ pre

theorem placed_of_noFile {items : List Item} (h : items.filterMap Item.file? = []) :
    Placed items where
  one_file := by simp [h]
  comment := by
    rintro pre f post rfl -
    simp [Item.file?] at h

theorem nodup_keys (items : List Item) : ((argvOf (keyItems 1 items)).map Prod.snd).Nodup := by
  rw [argvOf_keyItems, List.zipIdx_map_snd]
  exact List.nodup_range'

/-- The arguments when `-f` is looked for. -/
def withoutInterprete (items : List Item) : Argv :=
  argvOf ((keyItems 1 items).eraseP fun entry => entry.1.gives "-i".toList)

section NoComment

variable {pre : List Item} {f : FileRequest}

theorem length_arguments_file (hcomment : f.comment = none) :
    (Item.file f).arguments.length = 2 := by
  rw [Item.arguments, FileRequest.arguments, hcomment]
  rfl

/-- The keys go up to that of the path, if it is the last argument. -/
theorem key_notMem_of_last (hcomment : f.comment = none) :
    1 + (pre.flatMap Item.arguments).length + 2 ∉
      (withoutInterprete (pre ++ [.file f])).map Prod.snd := by
  intro hkey
  have hsublist : (withoutInterprete (pre ++ [.file f])).Sublist
      (argvOf (keyItems 1 (pre ++ [.file f]))) := List.eraseP_sublist.flatMap _
  have hall := (hsublist.map Prod.snd).subset hkey
  rw [argvOf_keyItems, List.zipIdx_map_snd, List.mem_range'_1, List.flatMap_append,
    List.length_append, List.flatMap_singleton, length_arguments_file hcomment] at hall
  omega

/-- The key after the path is that of the `-i` that was taken out. -/
theorem key_notMem_of_interprete (hcomment : f.comment = none) (hpre : .interprete ∉ pre)
    (later : List Item) :
    1 + (pre.flatMap Item.arguments).length + 2 ∉
      (withoutInterprete (pre ++ .file f :: .interprete :: later)).map Prod.snd := by
  have hnone : ∀ entry ∈ keyItems 1 pre, ¬ entry.1.gives "-i".toList = true := by
    intro entry hentry hgives
    rw [← map_fst_keyItems 1 pre] at hpre
    exact hpre (Item.eq_interprete hgives ▸ List.mem_map_of_mem hentry)
  have hkeys := nodup_keys (pre ++ .file f :: .interprete :: later)
  have hkeyed : keyItems 1 (pre ++ .file f :: .interprete :: later) = keyItems 1 pre ++
      (.file f, 1 + (pre.flatMap Item.arguments).length) ::
        (.interprete, 1 + (pre.flatMap Item.arguments).length + 2) ::
          keyItems (1 + (pre.flatMap Item.arguments).length + 2 + 1) later := by
    rw [keyItems_append, keyItems, keyItems, length_arguments_file hcomment]
    rfl
  rw [withoutInterprete, hkeyed]
  rw [hkeyed] at hkeys
  generalize 1 + (pre.flatMap Item.arguments).length = key at hkeys ⊢
  have hfile : (Item.file f).gives "-i".toList = false := by
    simp [Item.gives, Item.option?]
  have hinterprete : Item.interprete.gives "-i".toList = true := rfl
  rw [List.eraseP_append_right _ hnone, List.eraseP_cons, hfile, cond_false, List.eraseP_cons,
    hinterprete, cond_true]
  have hargv : ∀ rest, argvOf (keyItems 1 pre ++ (Item.file f, key) :: rest) =
      argvOf (keyItems 1 pre ++ [(Item.file f, key)]) ++ argvOf rest := by
    intro rest
    simp [argvOf]
  rw [hargv] at hkeys ⊢
  obtain ⟨hbefore, hafter⟩ := key_notMem hkeys
  rw [List.map_append, List.mem_append, not_or]
  exact ⟨hbefore, hafter⟩

end NoComment

/-- The key after a path without a comment is not set when `-f` is read. -/
theorem Placed.not_set {items : List Item} (h : Placed items) {f : FileRequest} {key : ℕ}
    (hmem : (Item.file f, key) ∈ keyItems 1 items) (hcomment : f.comment = none) :
    key + 2 ∉ (withoutInterprete items).map Prod.snd := by
  obtain ⟨pre, post, rfl, rfl⟩ := mem_keyItems hmem
  rcases h.comment pre f post rfl hcomment with rfl | ⟨later, rfl, hpre⟩
  · exact key_notMem_of_last hcomment
  · exact key_notMem_of_interprete hcomment hpre later

/-- The items that are left once the first `-i` and the first `-f` are taken out. -/
def remaining (items : List Item) : List Item :=
  (items.eraseP (Item.gives "-i".toList)).eraseP (Item.gives "-f".toList)

/-- The options are read wherever they stand, and what is left is in order. -/
theorem readOptions_items {items : List Item} (hproper : Proper items)
    (hplaced : Placed items) :
    readOptions ((items.flatMap Item.arguments).zipIdx 1) =
      .ok (optionsOf items, (remaining items).flatMap Item.arguments) := by
  have hargv := argvOf_keyItems 1 items
  have hitems := map_fst_keyItems 1 items
  have hfree : ∀ f key, (Item.file f, key) ∈ (keyItems 1 items).eraseP
      (fun entry => entry.1.gives "-i".toList) → f.comment = none → key + 2 ∉ (argvOf
        ((keyItems 1 items).eraseP fun entry => entry.1.gives "-i".toList)).map Prod.snd :=
    fun f key hmem => hplaced.not_set (List.mem_of_mem_eraseP hmem)
  have hkeys := nodup_keys items
  generalize keyItems 1 items = keyed at hargv hitems hfree hkeys
  subst hitems
  have hlater : (keyed.eraseP fun entry => entry.1.gives "-i".toList).map Prod.fst =
      (keyed.map Prod.fst).eraseP (Item.gives "-i".toList) := by
    rw [List.eraseP_map]
    rfl
  have hproper' : Proper ((keyed.eraseP fun entry => entry.1.gives "-i".toList).map Prod.fst) :=
    hproper.of_sublist (List.eraseP_sublist.map Prod.fst)
  have hkeys' : ((argvOf (keyed.eraseP fun entry => entry.1.gives "-i".toList)).map
      Prod.snd).Nodup :=
    ((List.eraseP_sublist.flatMap _).map Prod.snd).nodup hkeys
  -- the item taken out first is not the one of `-f`
  have hfile : ((keyed.map Prod.fst).eraseP (Item.gives "-i".toList)).findSome? Item.file? =
      (keyed.map Prod.fst).findSome? Item.file? := by
    rw [← List.head?_filterMap, filterMap_eraseP fun item => Item.file?_of_gives_interprete,
      List.head?_filterMap]
  have hverbose : inArray "-v".toList (argvOf keyed) =
      (keyed.map Prod.fst).any (Item.gives "-v".toList) := by
    rw [Bool.eq_iff_iff, inArray_iff, mem_words_iff hproper (by decide), List.any_eq_true,
      exists_mem_map]
  have hread := readFile_argvOf hkeys' hproper' hfree
  rw [hlater, hfile] at hread
  rw [← hargv, readOptions, readInterprete_argvOf hkeys hproper]
  simp only [hread, hverbose]
  refine congrArg Except.ok (Prod.ext rfl ?_)
  simp only [words_argvOf, remaining, List.eraseP_map]
  rfl

/-! ## What is parsed -/

theorem filterMap_eraseP_tail {α β : Type*} {p : α → Bool} {f : α → Option β}
    (hsome : ∀ a, p a = (f a).isSome) (l : List α) :
    (l.eraseP p).filterMap f = (l.filterMap f).tail := by
  induction l with
  | nil => rfl
  | cons a l ih =>
      have ha := hsome a
      cases hf : f a with
      | none =>
          rw [hf] at ha
          rw [List.eraseP_cons_of_neg (by simp [ha]), List.filterMap_cons_none hf,
            List.filterMap_cons_none hf, ih]
      | some b =>
          rw [hf] at ha
          rw [List.eraseP_cons_of_pos ha, List.filterMap_cons_some hf]
          rfl

def verboseFlag : Flag where
  word := "-v".toList
  hasNonWord := ⟨'-', by decide, rfl⟩
  isSpace_of_mem := forall_isSpace_eq_false (by decide)
  open_not_mem := by decide
  close_not_mem := by decide

def interpreteFlag : Flag where
  word := "-i".toList
  hasNonWord := ⟨'-', by decide, rfl⟩
  isSpace_of_mem := forall_isSpace_eq_false (by decide)
  open_not_mem := by decide
  close_not_mem := by decide

/-- What an item is in the text that is parsed. -/
def Item.group? : Item → Option Group
  | declaration d => some (.declaration d)
  | clause c => some (.clause c)
  | verbose => some (.flag verboseFlag)
  | interprete => some (.flag interpreteFlag)
  | file _ => none

theorem flatMap_arguments {items : List Item} (hfile : items.filterMap Item.file? = []) :
    items.flatMap Item.arguments = (items.filterMap Item.group?).flatMap Group.arguments := by
  induction items with
  | nil => rfl
  | cons item items ih =>
      cases item with
      | file f => simp [Item.file?] at hfile
      | _ =>
          rw [List.filterMap_cons_none rfl] at hfile
          rw [List.flatMap_cons, ih hfile]
          rfl

theorem filterMap_group_declaration (items : List Item) :
    (items.filterMap Item.group?).filterMap Group.declaration? =
      items.filterMap Item.declaration? := by
  rw [List.filterMap_filterMap]
  refine List.filterMap_congr fun item _ => ?_
  cases item <;> rfl

theorem filterMap_group_clause (items : List Item) :
    (items.filterMap Item.group?).filterMap Group.clause? = items.filterMap Item.clause? := by
  rw [List.filterMap_filterMap]
  refine List.filterMap_congr fun item _ => ?_
  cases item <;> rfl

/-- The declared variables. -/
def variablesOf (items : List Item) : List IntegerVariable :=
  (items.filterMap Item.declaration?).map Declaration.toVariable

/-- Arguments without `-f` are parsed as their declarations and clauses alone. -/
theorem parseExpression_of_filterMap {items later : List Item}
    (hclauses : ∀ clause ∈ items.filterMap Item.clause?, clause.HasNonWords)
    {constraints : List (List (List Inequation))}
    (hparses : List.Forall₂ (CSP.ClauseParses (variablesOf items)) (items.filterMap Item.clause?)
      constraints)
    (hdeclaration : later.filterMap Item.declaration? = items.filterMap Item.declaration?)
    (hclause : later.filterMap Item.clause? = items.filterMap Item.clause?)
    (hfile : later.filterMap Item.file? = []) :
    CSP.parseExpression (joinArguments (later.flatMap Item.arguments)) =
      .ok ⟨variablesOf items, constraints.flatten⟩ := by
  rw [flatMap_arguments hfile]
  have hrun := @CSP.parseExpression_groups (later.filterMap Item.group?)
  rw [filterMap_group_declaration, filterMap_group_clause, hdeclaration, hclause] at hrun
  exact hrun hclauses hparses

/-- Declarations and clauses, in the order in which they are given. -/
def plainArguments (items : List Item) : List Str :=
  (items.filter Item.isPlain).flatMap Item.arguments

theorem filterMap_isPlain {α : Type*} {f : Item → Option α}
    (hnone : ∀ item, item.isPlain = false → f item = none) (items : List Item) :
    (items.filter Item.isPlain).filterMap f = items.filterMap f := by
  rw [List.filterMap_filter]
  refine List.filterMap_congr fun item _ => ?_
  split
  next => rfl
  next h => exact (hnone item (by simpa using h)).symm

theorem filterMap_remaining {α : Type*} {f : Item → Option α}
    (hnone : ∀ item, item.isPlain = false → f item = none) (items : List Item) :
    (remaining items).filterMap f = items.filterMap f := by
  have hgives : ∀ (word : Str) (item : Item), item.gives word = true → f item = none := by
    intro word item hitem
    refine hnone item ?_
    rw [Item.gives, beq_iff_eq] at hitem
    rw [Item.isPlain, hitem]
    rfl
  rw [remaining, filterMap_eraseP (hgives _), filterMap_eraseP (hgives _)]

theorem Item.declaration?_of_not_isPlain (item : Item) (h : item.isPlain = false) :
    item.declaration? = none := by
  cases item with
  | declaration d => contradiction
  | _ => rfl

theorem Item.clause?_of_not_isPlain (item : Item) (h : item.isPlain = false) :
    item.clause? = none := by
  cases item with
  | clause c => contradiction
  | _ => rfl

theorem Item.file?_of_isPlain (item : Item) (h : item.isPlain = true) : item.file? = none := by
  cases item with
  | file f => contradiction
  | _ => rfl

theorem filterMap_file_plain (items : List Item) :
    (items.filter Item.isPlain).filterMap Item.file? = [] := by
  rw [List.filterMap_eq_nil_iff]
  intro item hitem
  exact Item.file?_of_isPlain item (List.mem_filter.mp hitem).2

/-- Only the item of `-f` is taken out with its request. -/
theorem filterMap_file_remaining (items : List Item) :
    (remaining items).filterMap Item.file? = (items.filterMap Item.file?).tail := by
  rw [remaining, filterMap_eraseP_tail, filterMap_eraseP]
  · exact fun item => Item.file?_of_gives_interprete
  · exact Item.gives_file

section Parsed

variable {items : List Item}
  (haccepted : ∀ clause ∈ items.filterMap Item.clause?, ∀ literal ∈ clause.literals,
    CSP.Accepted (variablesOf items) literal)
include haccepted

/-- The plain arguments are parsed clause by clause. -/
theorem parseExpression_plainArguments :
    ∃ constraints, List.Forall₂ (CSP.ClauseParses (variablesOf items))
        (items.filterMap Item.clause?) constraints ∧
      CSP.parseExpression (joinArguments (plainArguments items)) =
        .ok ⟨variablesOf items, constraints.flatten⟩ := by
  obtain ⟨constraints, hparses⟩ := exists_forall₂ fun clause hclause =>
    CSP.exists_clauseParses (haccepted clause hclause)
  refine ⟨constraints, hparses, parseExpression_of_filterMap ?_ hparses ?_ ?_ ?_⟩
  · exact fun clause hclause literal hliteral =>
      (haccepted clause hclause literal hliteral).hasNonWord
  · exact filterMap_isPlain Item.declaration?_of_not_isPlain items
  · exact filterMap_isPlain Item.clause?_of_not_isPlain items
  · exact filterMap_file_plain items

/-- With one `-f` at most, the arguments that are left are parsed as the plain ones. -/
theorem parseExpression_remaining (hfile : (items.filterMap Item.file?).length ≤ 1) :
    CSP.parseExpression (joinArguments ((remaining items).flatMap Item.arguments)) =
      CSP.parseExpression (joinArguments (plainArguments items)) := by
  obtain ⟨constraints, hparses, hplain⟩ := parseExpression_plainArguments haccepted
  rw [hplain]
  refine parseExpression_of_filterMap ?_ hparses ?_ ?_ ?_
  · exact fun clause hclause literal hliteral =>
      (haccepted clause hclause literal hliteral).hasNonWord
  · exact filterMap_remaining Item.declaration?_of_not_isPlain items
  · exact filterMap_remaining Item.clause?_of_not_isPlain items
  · rw [filterMap_file_remaining]
    exact List.length_eq_zero_iff.mp (by rw [List.length_tail]; omega)

theorem proper_of_accepted : Proper items := fun clause hclause literal hliteral =>
  hasRelationSign_of_accepted (haccepted clause hclause literal hliteral)

/-- Wherever the options stand, the script does with the declarations and clauses
alone what the options ask for. -/
theorem main_eq_run (hplaced : Placed items) (execute : Solver.Execute)
    (display : Solver.Display) (fuel : ℕ) :
    main execute display fuel (items.flatMap Item.arguments) =
      run execute display fuel (optionsOf items) (plainArguments items) := by
  have hproper := proper_of_accepted haccepted
  have hnohelp : ∀ word ∈ optionWords, (∀ item : Item, item.gives word = false) →
      inArray word ((items.flatMap Item.arguments).zipIdx 1) = false := by
    intro word hoption hgives
    rw [Bool.eq_false_iff, Ne, inArray_iff, List.zipIdx_map_fst, List.mem_flatMap]
    rintro ⟨item, hitem, hword⟩
    rw [option_mem_arguments hproper hitem hoption, hgives] at hword
    contradiction
  have hshort := hnohelp "-h".toList (by decide) fun item => by
    cases item <;> simp [Item.gives, Item.option?]
  have hlong := hnohelp "--help".toList (by decide) fun item => by
    cases item <;> simp [Item.gives, Item.option?]
  rw [main]
  simp only [hshort, hlong, Bool.or_self, Bool.false_eq_true, if_false,
    readOptions_items hproper hplaced]
  rw [run, run, parseExpression_remaining haccepted hplaced.one_file]

end Parsed

theorem filterMap_congr_plain {α : Type*} {f : Item → Option α}
    (hnone : ∀ item, item.isPlain = false → f item = none) {items other : List Item}
    (hplain : other.filter Item.isPlain = items.filter Item.isPlain) :
    other.filterMap f = items.filterMap f := by
  rw [← filterMap_isPlain hnone other, hplain, filterMap_isPlain hnone items]

/-- The outcome does not depend on where the options stand among the declarations and
clauses: it is what the options make of the declarations and clauses alone. -/
theorem main_items {items : List Item}
    (haccepted : ∀ clause ∈ items.filterMap Item.clause?, ∀ literal ∈ clause.literals,
      CSP.Accepted (variablesOf items) literal)
    (hplaced : Placed items) (execute : Solver.Execute) (display : Solver.Display) (fuel : ℕ) :
    main execute display fuel (items.flatMap Item.arguments) =
        run execute display fuel (optionsOf items) (plainArguments items) ∧
      ∀ other : List Item, other.filter Item.isPlain = items.filter Item.isPlain →
        optionsOf other = optionsOf items → Placed other →
        main execute display fuel (other.flatMap Item.arguments) =
          main execute display fuel (items.flatMap Item.arguments) := by
  have hrun := main_eq_run haccepted hplaced execute display fuel
  refine ⟨hrun, fun other hplain hoptions hother => ?_⟩
  have hvariables : variablesOf other = variablesOf items := by
    rw [variablesOf, variablesOf, filterMap_congr_plain Item.declaration?_of_not_isPlain hplain]
  have haccepted' : ∀ clause ∈ other.filterMap Item.clause?, ∀ literal ∈ clause.literals,
      CSP.Accepted (variablesOf other) literal := by
    rw [hvariables, filterMap_congr_plain Item.clause?_of_not_isPlain hplain]
    exact haccepted
  rw [main_eq_run haccepted' hother, hrun, hoptions, plainArguments, plainArguments, hplain]

/-- Options before and between a declaration and a clause, and a path without a comment
at the end. -/
theorem main_items_mixed :
    let request : FileRequest := ⟨"out.dimacs".toList, none, by decide, by simp⟩
    let items : List Item := [.interprete,
      .declaration ⟨singleLetter 'x' rfl, ⟨true, singleDigit '1' rfl⟩,
        ⟨false, singleDigit '2' rfl⟩, by decide⟩,
      .verbose, .clause ⟨["x<=1".toList], by decide, by
        rw [List.forall_mem_singleton]; exact forall_isSpace_eq_false (by decide),
        by decide, by decide⟩, .file request]
    main Solver.bruteForce (fun _ problem => problem) 5 (items.flatMap Item.arguments) =
        run Solver.bruteForce (fun _ problem => problem) 5 (optionsOf items)
          (plainArguments items) ∧
      ∀ other : List Item, other.filter Item.isPlain = items.filter Item.isPlain →
        optionsOf other = optionsOf items → Placed other →
        main Solver.bruteForce (fun _ problem => problem) 5 (other.flatMap Item.arguments) =
          main Solver.bruteForce (fun _ problem => problem) 5
            (items.flatMap Item.arguments) := by
  intro request items
  have haccepted : ∀ clause ∈ items.filterMap Item.clause?, ∀ literal ∈ clause.literals,
      CSP.Accepted (variablesOf items) literal := by decide +kernel
  have hplaced : Placed items := by
    refine ⟨by decide, fun pre f post hitems _ => Or.inl ?_⟩
    simp [items, List.cons_eq_append_iff] at hitems
    exact hitems.2.2
  exact main_items haccepted hplaced Solver.bruteForce _ 5

end Script

end Sato
