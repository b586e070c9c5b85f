/-
Tree-adjoining grammars that are written and read again.

* `IsTreeName`: the names with a character that is not blank, of those that are read;
* `readTrees_text`: named trees are read from their texts behind other trees;
* `readTreeAdjoining_text`: so is a grammar whose trees have such names and readable labels;
* `readTreeAdjoining_text_of_read`: so is every grammar that has been read from a file.
-/
import DeductiveParsing.Proofs.GrammarFile.RoundTrip
import DeductiveParsing.Proofs.GrammarFile.TreeAdjoining
import DeductiveParsing.Proofs.Tree.Text

namespace DeductiveParsing

open Deduction (bind_eq_ok)

/-! ### Names -/

namespace Text

variable {cs : List Char} {c : Char}

/-- What is left of a text without the blanks at its end does not end in a blank. -/
lemma trimEnd_eq_nil_or (cs : List Char) :
    trimEnd cs = [] ∨ ∃ ds d, trimEnd cs = ds ++ [d] ∧ isBlank d = false := by
  induction cs with
  | nil => exact Or.inl rfl
  | cons c cs ih =>
      rw [trimEnd]
      split
      next hnil =>
        by_cases hc : isBlank c = true
        · exact Or.inl (if_pos hc)
        · exact Or.inr ⟨[], c, by simp [hc], by simpa using hc⟩
      next hne =>
        obtain ⟨ds, d, heq, hd⟩ := ih.resolve_left hne
        exact Or.inr ⟨c :: ds, d, by rw [heq, List.cons_append], hd⟩

lemma isTrimmed_cons_trimEnd (hc : isBlank c = false) : IsTrimmed (c :: trimEnd cs) := by
  refine ⟨⟨c, _, rfl, hc⟩, ?_⟩
  rcases trimEnd_eq_nil_or cs with hnil | ⟨ds, d, heq, hd⟩
  · exact ⟨[], c, by rw [hnil, List.nil_append], hc⟩
  · exact ⟨c :: ds, d, by rw [heq, List.cons_append], hd⟩

end Text

namespace GrammarFile

/-- Whether a name does not begin or end with a blank and has no colon but as its first character,
so that it ends at the colon that is printed behind it. -/
structure IsTreeName (name : List Char) : Prop where
  isTrimmed : Text.IsTrimmed name
  colon_not_mem : ':' ∉ name.tail

lemma eq_of_splitColon? {c : Char} {cs name rest : List Char}
    (h : splitColon? (c :: cs) = some (name, rest)) :
    name = c :: Text.trimEnd (cs.takeWhile (· ≠ ':')) ∧ cs.dropWhile (· ≠ ':') = ':' :: rest ∧
      rest ≠ [] := by
  rw [splitColon?] at h
  split at h
  next first d rest' hdrop =>
    obtain ⟨rfl, rfl⟩ := Prod.mk.inj (Option.some.inj h)
    have hfirst := List.head?_dropWhile_not (· ≠ ':') cs
    rw [hdrop] at hfirst
    obtain rfl : first = ':' := by simpa using hfirst
    exact ⟨rfl, hdrop, List.cons_ne_nil _ _⟩
  next => cases h

lemma splitColon?_eq_none_of_cons {b c : Char} {cs name rest : List Char} (hc : c ≠ ':')
    (h : splitColon? (b :: c :: cs) = some (name, rest)) : splitColon? (c :: cs) ≠ none := by
  obtain ⟨-, hdrop, hrest⟩ := eq_of_splitColon? h
  rw [List.dropWhile_cons_of_pos (by simpa using hc)] at hdrop
  obtain ⟨d, rest', rfl⟩ := List.exists_cons_of_ne_nil hrest
  rw [splitColon?, hdrop]
  simp

/-- A name that is cut off is such a name, unless it consists of blanks. -/
lemma isTreeName_of_splitName? {cs name value : List Char} (h : splitName? cs = some (name, value))
    (hname : ∃ c ∈ name, Text.isBlank c = false) : IsTreeName name := by
  rw [splitName?] at h
  obtain ⟨⟨name', rest⟩, hsplit, h⟩ := Option.map_eq_some_iff.1 h
  obtain ⟨rfl, -⟩ := Prod.mk.inj h
  have hcolon : ∀ ds : List Char, ':' ∉ Text.trimEnd (ds.takeWhile (· ≠ ':')) := by
    intro ds hmem
    simpa using List.mem_takeWhile_imp ((Text.trimEnd_sublist _).subset hmem)
  rw [Option.orElse_eq_orElse, Option.orElse_eq_or] at hsplit
  cases htext : Text.trimStart cs with
  | nil =>
      rw [htext] at hsplit
      rcases Option.or_eq_some_iff.1 hsplit with hsplit | ⟨-, hsplit⟩
      · cases hsplit
      · obtain ⟨b, -, hsplit⟩ := Option.bind_eq_some_iff.1 hsplit
        cases hsplit
  | cons c ds =>
      rw [htext] at hsplit
      rcases Option.or_eq_some_iff.1 hsplit with hsplit | ⟨hnone, hsplit⟩
      · obtain ⟨rfl, -⟩ := eq_of_splitColon? hsplit
        exact ⟨Text.isTrimmed_cons_trimEnd (Text.isBlank_of_trimStart_eq_cons htext), hcolon ds⟩
      · -- only in front of a colon does a name begin with a blank, and then it is that blank
        obtain ⟨b, hb, hsplit⟩ := Option.bind_eq_some_iff.1 hsplit
        obtain rfl : c = ':' := by
          by_contra hc
          exact splitColon?_eq_none_of_cons hc hsplit hnone
        obtain ⟨rfl, -⟩ := eq_of_splitColon? hsplit
        have hblank : Text.isBlank b = true :=
          List.mem_takeWhile_imp (List.mem_of_getLast? hb)
        obtain ⟨d, hd, hdblank⟩ := hname
        have hd : d = b := by simpa [Text.trimEnd] using hd
        rw [hd, hblank] at hdblank
        cases hdblank

/-! ### Named trees -/

/-- Whether a tree and its name can be read from an entry. -/
structure IsReadableTree (named : String × Tree) : Prop where
  name : IsTreeName named.1.toList
  isEntry : IsEntry named.1.toList
  tree : ∃ cs, IsEntry cs ∧ named.2.HasWordsIn cs

variable {line : ℕ} {cs : List Char} {named : String × Tree} {kind : TreeKind}

/-- A tree that is read is such a tree, unless its name consists of blanks. -/
lemma isReadableTree_of_readNamedTree (h : readNamedTree line cs = .ok named) (hcs : IsEntry cs)
    (hname : ∃ c ∈ named.1.toList, Text.isBlank c = false) : IsReadableTree named := by
  rw [readNamedTree] at h
  split at h
  · cases h
  next name value hsplit =>
    obtain ⟨hsubname, hsubvalue⟩ := subset_of_splitName? hsplit
    split at h
    next tree htree =>
      obtain rfl := Except.ok.inj h
      have hwords := Tree.hasWordsIn_of_read htree
      rw [String.toList_ofList] at hname hwords
      refine ⟨?_, ?_, value, hcs.mono hsubvalue, hwords⟩
      · rw [String.toList_ofList]
        exact isTreeName_of_splitName? hsplit hname
      · rw [String.toList_ofList]
        exact hcs.mono hsubname
    · cases h

lemma toList_namedText (named : String × Tree) :
    (namedText named).toList = named.1.toList ++ ' ' :: ':' :: ' ' :: named.2.text.toList := by
  simp [namedText]

/-- The text of such a tree is an entry. -/
lemma IsReadableTree.isEntry_text (h : IsReadableTree named) :
    IsEntry (namedText named).toList := by
  obtain ⟨cs, hcs, hwords⟩ := h.tree
  have hmarks : ∀ marks : List Char, '"' ∉ marks → '\n' ∉ marks → IsEntry (marks ++ cs) :=
    fun marks hquote hnewline => IsEntry.append ⟨hquote, hnewline⟩ hcs
  have htree : IsEntry named.2.text.toList :=
    (hmarks ['(', ')', ' '] (by decide) (by decide)).mono hwords.text_subset
  have hcolon : IsEntry [' ', ':', ' '] := ⟨by decide, by decide⟩
  rw [toList_namedText]
  exact h.isEntry.append (hcolon.append htree)

/-- A tree and its name are read from their text. -/
theorem readNamedTree_text (h : IsReadableTree named) (line : ℕ) :
    readNamedTree line (namedText named).toList = .ok named := by
  obtain ⟨cs, -, hwords⟩ := h.tree
  obtain ⟨⟨c, rest, hname, hc⟩, -⟩ := h.name.isTrimmed
  have hsplit : splitName? (namedText named).toList =
      some (named.1.toList, named.2.text.toList) := by
    rw [toList_namedText, hname]
    exact splitName?_append (hname ▸ h.name.isTrimmed) (by simpa [hname] using h.name.colon_not_mem)
      hwords.isTrimmed_text
  rw [readNamedTree, hsplit]
  simp only [String.ofList_toList, Tree.read_text hwords]

/-- Trees with new names and suitable feet are read from their texts behind other trees. -/
theorem readTrees_text {known trees : List (String × Tree)}
    (hnames : ((known ++ trees).map Prod.fst).Nodup)
    (hfeet : ∀ named ∈ trees, checkFeet kind named.2 = none)
    (hreadable : ∀ named ∈ trees, IsReadableTree named) :
    readTrees kind ⟨line, (trees.map namedText).map String.toList⟩ known =
      .ok (known ++ trees) := by
  rw [readTrees]
  induction trees generalizing known with
  | nil =>
      rw [List.append_nil]
      rfl
  | cons named trees ih =>
      obtain ⟨hfoot, hfeet⟩ := List.forall_mem_cons.1 hfeet
      obtain ⟨hnamed, hreadable⟩ := List.forall_mem_cons.1 hreadable
      have hnew : known.lookup named.1 = none := by
        refine TreeAdjoining.lookup_eq_none_of_not_mem fun hmem => ?_
        rw [List.map_append, List.nodup_append] at hnames
        exact hnames.2.2 _ hmem named.1 (by simp) rfl
      have hread : readTree kind line known (namedText named).toList = .ok (known ++ [named]) := by
        refine bind_eq_ok.2 ⟨named, readNamedTree_text hnamed line, ?_⟩
        simp only [hfoot, hnew]
        rfl
      have hrest := @ih (known ++ [named]) (by simpa using hnames) hfeet hreadable
      rw [List.append_assoc, List.singleton_append] at hrest
      exact bind_eq_ok.2 ⟨_, hread, hrest⟩

/-! ### Grammars -/

/-- The sections of a grammar with trees, as it is printed. -/
lemma readSections_treeSignature {nonterminals terminals initial auxiliary : List String}
    {start : String} (hnonterminals : ∀ a ∈ nonterminals, IsEntry a.toList)
    (hterminals : ∀ a ∈ terminals, IsEntry a.toList) (hinitial : ∀ a ∈ initial, IsEntry a.toList)
    (hauxiliary : ∀ a ∈ auxiliary, IsEntry a.toList) (hstart : IsEntry start.toList) :
    readSections ['N', 'T', 'S', 'I', 'A'] ("G = <N, T, I, A, S>\n" ++
        declaration "N" nonterminals ++ declaration "T" terminals ++ declaration "I" initial ++
        declaration "A" auxiliary ++ startLine start) =
      .ok [('N', ⟨2, nonterminals.map String.toList⟩), ('T', ⟨3, terminals.map String.toList⟩),
        ('I', ⟨4, initial.map String.toList⟩), ('A', ⟨5, auxiliary.map String.toList⟩),
        ('S', ⟨6, [start.toList]⟩)] := by
  have hfile : ("G = <N, T, I, A, S>\n" ++ declaration "N" nonterminals ++
      declaration "T" terminals ++ declaration "I" initial ++ declaration "A" auxiliary ++
      startLine start).toList =
        ("G = <N, T, I, A, S>".toList :: [braced 'N' (nonterminals.map String.toList),
          braced 'T' (terminals.map String.toList), braced 'I' (initial.map String.toList),
          braced 'A' (auxiliary.map String.toList), headed 'S' (quoted start.toList)]).flatMap
            (· ++ ['\n']) := by
    simp [toList_declaration "N" 'N' rfl, toList_declaration "T" 'T' rfl,
      toList_declaration "I" 'I' rfl, toList_declaration "A" 'A' rfl, toList_startLine]
  have hlines : List.Forall₂ (fun (d : Char × List (List Char)) line => IsSectionLine d.1 d.2 line)
      [('N', nonterminals.map String.toList), ('T', terminals.map String.toList),
        ('I', initial.map String.toList), ('A', auxiliary.map String.toList),
        ('S', [start.toList])] _ :=
    .cons (isSectionLine_names (show IsName 'N' from by decide) hnonterminals) <|
      .cons (isSectionLine_names (show IsName 'T' from by decide) hterminals) <|
      .cons (isSectionLine_names (show IsName 'I' from by decide) hinitial) <|
      .cons (isSectionLine_names (show IsName 'A' from by decide) hauxiliary) <|
      .cons (isSectionLine_quoted (show IsName 'S' from by decide) hstart) .nil
  have hsignature : readLine ['N', 'T', 'S', 'I', 'A'] 1
      (Text.trim "G = <N, T, I, A, S>".toList) [] = .ok [] :=
    readLine_headed_signature ⟨⟨'G', _, rfl, by decide⟩, "G = <N, T, I, A, S".toList, '>', rfl,
      by decide⟩ 1 []
  exact readSections_lines hfile (by decide) hsignature hlines
    (show ∀ name ∈ ['N', 'T', 'I', 'A', 'S'], _ from by simp)
    (show ['N', 'T', 'I', 'A', 'S'].Nodup from by decide)

open TreeAdjoining in
/-- A tree-adjoining grammar is read from its text, if its names are entries and its trees are
sorted by their names, are readable and have suitable feet. -/
theorem readTreeAdjoining_text {g : Grammar}
    (hnonterminals : ∀ a ∈ g.nonterminals, IsEntry a.toList)
    (hterminals : ∀ a ∈ g.terminals, IsEntry a.toList) (hstart : IsEntry g.start.toList)
    (hnodup : (g.trees.map Prod.fst).Nodup) (hsorted : IsSorted g.initial ∧ IsSorted g.auxiliary)
    (hinitial : ∀ named ∈ g.initial, checkFeet .initial named.2 = none)
    (hauxiliary : ∀ named ∈ g.auxiliary, checkFeet .auxiliary named.2 = none)
    (htrees : ∀ named ∈ g.trees, IsReadableTree named) :
    readTreeAdjoining (textOfTreeAdjoining g) = .ok g := by
  obtain ⟨hi, ha⟩ := List.forall_mem_append.1 htrees
  have htexts : ∀ {trees : NamedTrees}, (∀ named ∈ trees, IsReadableTree named) →
      ∀ text ∈ trees.map namedText, IsEntry text.toList := by
    intro trees h text hmem
    obtain ⟨named, hnamed, rfl⟩ := List.mem_map.1 hmem
    exact (h named hnamed).isEntry_text
  have hsections :=
    readSections_treeSignature hnonterminals hterminals (htexts hi) (htexts ha) hstart
  have hnodup' : (g.initial.map Prod.fst).Nodup := by
    rw [Grammar.trees, List.map_append] at hnodup
    exact hnodup.of_append_left
  have hreadInitial : readTrees .initial ⟨4, _⟩ [] = .ok g.initial :=
    readTrees_text (show (([] ++ g.initial).map Prod.fst).Nodup from hnodup') hinitial hi
  have hreadAuxiliary : readTrees .auxiliary ⟨5, _⟩ g.initial = .ok (g.initial ++ g.auxiliary) :=
    readTrees_text hnodup hauxiliary ha
  refine bind_eq_ok.2 ⟨_, hsections, bind_eq_ok.2 ⟨g.nonterminals, ?_,
    bind_eq_ok.2 ⟨g.terminals, ?_, bind_eq_ok.2 ⟨g.start, ?_, bind_eq_ok.2 ⟨_, rfl,
      bind_eq_ok.2 ⟨g.initial, ?_, bind_eq_ok.2 ⟨g.initial ++ g.auxiliary, ?_, ?_⟩⟩⟩⟩⟩⟩⟩
  · exact congrArg Except.ok (map_ofList_toList g.nonterminals)
  · exact congrArg Except.ok (map_ofList_toList g.terminals)
  · exact congrArg Except.ok String.ofList_toList
  · exact hreadInitial
  · exact hreadAuxiliary
  · rw [List.drop_left, ofNamed_eq_self hsorted.1, ofNamed_eq_self hsorted.2]
    rfl

/-- Every tree-adjoining grammar that is read from a file is read from its own text again, with the
same symbols and with the same trees under the same names, unless a name consists of blanks. -/
theorem readTreeAdjoining_text_of_read (file : String) (g : TreeAdjoining.Grammar)
    (h : readTreeAdjoining file = .ok g)
    (hnames : ∀ named ∈ g.trees, ∃ c ∈ named.1.toList, Text.isBlank c = false) :
    readTreeAdjoining (textOfTreeAdjoining g) = .ok g := by
  obtain ⟨sections, hsections, h⟩ := exists_isReadFrom_of_read h
  refine readTreeAdjoining_text (isEntry_of_names hsections h.nonterminals)
    (isEntry_of_names hsections h.terminals) (isEntry_of_start hsections h.start) h.nodup_names
    h.isSorted h.checkFeet_initial h.checkFeet_auxiliary fun named hnamed => ?_
  obtain ⟨s, hs, entry, hentry, hread⟩ := h.exists_entry named hnamed
  exact isReadableTree_of_readNamedTree hread (isEntry_of_readSections hsections s hs entry hentry)
    (hnames named hnamed)

/-- A file whose names and labels look like parts of a file. -/
def oddTreeFile : String :=
  "N = \x7b\"S\", \"A*\"\x7d\nT = \x7b\"a:b\"\x7d\n" ++
    "A = \x7b\" β : (A** : (S))\", \"**:***\"\x7d\n" ++
    "I = \x7b\":2nd  tree:(S a:b A*b )\", \"(S) :S\"\x7d\nS = \"S\"\n"

/-- The grammar in that file. -/
def oddTreeGrammar : TreeAdjoining.Grammar :=
  ⟨["S", "A*"], ["a:b"], "S",
    [("(S)", .leaf "S"), (":2nd  tree", .branch "S" [.leaf "a:b", .leaf "A*b"])],
    [("**", .footLeaf "**"), ("β", ⟨"A*", true, [.leaf ":", .leaf "S"]⟩)]⟩

/-- A file without auxiliary trees. -/
def initialTreeFile : String :=
  "N = \x7b\"S\"\x7d\nT = \x7b\x7d\nS = \"S\"\nI = \x7b\"α 1: (S (S) S)\"\x7d\n"

/-- The grammar in that file. -/
def initialTreeGrammar : TreeAdjoining.Grammar :=
  ⟨["S"], [], "S", [("α 1", .branch "S" [.leaf "S", .leaf "S"])], []⟩

lemma read_oddTreeFile : readTreeAdjoining oddTreeFile = .ok oddTreeGrammar := by decide +kernel

lemma read_initialTreeFile : readTreeAdjoining initialTreeFile = .ok initialTreeGrammar := by decide +kernel

theorem readTreeAdjoining_text_of_read_odd :
    (readTreeAdjoining oddTreeFile = .ok oddTreeGrammar ∧
      (∀ named ∈ oddTreeGrammar.trees, ∃ c ∈ named.1.toList, Text.isBlank c = false) ∧
      readTreeAdjoining (textOfTreeAdjoining oddTreeGrammar) = .ok oddTreeGrammar) ∧
    readTreeAdjoining initialTreeFile = .ok initialTreeGrammar ∧
    (∀ named ∈ initialTreeGrammar.trees, ∃ c ∈ named.1.toList, Text.isBlank c = false) ∧
    readTreeAdjoining (textOfTreeAdjoining initialTreeGrammar) = .ok initialTreeGrammar := by
  have hodd : ∀ named ∈ oddTreeGrammar.trees, ∃ c ∈ named.1.toList, Text.isBlank c = false := by
    simp [oddTreeGrammar, TreeAdjoining.Grammar.trees, Text.isBlank]
  have hinitial : ∀ named ∈ initialTreeGrammar.trees,
      ∃ c ∈ named.1.toList, Text.isBlank c = false := by
    simp [initialTreeGrammar, TreeAdjoining.Grammar.trees, Text.isBlank]
  exact ⟨⟨read_oddTreeFile, hodd, readTreeAdjoining_text_of_read _ _ read_oddTreeFile hodd⟩,
    read_initialTreeFile, hinitial,
    readTreeAdjoining_text_of_read _ _ read_initialTreeFile hinitial⟩

end GrammarFile

end DeductiveParsing
