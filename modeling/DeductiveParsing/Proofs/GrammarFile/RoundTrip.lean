/-
Grammars that are written and read again.

* `readSections_signature`: the sections of a grammar with productions, as it is printed;
* `readWeighted_text`: a weighted production is read from its text, if its weight is;
* `readContextFree_text`, `readWeightedGrammar_text`: so are the grammars;
* `readContextFree_and_readWeightedGrammar_text`: all that have been read from a file.
-/
import DeductiveParsing.Proofs.Decimal.Text
import DeductiveParsing.Proofs.GrammarFile.Entries
import DeductiveParsing.Proofs.GrammarFile.Weighted
import DeductiveParsing.Weight.Double

namespace DeductiveParsing.GrammarFile

open Deduction (bind_eq_ok exists_of_mem_mapM mapM_map_eq_ok)

/-! ### Signatures -/

section Signatures

variable {allowed : List Char} {file : String} {sections : Sections} {name : Char}

lemma isEntry_of_names (h : readSections allowed file = .ok sections) {names : List String}
    (hnames : sections.names name = .ok names) : ∀ a ∈ names, IsEntry a.toList := by
  obtain ⟨s, hs, hnames⟩ := bind_eq_ok.1 hnames
  obtain rfl := Except.ok.inj hnames
  intro a ha
  obtain ⟨entry, hentry, rfl⟩ := List.mem_map.1 ha
  rw [String.toList_ofList]
  exact isEntry_of_need (isEntry_of_readSections h) hs entry hentry

lemma isEntry_of_start (h : readSections allowed file = .ok sections) {start : String}
    (hstart : sections.start = .ok start) : IsEntry start.toList := by
  obtain ⟨s, hs, hstart⟩ := bind_eq_ok.1 hstart
  have hentries := isEntry_of_need (isEntry_of_readSections h) hs
  split at hstart
  next entry heq =>
    obtain rfl := Except.ok.inj hstart
    rw [String.toList_ofList]
    exact hentries entry (heq ▸ List.mem_singleton_self entry)
  · cases hstart

/-- The line of a section of names declares these. -/
lemma isSectionLine_names {names : List String} (hname : IsName name)
    (hnames : ∀ a ∈ names, IsEntry a.toList) :
    IsSectionLine name (names.map String.toList) (braced name (names.map String.toList)) := by
  refine isSectionLine_braced hname fun text htext => ?_
  obtain ⟨a, ha, rfl⟩ := List.mem_map.1 htext
  exact hnames a ha

/-- The sections of a grammar with productions, as it is printed. -/
lemma readSections_signature {nonterminals terminals texts : List String} {start : String}
    (hnonterminals : ∀ a ∈ nonterminals, IsEntry a.toList)
    (hterminals : ∀ a ∈ terminals, IsEntry a.toList) (hstart : IsEntry start.toList)
    (htexts : ∀ text ∈ texts, IsEntry text.toList) :
    readSections ['N', 'T', 'S', 'P'] ("G = <N, T, S, P>\n" ++ declaration "N" nonterminals ++
        declaration "T" terminals ++ startLine start ++ declaration "P" texts) =
      .ok [('N', ⟨2, nonterminals.map String.toList⟩), ('T', ⟨3, terminals.map String.toList⟩),
        ('S', ⟨4, [start.toList]⟩), ('P', ⟨5, texts.map String.toList⟩)] := by
  have hfile : ("G = <N, T, S, P>\n" ++ declaration "N" nonterminals ++
      declaration "T" terminals ++ startLine start ++ declaration "P" texts).toList =
        ("G = <N, T, S, P>".toList :: [braced 'N' (nonterminals.map String.toList),
          braced 'T' (terminals.map String.toList), headed 'S' (quoted start.toList),
          braced 'P' (texts.map String.toList)]).flatMap (· ++ ['\n']) := by
    simp [toList_declaration "N" 'N' rfl, toList_declaration "T" 'T' rfl, toList_declaration "P" 'P' rfl,
      toList_startLine]
  have hlines : List.Forall₂ (fun (d : Char × List (List Char)) line => IsSectionLine d.1 d.2 line)
      [('N', nonterminals.map String.toList), ('T', terminals.map String.toList),
        ('S', [start.toList]), ('P', texts.map String.toList)] _ :=
    .cons (isSectionLine_names (show IsName 'N' from by decide) hnonterminals) <|
      .cons (isSectionLine_names (show IsName 'T' from by decide) hterminals) <|
      .cons (isSectionLine_quoted (show IsName 'S' from by decide) hstart) <|
      .cons (isSectionLine_names (show IsName 'P' from by decide) htexts) .nil
  have hsignature : readLine ['N', 'T', 'S', 'P'] 1 (Text.trim "G = <N, T, S, P>".toList) [] =
      .ok [] :=
    readLine_headed_signature ⟨⟨'G', _, rfl, by decide⟩, "G = <N, T, S, P".toList, '>', rfl,
      by decide⟩ 1 []
  exact readSections_lines hfile (by decide) hsignature hlines
    (show ∀ name ∈ ['N', 'T', 'S', 'P'], _ from by simp)
    (show ['N', 'T', 'S', 'P'].Nodup from by decide)

end Signatures

/-! ### Context-free grammars -/

lemma map_ofList_toList (names : List String) :
    (names.map String.toList).map String.ofList = names := by
  rw [List.map_map, show String.ofList ∘ String.toList = id from funext fun _ =>
    String.ofList_toList, List.map_id]

/-- A context-free grammar is read from its text, if its names are entries and its productions are
readable. -/
theorem readContextFree_text {g : ContextFree.Grammar}
    (hnonterminals : ∀ a ∈ g.nonterminals, IsEntry a.toList)
    (hterminals : ∀ a ∈ g.terminals, IsEntry a.toList) (hstart : IsEntry g.start.toList)
    (hproductions : ∀ p ∈ g.productions, IsReadable g.nonterminals p) :
    readContextFree (textOfContextFree g) = .ok g := by
  have htexts : ∀ text ∈ g.productions.map Production.text, IsEntry text.toList := by
    intro text hmem
    obtain ⟨p, hp, rfl⟩ := List.mem_map.1 hmem
    exact (hproductions p hp).isEntry
  have hsections := readSections_signature hnonterminals hterminals hstart htexts
  refine bind_eq_ok.2 ⟨_, hsections, bind_eq_ok.2 ⟨g.nonterminals, ?_, bind_eq_ok.2 ⟨g.terminals, ?_,
    bind_eq_ok.2 ⟨g.start, ?_, bind_eq_ok.2 ⟨_, rfl, bind_eq_ok.2 ⟨g.productions, ?_, rfl⟩⟩⟩⟩⟩⟩
  · exact congrArg Except.ok (map_ofList_toList g.nonterminals)
  · exact congrArg Except.ok (map_ofList_toList g.terminals)
  · exact congrArg Except.ok String.ofList_toList
  · rw [List.map_map]
    exact mapM_map_eq_ok fun p hp => readProduction_text (hproductions p hp) 5

/-! ### Weighted grammars -/

section Weighted

variable {W : Type} [Weight W]

/-- A weighted production that is read from an entry is readable. -/
lemma isReadable_of_readWeighted {line : ℕ} {nonterminals : List String} {cs : List Char}
    {p : Weighted.Production W} (h : readWeighted line nonterminals cs = .ok p) (hcs : IsEntry cs) :
    IsReadable nonterminals p.production := by
  obtain ⟨name, value, hsplit, -, hread⟩ := readWeighted_eq_ok.1 h
  exact isReadable_of_readProduction hread (hcs.mono (subset_of_splitName? hsplit).2)

/-- A weighted production is read from its text, if its weight is. -/
lemma readWeighted_text {nonterminals : List String} {p : Weighted.Production W}
    (hp : IsReadable nonterminals p.production) (hne : (Weight.text p.weight).toList ≠ [])
    (hplain : ∀ c ∈ (Weight.text p.weight).toList, Decimal.IsPlain c)
    (hread : Weight.read? (Weight.text p.weight).toList = some p.weight)
    (hprobability : Weight.isProbability p.weight = true) (line : ℕ) :
    readWeighted line nonterminals p.text.toList = .ok p := by
  have htrimmed := Text.isTrimmed_of_forall hne fun c hc => (hplain c hc).1
  have htext : p.text.toList =
      (Weight.text p.weight).toList ++ ' ' :: ':' :: ' ' :: p.production.text.toList := by
    simp [Weighted.Production.text]
  obtain ⟨c, cs, hweight⟩ := List.exists_cons_of_ne_nil hne
  have hsplit : splitName? p.text.toList =
      some ((Weight.text p.weight).toList, p.production.text.toList) := by
    rw [htext, hweight]
    exact splitName?_append (hweight ▸ htrimmed)
      (fun hcolon => (hplain ':' (hweight ▸ List.mem_cons_of_mem _ hcolon)).2.1 rfl) hp.isTrimmed
  exact readWeighted_eq_ok.2 ⟨_, _, hsplit, Option.filter_eq_some_iff.2 ⟨hread, hprobability⟩,
    readProduction_text hp line⟩

/-- The text of a weighted production is an entry. -/
lemma isEntry_text {nonterminals : List String} {p : Weighted.Production W}
    (hp : IsReadable nonterminals p.production)
    (hplain : ∀ c ∈ (Weight.text p.weight).toList, Decimal.IsPlain c) : IsEntry p.text.toList := by
  have hweight : IsEntry (Weight.text p.weight).toList :=
    ⟨fun hquote => (hplain _ hquote).2.2 rfl, fun hnewline =>
      absurd (hplain _ hnewline).1 (by decide)⟩
  have hcolon : IsEntry [' ', ':', ' '] := ⟨by decide, by decide⟩
  simpa [Weighted.Production.text] using hweight.append (hcolon.append hp.isEntry)

/-- A weighted grammar is read from its text, if its names are entries, its productions are readable
and their probabilities are read from their texts. -/
theorem readWeightedGrammar_text {g : Weighted.Grammar W}
    (hnonterminals : ∀ a ∈ g.nonterminals, IsEntry a.toList)
    (hterminals : ∀ a ∈ g.terminals, IsEntry a.toList) (hstart : IsEntry g.start.toList)
    (hproductions : ∀ p ∈ g.productions, IsReadable g.nonterminals p.production ∧
      Weight.isProbability p.weight = true)
    (htext : ∀ w : W, (Weight.text w).toList ≠ [] ∧ ∀ c ∈ (Weight.text w).toList,
      Decimal.IsPlain c)
    (hread : ∀ p ∈ g.productions,
      Weight.read? (Weight.text p.weight).toList = some p.weight) :
    readWeightedGrammar (textOfWeighted g) = .ok g := by
  have htexts : ∀ text ∈ g.productions.map Weighted.Production.text, IsEntry text.toList := by
    intro text hmem
    obtain ⟨p, hp, rfl⟩ := List.mem_map.1 hmem
    exact isEntry_text (hproductions p hp).1 (htext p.weight).2
  have hsections := readSections_signature hnonterminals hterminals hstart htexts
  refine bind_eq_ok.2 ⟨_, hsections, bind_eq_ok.2 ⟨g.nonterminals, ?_, bind_eq_ok.2 ⟨g.terminals, ?_,
    bind_eq_ok.2 ⟨g.start, ?_, bind_eq_ok.2 ⟨_, rfl, bind_eq_ok.2 ⟨g.productions, ?_, rfl⟩⟩⟩⟩⟩⟩
  · exact congrArg Except.ok (map_ofList_toList g.nonterminals)
  · exact congrArg Except.ok (map_ofList_toList g.terminals)
  · exact congrArg Except.ok String.ofList_toList
  · rw [List.map_map]
    exact mapM_map_eq_ok fun p hp => readWeighted_text (hproductions p hp).1 (htext p.weight).1
      (htext p.weight).2 (hread p hp) (hproductions p hp).2 5

end Weighted

/-! ### Grammars that have been read -/

/-- Every context-free grammar that is read from a file is read from its own text again, with the
same symbols and productions. So is every weighted grammar, whose probabilities are double precision
numbers, provided that these are read from the texts of their own. -/
theorem readContextFree_and_readWeightedGrammar_text :
    (∀ (file : String) (g : ContextFree.Grammar), readContextFree file = .ok g →
      readContextFree (textOfContextFree g) = .ok g) ∧
    ∀ (file : String) (g : Weighted.Grammar Float), readWeightedGrammar file = .ok g →
      (∀ p ∈ g.productions,
        Decimal.readFloat? (Decimal.textOf p.weight).toList = some p.weight) →
      readWeightedGrammar (textOfWeighted g) = .ok g := by
  constructor
  · intro file g h
    obtain ⟨sections, hsections, h⟩ := bind_eq_ok.1 h
    obtain ⟨nonterminals, hnonterminals, h⟩ := bind_eq_ok.1 h
    obtain ⟨terminals, hterminals, h⟩ := bind_eq_ok.1 h
    obtain ⟨start, hstart, h⟩ := bind_eq_ok.1 h
    obtain ⟨s, hs, h⟩ := bind_eq_ok.1 h
    obtain ⟨productions, hproductions, h⟩ := bind_eq_ok.1 h
    obtain rfl := Except.ok.inj h
    refine readContextFree_text (isEntry_of_names hsections hnonterminals)
      (isEntry_of_names hsections hterminals) (isEntry_of_start hsections hstart) fun p hp => ?_
    obtain ⟨entry, hentry, hread⟩ := exists_of_mem_mapM hproductions p hp
    exact isReadable_of_readProduction hread
      (isEntry_of_need (isEntry_of_readSections hsections) hs entry hentry)
  · intro file g h hread
    have hprobability := fun p hp => (exists_of_readWeightedGrammar h p hp).1
    obtain ⟨sections, hsections, h⟩ := bind_eq_ok.1 h
    obtain ⟨nonterminals, hnonterminals, h⟩ := bind_eq_ok.1 h
    obtain ⟨terminals, hterminals, h⟩ := bind_eq_ok.1 h
    obtain ⟨start, hstart, h⟩ := bind_eq_ok.1 h
    obtain ⟨s, hs, h⟩ := bind_eq_ok.1 h
    obtain ⟨productions, hproductions, h⟩ := bind_eq_ok.1 h
    obtain rfl := Except.ok.inj h
    refine readWeightedGrammar_text (isEntry_of_names hsections hnonterminals)
      (isEntry_of_names hsections hterminals) (isEntry_of_start hsections hstart)
      (fun p hp => ⟨?_, hprobability p hp⟩)
      (fun w => ⟨Decimal.textOf_ne_nil w, fun c => Decimal.isPlain_of_mem_textOf⟩) hread
    obtain ⟨entry, hentry, hread⟩ := exists_of_mem_mapM hproductions p hp
    exact isReadable_of_readWeighted hread
      (isEntry_of_need (isEntry_of_readSections hsections) hs entry hentry)

/-- A file whose symbols look like parts of a file. -/
def oddFile : String :=
  "N = \x7b\"S\", \"A->B\", \"\"\x7d\nT = \x7b\"a:b\", \"\x7b,\x7d\", \"=\", \"//\"\x7d\nS = \"S\"\n" ++
    "P = \x7b\"S -> A->B \x7b,\x7d\", \"A->B -> a:b -> = //\", \"A->B -> ε\"\x7d\n"

/-- The grammar in that file. -/
def oddGrammar : ContextFree.Grammar :=
  ⟨["S", "A->B", ""], ["a:b", "\x7b,\x7d", "=", "//"], "S",
    [⟨"S", [.nonterminal "A->B", .terminal "\x7b,\x7d"]⟩,
      ⟨"A->B", [.terminal "a:b", .terminal "->", .terminal "=", .terminal "//"]⟩, ⟨"A->B", []⟩]⟩

lemma read_oddFile : readContextFree oddFile = .ok oddGrammar := by decide +kernel

/-- A file with two productions, one of them as likely as the other. -/
def evenFile : String :=
  "N = \x7b\"S:\", \"\"\x7d\nT = \x7b\"->\"\x7d\nS = \"S:\"\n" ++
    "P = \x7b\"0.5 : S: -> ->\", \"0.5:S: -> S: =\"\x7d\n"

/-- The grammar in that file. -/
def evenGrammar : Weighted.Grammar Float :=
  ⟨["S:", ""], ["->"], "S:", [⟨⟨"S:", [.terminal "->"]⟩, 0.5⟩,
    ⟨⟨"S:", [.nonterminal "S:", .terminal "="]⟩, 0.5⟩]⟩

lemma read_evenFile : readWeightedGrammar evenFile = .ok evenGrammar := by
  have hsections : readSections ['N', 'T', 'S', 'P'] evenFile = .ok
      [('N', ⟨1, ["S:".toList, "".toList]⟩), ('T', ⟨2, ["->".toList]⟩), ('S', ⟨3, ["S:".toList]⟩),
        ('P', ⟨4, ["0.5 : S: -> ->".toList, "0.5:S: -> S: =".toList]⟩)] := by decide +kernel
  have hend : readWeighted 4 ["S:", ""] "0.5 : S: -> ->".toList =
      .ok ⟨⟨"S:", [.terminal "->"]⟩, (0.5 : Float)⟩ := rfl
  have hmore : readWeighted 4 ["S:", ""] "0.5:S: -> S: =".toList =
      .ok ⟨⟨"S:", [.nonterminal "S:", .terminal "="]⟩, (0.5 : Float)⟩ := rfl
  rw [readWeightedGrammar, hsections]
  exact bind_eq_ok.2 ⟨_, rfl, bind_eq_ok.2 ⟨["S:", ""], rfl, bind_eq_ok.2 ⟨["->"], rfl,
    bind_eq_ok.2 ⟨"S:", rfl, bind_eq_ok.2 ⟨_, rfl, bind_eq_ok.2 ⟨evenGrammar.productions,
      by simp only [List.mapM_cons, hend, hmore, List.mapM_nil]; rfl, rfl⟩⟩⟩⟩⟩⟩

theorem exists_readContextFree_and_readWeightedGrammar_text_odd :
    readContextFree oddFile = .ok oddGrammar ∧
    readContextFree (textOfContextFree oddGrammar) = .ok oddGrammar ∧
    readWeightedGrammar evenFile = .ok evenGrammar ∧
    readWeightedGrammar (textOfWeighted evenGrammar) = .ok evenGrammar := by
  have hhalf : Decimal.readFloat? (Decimal.textOf 0.5).toList = some 0.5 := rfl
  refine ⟨read_oddFile, readContextFree_and_readWeightedGrammar_text.1 oddFile _ read_oddFile,
    read_evenFile, readContextFree_and_readWeightedGrammar_text.2 evenFile _ read_evenFile ?_⟩
  rintro p (_ | ⟨_, _ | ⟨_, ⟨⟩⟩⟩)
  · exact hhalf
  · exact hhalf

end DeductiveParsing.GrammarFile
