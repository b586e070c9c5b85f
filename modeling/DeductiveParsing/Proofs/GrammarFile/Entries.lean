/-
Entries that are written and read again.

* `IsReadable`: what is known of a production that is read, up to its characters;
* `readProduction_text`: such a production is read from its text, whatever arrows its symbols contain;
* `subset_of_splitName?`: names and values are parts of the entry;
* `splitName?_append`: a name and a value with a colon between them are taken apart again.
-/
import DeductiveParsing.Proofs.GrammarFile.ContextFree
import DeductiveParsing.Proofs.GrammarFile.Sections

namespace DeductiveParsing.GrammarFile

variable {cs lhs body : List Char}

/-! ### Arrows -/

lemma eq_append_of_afterArrow? (h : afterArrow? cs = some body) : cs = '-' :: '>' :: body := by
  rw [afterArrow?.eq_def] at h
  split at h
  · rw [Option.some.inj h]
  · cases h

lemma eq_append_of_splitLastArrow? (h : splitLastArrow? cs = some (lhs, body)) :
    cs = lhs ++ '-' :: '>' :: body := by
  induction cs generalizing lhs with
  | nil => cases h
  | cons c cs ih =>
      rw [splitLastArrow?] at h
      split at h
      next before behind hsplit =>
        obtain ⟨rfl, rfl⟩ := Prod.mk.inj (Option.some.inj h)
        exact congrArg (c :: ·) (ih hsplit)
      next =>
        obtain ⟨_, hafter, h⟩ := Option.map_eq_some_iff.1 h
        obtain ⟨rfl, rfl⟩ := Prod.mk.inj h
        exact congrArg (c :: ·) (eq_append_of_afterArrow? hafter)

/-- The sides of a production are parts of the text, and there are no blanks on the left. -/
lemma subset_of_splitArrow? (h : splitArrow? cs = some (lhs, body)) :
    lhs ⊆ cs ∧ body ⊆ cs ∧ ∀ c ∈ lhs, Text.isBlank c = false := by
  have htext : Text.trimStart cs ⊆ cs := (List.dropWhile_sublist _).subset
  have hfirst : ∀ c ∈ (Text.trimStart cs).takeWhile fun c => !Text.isBlank c,
      c ∈ cs ∧ Text.isBlank c = false := fun c hc =>
    ⟨htext ((List.takeWhile_sublist _).subset hc), by simpa using List.mem_takeWhile_imp hc⟩
  have hrest : ((Text.trimStart cs).dropWhile fun c => !Text.isBlank c) ⊆ cs :=
    fun c hc => htext ((List.dropWhile_sublist _).subset hc)
  rw [splitArrow?] at h
  split at h
  next body' hafter =>
    obtain ⟨rfl, rfl⟩ := Prod.mk.inj (Option.some.inj h)
    have hbehind := eq_append_of_afterArrow? hafter
    refine ⟨fun c hc => (hfirst c hc).1, fun c hc => ?_, fun c hc => (hfirst c hc).2⟩
    have hmem : c ∈ Text.trimStart
        ((Text.trimStart cs).dropWhile fun c => !Text.isBlank c) := hbehind ▸ by simp [hc]
    exact hrest ((List.dropWhile_sublist _).subset hmem)
  next =>
    obtain ⟨⟨lhs', body'⟩, hsplit, h⟩ := Option.map_eq_some_iff.1 h
    obtain ⟨rfl, rfl⟩ := Prod.mk.inj h
    have hparts := eq_append_of_splitLastArrow? hsplit
    refine ⟨fun c hc => (hfirst c (hparts ▸ by simp [hc])).1, fun c hc => ?_,
      fun c hc => (hfirst c (hparts ▸ by simp [hc])).2⟩
    rcases List.mem_append.1 hc with hc | hc
    · exact (hfirst c (hparts ▸ by simp [hc])).1
    · exact hrest hc

/-! ### Productions -/

/-- Whether a name is a word that can be part of an entry. -/
structure IsSymbolName (name : String) : Prop where
  ne_nil : name.toList ≠ []
  not_blank : ∀ c ∈ name.toList, Text.isBlank c = false
  isEntry : IsEntry name.toList

/-- Whether the names in a production are such words and the symbols on the right-hand side are
those of declared nonterminals and of terminals, without the letter for the empty string. -/
structure IsReadable (nonterminals : List String) (p : Production) : Prop where
  lhs : IsSymbolName p.lhs
  rhs : ∀ s ∈ p.rhs, IsSymbolName s.name ∧ s.name ≠ epsilon ∧
    s = .classify nonterminals s.name

variable {nonterminals : List String} {p : Production} {line : ℕ}

/-- A production that is read from an entry is readable. -/
lemma isReadable_of_readProduction (h : readProduction line nonterminals cs = .ok p)
    (hcs : IsEntry cs) : IsReadable nonterminals p := by
  rw [readProduction] at h
  split at h
  next q hq =>
    obtain rfl := Except.ok.inj h
    obtain ⟨⟨lhs, body⟩, hsplit, hq⟩ := Option.bind_eq_some_iff.1 hq
    obtain rfl := Option.some.inj hq
    obtain ⟨hlhs, hbody, hblank⟩ := subset_of_splitArrow? hsplit
    refine ⟨⟨?_, ?_, ?_⟩, fun s hs => ?_⟩
    · simpa using ne_nil_of_splitArrow? hsplit
    · simpa using hblank
    · simpa using hcs.mono hlhs
    · obtain ⟨name, hname, rfl⟩ := List.mem_map.1 hs
      obtain ⟨hmem, hepsilon⟩ := List.mem_filter.1 hname
      obtain ⟨word, hword, rfl⟩ := List.mem_map.1 hmem
      have hchars := Text.mem_of_mem_words word hword
      rw [name_classify]
      refine ⟨⟨?_, ?_, ?_⟩, by simpa using hepsilon, rfl⟩
      · simpa using Text.ne_nil_of_mem_words word hword
      · simpa using fun c hc => (hchars c hc).2
      · simpa using hcs.mono fun c hc => hbody (hchars c hc).1
  next => cases h

/-- The words that are printed on the right-hand side. -/
def rhsWords (p : Production) : List (List Char) :=
  if p.isEmpty then [epsilon.toList] else p.rhsNames.map String.toList

lemma toList_text (p : Production) :
    p.text.toList = p.lhs.toList ++ ' ' :: '-' :: '>' :: ' ' :: [' '].intercalate (rhsWords p) := by
  rw [Production.text, rhsWords]
  split <;> simp [Production.rhsText]

lemma IsReadable.rhsWords (h : IsReadable nonterminals p) :
    ∀ word ∈ rhsWords p, word ≠ [] ∧ (∀ c ∈ word, Text.isBlank c = false) ∧ IsEntry word := by
  rw [GrammarFile.rhsWords]
  split
  · simp only [List.mem_singleton, forall_eq]
    exact ⟨by decide, by simp [epsilon, Text.isBlank], by decide, by decide⟩
  · intro word hword
    obtain ⟨name, hname, rfl⟩ := List.mem_map.1 hword
    obtain ⟨s, hs, rfl⟩ := List.mem_map.1 hname
    obtain ⟨⟨hne, hblank, hentry⟩, -⟩ := h.rhs s hs
    exact ⟨hne, hblank, hentry⟩

/-- The text of a production is an entry. -/
lemma IsReadable.isEntry (h : IsReadable nonterminals p) : IsEntry p.text.toList := by
  have hrhs : IsEntry ([' '].intercalate (GrammarFile.rhsWords p)) := by
    constructor <;> intro hmem <;> rcases Text.mem_of_mem_intercalate hmem with
      hmem | ⟨word, hword, hmem⟩
    · exact absurd hmem (by decide)
    · exact (h.rhsWords word hword).2.2.1 hmem
    · exact absurd hmem (by decide)
    · exact (h.rhsWords word hword).2.2.2 hmem
  have harrow : IsEntry [' ', '-', '>', ' '] := ⟨by decide, by decide⟩
  rw [toList_text]
  exact h.lhs.isEntry.append (harrow.append hrhs)

/-- The left-hand side ends at the arrow that is printed, since there are no blanks in it. -/
lemma splitArrow?_text (h : IsReadable nonterminals p) :
    splitArrow? p.text.toList =
      some (p.lhs.toList, ' ' :: [' '].intercalate (GrammarFile.rhsWords p)) := by
  obtain ⟨c, cs, hlhs⟩ := List.exists_cons_of_ne_nil h.lhs.ne_nil
  have hplain : ∀ d ∈ p.lhs.toList, (!Text.isBlank d) = true := fun d hd => by
    rw [h.lhs.not_blank d hd]
    rfl
  have hstart : Text.trimStart p.text.toList = p.text.toList := by
    rw [toList_text, hlhs, List.cons_append]
    exact Text.trimStart_cons (h.lhs.not_blank c (hlhs ▸ List.mem_cons_self))
  rw [splitArrow?, hstart, toList_text, List.takeWhile_append_of_pos hplain,
    List.dropWhile_append_of_pos hplain, List.takeWhile_cons_of_neg (by decide),
    List.dropWhile_cons_of_neg (by decide), Text.trimStart,
    List.dropWhile_cons_of_pos (by decide), List.dropWhile_cons_of_neg (by decide), List.append_nil]
  rfl

/-- The words on the right-hand side become its symbols again. -/
lemma classify_rhsWords (h : IsReadable nonterminals p) :
    ((((GrammarFile.rhsWords p).map String.ofList).filter (· ≠ epsilon)).map
      (Symbol.classify nonterminals)) = p.rhs := by
  rw [GrammarFile.rhsWords]
  split
  next hempty =>
    rw [List.isEmpty_iff.1 hempty]
    simp
  next =>
    have hid : String.ofList ∘ String.toList = id := funext fun _ => String.ofList_toList
    have hnames : ∀ name ∈ p.rhsNames, decide (name ≠ epsilon) = true := by
      intro name hname
      obtain ⟨s, hs, rfl⟩ := List.mem_map.1 hname
      exact decide_eq_true (h.rhs s hs).2.1
    rw [List.map_map, hid, List.map_id, List.filter_eq_self.2 hnames, Production.rhsNames,
      List.map_map]
    exact (List.map_congr_left fun s hs => (h.rhs s hs).2.2.symm).trans (List.map_id _)

/-- A production is read from its text. -/
theorem readProduction_text (h : IsReadable nonterminals p) (line : ℕ) :
    readProduction line nonterminals p.text.toList = .ok p := by
  have hwords : Text.words (' ' :: [' '].intercalate (GrammarFile.rhsWords p)) =
      GrammarFile.rhsWords p := by
    rw [Text.words, if_pos (by decide)]
    exact Text.words_intercalate fun word hword =>
      ⟨(h.rhsWords word hword).1, (h.rhsWords word hword).2.1⟩
  have hread : readProduction? nonterminals p.text.toList = some p := by
    rw [readProduction?, splitArrow?_text h]
    simp only [Option.bind_eq_bind, Option.bind_some, hwords, classify_rhsWords h,
      String.ofList_toList]
    rfl
  rw [readProduction, hread]

/-- The text of a production does not begin or end with a blank. -/
lemma IsReadable.isTrimmed (h : IsReadable nonterminals p) : Text.IsTrimmed p.text.toList := by
  have hne : GrammarFile.rhsWords p ≠ [] := by
    rw [GrammarFile.rhsWords]
    split
    · exact List.cons_ne_nil _ _
    next hempty => simpa [Production.isEmpty, Production.rhsNames] using hempty
  have hrhs : Text.IsTrimmed ([' '].intercalate (GrammarFile.rhsWords p)) :=
    Text.isTrimmed_intercalate hne fun word hword =>
      Text.isTrimmed_of_forall (h.rhsWords word hword).1 (h.rhsWords word hword).2.1
  rw [toList_text]
  have hlhs := Text.isTrimmed_of_forall h.lhs.ne_nil h.lhs.not_blank
  simpa using hlhs.append hrhs [' ', '-', '>', ' ']

/-! ### Names and values -/

lemma subset_of_splitColon? {name rest : List Char} (h : splitColon? cs = some (name, rest)) :
    name ⊆ cs ∧ rest ⊆ cs := by
  rw [splitColon?.eq_def] at h
  split at h
  · cases h
  next c ds =>
    split at h
    next first d rest' hdrop =>
      obtain ⟨rfl, rfl⟩ := Prod.mk.inj (Option.some.inj h)
      have hfirst : Text.trimEnd (ds.takeWhile (· ≠ ':')) ⊆ ds :=
        ((Text.trimEnd_sublist _).trans (List.takeWhile_sublist _)).subset
      have hrest : first :: d :: rest' ⊆ ds := hdrop ▸ (List.dropWhile_sublist _).subset
      exact ⟨List.cons_subset_cons c hfirst,
        fun e he => List.mem_cons_of_mem c (hrest (List.mem_cons_of_mem first he))⟩
    next => cases h

lemma valueOf_subset (cs : List Char) : valueOf cs ⊆ cs := by
  rw [valueOf]
  split
  next => exact fun c hc => List.mem_of_getLast? (Option.mem_toList.1 hc)
  next => exact (Text.trim_sublist cs).subset

/-- A name and a value are parts of the text. -/
lemma subset_of_splitName? {name value : List Char} (h : splitName? cs = some (name, value)) :
    name ⊆ cs ∧ value ⊆ cs := by
  have htext : Text.trimStart cs ⊆ cs := (List.dropWhile_sublist _).subset
  rw [splitName?] at h
  obtain ⟨⟨name', rest⟩, hsplit, h⟩ := Option.map_eq_some_iff.1 h
  obtain ⟨rfl, rfl⟩ := Prod.mk.inj h
  suffices hparts : name' ⊆ cs ∧ rest ⊆ cs from
    hparts.imp_right fun hrest => List.Subset.trans (valueOf_subset rest) hrest
  rw [Option.orElse_eq_orElse, Option.orElse_eq_or] at hsplit
  rcases Option.or_eq_some_iff.1 hsplit with hsplit | ⟨-, hsplit⟩
  · obtain ⟨hname, hrest⟩ := subset_of_splitColon? hsplit
    exact ⟨List.Subset.trans hname htext, List.Subset.trans hrest htext⟩
  · -- the name begins with the last of the leading blanks
    obtain ⟨b, hb, hsplit⟩ := Option.bind_eq_some_iff.1 hsplit
    have hblank : b ∈ cs := (List.takeWhile_sublist _).subset (List.mem_of_getLast? hb)
    have hcons : b :: Text.trimStart cs ⊆ cs := List.cons_subset.2 ⟨hblank, htext⟩
    obtain ⟨hname, hrest⟩ := subset_of_splitColon? hsplit
    exact ⟨List.Subset.trans hname hcons, List.Subset.trans hrest hcons⟩

/-- A name and a value are taken apart at the colon between them, if the name has none behind its
first character. -/
theorem splitName?_append {c : Char} {name value : List Char}
    (hname : Text.IsTrimmed (c :: name)) (hcolon : ':' ∉ name) (hvalue : Text.IsTrimmed value) :
    splitName? (c :: name ++ ' ' :: ':' :: ' ' :: value) = some (c :: name, value) := by
  have htrim : Text.trimEnd (name ++ [' ']) = name := by
    rw [Text.trimEnd_concat_of_blank _ (by decide)]
    have htrimmed := hname.trimEnd_eq
    rw [Text.trimEnd] at htrimmed
    split at htrimmed
    next hnil =>
      split at htrimmed
      · cases htrimmed
      · rw [hnil, (List.cons.inj htrimmed).2]
    next => exact (List.cons.inj htrimmed).2
  have hall : ∀ d ∈ name ++ [' '], decide (d ≠ ':') = true := by
    intro d hd
    refine decide_eq_true ?_
    rintro rfl
    rcases List.mem_append.1 hd with hd | hd
    · exact hcolon hd
    · exact absurd hd (by decide)
  have hsplit : splitColon? (c :: name ++ ' ' :: ':' :: ' ' :: value) =
      some (c :: name, ' ' :: value) := by
    have hassoc : name ++ ' ' :: ':' :: ' ' :: value = name ++ [' '] ++ ':' :: ' ' :: value := by
      simp
    rw [List.cons_append, splitColon?, hassoc, List.dropWhile_append_of_pos hall,
      List.takeWhile_append_of_pos hall, List.dropWhile_cons_of_neg (by decide),
      List.takeWhile_cons_of_neg (by decide), List.append_nil, htrim]
  have hstart : Text.trimStart (c :: name ++ ' ' :: ':' :: ' ' :: value) =
      c :: name ++ ' ' :: ':' :: ' ' :: value := by
    obtain ⟨⟨d, ds, heq, hd⟩, -⟩ := hname
    obtain ⟨rfl, rfl⟩ := List.cons.inj heq
    exact Text.trimStart_cons hd
  have hvalueOf : valueOf (' ' :: value) = value := by
    have htrim : Text.trim (' ' :: value) = value := by
      rw [Text.trim, Text.trimStart, List.dropWhile_cons_of_pos (by decide)]
      exact hvalue.trim_eq
    rw [valueOf, htrim]
    split
    · exact absurd rfl hvalue.ne_nil
    · rfl
  rw [splitName?, hstart, hsplit]
  exact congrArg some (congrArg _ hvalueOf)

end DeductiveParsing.GrammarFile
