/-
Sections that are written and read again.

* `IsEntry`: what can stand between double quotes on one line, which holds of all entries that are
  read;
* `entries_quoted`: the texts between double quotes are cut out again;
* `IsSectionLine`: lines that declare a section with given entries;
* `readSections_lines`: the sections of such lines are read in their order;
* `isSectionLine_braced`, `isSectionLine_quoted`: the printers write such lines.
-/
import DeductiveParsing.GrammarFile.Printer
import DeductiveParsing.GrammarFile.Reader
import DeductiveParsing.Proofs.Deduction.Folds
import DeductiveParsing.Proofs.Text.Blank
import Mathlib.Data.List.TakeWhile

namespace DeductiveParsing.GrammarFile

open Deduction (bind_eq_ok foldlM_induction)
open Text (mem_of_mem_intercalate)

variable {cs ds entry rest before behind : List Char}

/-! ### Entries -/

/-- Whether a text can stand between double quotes on one line. -/
def IsEntry (cs : List Char) : Prop := '"' ∉ cs ∧ '\n' ∉ cs

lemma IsEntry.mono (h : IsEntry cs) (hsub : ds ⊆ cs) : IsEntry ds :=
  ⟨fun hmem => h.1 (hsub hmem), fun hmem => h.2 (hsub hmem)⟩

lemma IsEntry.append (hcs : IsEntry cs) (hds : IsEntry ds) : IsEntry (cs ++ ds) :=
  ⟨fun h => (List.mem_append.1 h).elim hcs.1 hds.1, fun h => (List.mem_append.1 h).elim hcs.2 hds.2⟩

/-- An entry and what stands behind it are parts of the text. -/
lemma subset_of_nextQuoted? (h : nextQuoted? cs = some (entry, rest)) :
    '"' ∉ entry ∧ entry ⊆ cs ∧ rest ⊆ cs := by
  have hdrop : ∀ xs : List Char, xs.dropWhile (· ≠ '"') ⊆ xs :=
    fun xs => (List.dropWhile_sublist _).subset
  rw [nextQuoted?] at h
  split at h
  · cases h
  next d opened hopened =>
    have hsub : opened ⊆ cs := fun c hc => hdrop cs (hopened ▸ List.mem_cons_of_mem _ hc)
    split at h
    · cases h
    next e rest' hrest =>
      obtain ⟨rfl, rfl⟩ := Prod.mk.inj (Option.some.inj h)
      refine ⟨fun hmem => ?_, fun c hc => hsub ((List.takeWhile_sublist _).subset hc),
        fun c hc => hsub (hdrop opened (hrest ▸ List.mem_cons_of_mem _ hc))⟩
      simpa using List.mem_takeWhile_imp hmem

/-- The entries of a line are such texts. -/
lemma isEntry_of_mem_entries (h : '\n' ∉ cs) : ∀ entry ∈ entries cs, IsEntry entry := by
  induction cs using entries.induct with
  | case1 cs hnone =>
      rw [entries]
      split
      · simp
      next heq => cases hnone.symm.trans heq
  | case2 cs entry rest hsome ih =>
      rw [entries]
      split
      · simp
      next entry' rest' heq =>
        obtain ⟨rfl, rfl⟩ := Prod.mk.inj (Option.some.inj (hsome.symm.trans heq))
        obtain ⟨hquote, hentry, hrest⟩ := subset_of_nextQuoted? hsome
        refine List.forall_mem_cons.2 ⟨⟨hquote, fun hmem => h (hentry hmem)⟩, ?_⟩
        exact ih fun hmem => h (hrest hmem)

/-- A line is read behind the others with such entries, or it says nothing. -/
lemma eq_or_eq_append_of_readLine {allowed : List Char} {line : ℕ} {known next : Sections}
    (h : readLine allowed line cs known = .ok next) :
    next = known ∨ ∃ name, next = known ++ [(name, ⟨line, entries cs⟩)] := by
  rw [readLine] at h
  split at h
  · exact Or.inl (Except.ok.inj h).symm
  split at h
  · cases h
  next name body _ =>
    by_cases hG : name = 'G'
    · simp only [hG, if_pos] at h
      exact Or.inl (Except.ok.inj h).symm
    · simp only [hG, if_neg, not_false_eq_true] at h
      split at h
      · cases h
      split at h
      · cases h
      split at h
      · cases h
      · exact Or.inr ⟨name, (Except.ok.inj h).symm⟩
  · cases h

/-- All entries that are read can stand between double quotes on one line. -/
lemma isEntry_of_readSections {allowed : List Char} {file : String} {sections : Sections}
    (h : readSections allowed file = .ok sections) :
    ∀ s ∈ sections, ∀ entry ∈ s.2.entries, IsEntry entry := by
  refine foldlM_induction (P := fun known : Sections => ∀ s ∈ known, ∀ entry ∈ s.2.entries,
    IsEntry entry) h (by simp) ?_
  rintro known ⟨text, i⟩ next hmem hknown hnext
  have htext : text ∈ Text.pieces '\n' file.toList := by
    have := List.mem_map_of_mem (f := Prod.fst) hmem
    simpa using this
  have hline : '\n' ∉ Text.trim text := fun hnewline =>
    (Text.mem_of_mem_pieces text htext _ ((Text.trim_sublist text).subset hnewline)).2 rfl
  rcases eq_or_eq_append_of_readLine hnext with rfl | ⟨name, rfl⟩
  · exact hknown
  · refine List.forall_mem_append.2 ⟨hknown, List.forall_mem_singleton.2 ?_⟩
    exact isEntry_of_mem_entries hline

/-- The entries of a section that is needed can stand between double quotes on one line. -/
lemma isEntry_of_need {sections : Sections} {name : Char} {s : Section}
    (h : ∀ s ∈ sections, ∀ entry ∈ s.2.entries, IsEntry entry)
    (hneed : sections.need name = .ok s) : ∀ entry ∈ s.entries, IsEntry entry := by
  rw [Sections.need] at hneed
  split at hneed
  next s' hlookup =>
    obtain rfl := Except.ok.inj hneed
    obtain ⟨_, _, rfl, -⟩ := List.lookup_eq_some_iff.1 hlookup
    exact h (name, s') (by simp)
  · cases hneed

/-! ### Quoted texts -/

lemma nextQuoted?_append (hbefore : '"' ∉ before) (hentry : '"' ∉ entry) (rest : List Char) :
    nextQuoted? (before ++ '"' :: (entry ++ '"' :: rest)) = some (entry, rest) := by
  have hall : ∀ {cs : List Char}, '"' ∉ cs → ∀ c ∈ cs, decide (c ≠ '"') = true :=
    fun h c hc => decide_eq_true fun heq => h (heq ▸ hc)
  rw [nextQuoted?, List.dropWhile_append_of_pos (hall hbefore),
    List.dropWhile_cons_of_neg (by simp)]
  simp only [List.dropWhile_append_of_pos (hall hentry), List.takeWhile_append_of_pos (hall hentry)]
  simp

/-- Without double quotes there are no entries. -/
lemma entries_eq_nil (h : '"' ∉ cs) : entries cs = [] := by
  have hnone : nextQuoted? cs = none := by
    have hdrop : cs.dropWhile (· ≠ '"') = [] :=
      List.dropWhile_eq_nil_iff.2 fun c hc => decide_eq_true fun heq => h (heq ▸ hc)
    rw [nextQuoted?, hdrop]
  rw [entries]
  split
  · rfl
  next heq => cases hnone.symm.trans heq

lemma entries_append (hbefore : '"' ∉ before) (hentry : '"' ∉ entry) (rest : List Char) :
    entries (before ++ '"' :: (entry ++ '"' :: rest)) = entry :: entries rest := by
  have hsome := nextQuoted?_append hbefore hentry rest
  rw [entries]
  split
  next heq => cases heq.symm.trans hsome
  next entry' rest' heq =>
    obtain ⟨rfl, rfl⟩ := Prod.mk.inj (Option.some.inj (heq.symm.trans hsome))
    rfl

/-- A text between double quotes. -/
def quoted (entry : List Char) : List Char := '"' :: (entry ++ ['"'])

/-- The texts between double quotes are cut out again. -/
theorem entries_quoted {texts : List (List Char)} (htexts : ∀ entry ∈ texts, '"' ∉ entry)
    (hbefore : '"' ∉ before) (hbehind : '"' ∉ behind) :
    entries (before ++ [',', ' '].intercalate (texts.map quoted) ++ behind) = texts := by
  induction texts generalizing before with
  | nil => exact entries_eq_nil (by simp [hbefore, hbehind])
  | cons entry texts ih =>
      obtain ⟨hentry, htexts⟩ := List.forall_mem_cons.1 htexts
      cases texts with
      | nil =>
          have h := entries_append hbefore hentry behind
          rw [entries_eq_nil hbehind] at h
          simpa [quoted] using h
      | cons next texts =>
          have h := ih htexts (show '"' ∉ [',', ' '] from by simp)
          rw [List.map_cons] at h
          rw [List.map_cons, List.map_cons, List.intercalate_cons_cons, ← h]
          simpa [quoted] using entries_append hbefore hentry _

/-! ### Lines -/

/-- Whether a line declares the section of a name with the given entries. -/
structure IsSectionLine (name : Char) (texts : List (List Char)) (line : List Char) : Prop where
  no_newline : '\n' ∉ line
  isTrimmed : Text.IsTrimmed line
  not_silent : isSilent line = false
  heading : ∃ body, splitHeading? line = some ([name], body) ∧
    (texts = [] → Text.trim body = ['\x7b', '\x7d'])
  entries_eq : entries line = texts

/-- A line that declares a new section is read behind the others. -/
lemma readLine_of_isSectionLine {allowed : List Char} {name : Char} {texts : List (List Char)}
    {line : List Char} (h : IsSectionLine name texts line) (n : ℕ) {known : Sections}
    (hallowed : name ∈ allowed) (hG : name ≠ 'G') (hknown : known.lookup name = none) :
    readLine allowed n (Text.trim line) known = .ok (known ++ [(name, ⟨n, texts⟩)]) := by
  obtain ⟨body, hheading, hbody⟩ := h.heading
  have hquotes : (texts.isEmpty && Text.trim body != ['\x7b', '\x7d']) = false := by
    cases texts with
    | nil => simp [hbody rfl]
    | cons entry texts => rfl
  rw [h.isTrimmed.trim_eq, readLine, h.not_silent]
  simp only [Bool.false_eq_true, if_false, hheading, hG, List.contains_iff_mem.2 hallowed, hknown,
    Option.isSome_none, Bool.not_true, h.entries_eq, hquotes]
  rfl

/-- The sections of such lines behind a heading are read in their order. -/
theorem readSections_lines {allowed : List Char} {file : String} {heading : List Char}
    {lines : List (List Char)} {declared : List (Char × List (List Char))}
    (hfile : file.toList = (heading :: lines).flatMap (· ++ ['\n'])) (hnewline : '\n' ∉ heading)
    (hheading : readLine allowed 1 (Text.trim heading) [] = .ok [])
    (hlines : List.Forall₂ (fun d line => IsSectionLine d.1 d.2 line) declared lines)
    (hallowed : ∀ name ∈ declared.map Prod.fst, name ∈ allowed ∧ name ≠ 'G')
    (hnodup : (declared.map Prod.fst).Nodup) :
    readSections allowed file =
      .ok ((declared.zipIdx 2).map fun (d, i) => (d.1, ⟨i, d.2⟩)) := by
  have hpieces : Text.pieces '\n' file.toList = heading :: (lines ++ [[]]) := by
    rw [hfile, List.flatMap_cons, List.append_assoc, List.singleton_append,
      Text.pieces_append hnewline]
    congr 1
    clear hfile hheading hallowed hnodup
    induction hlines with
    | nil => rfl
    | cons hline _ ih =>
        rw [List.flatMap_cons, List.append_assoc, List.singleton_append,
          Text.pieces_append hline.no_newline, ih]
        rfl
  have hrest : ∀ (n : ℕ) (known : Sections), (known.map Prod.fst ++ declared.map Prod.fst).Nodup →
      ((lines ++ [[]]).zipIdx n).foldlM
        (fun known (text, i) => readLine allowed (i + 1) (Text.trim text) known) known =
          .ok (known ++ (declared.zipIdx (n + 1)).map fun (d, i) => (d.1, ⟨i, d.2⟩)) := by
    clear hfile hpieces hnodup
    induction hlines with
    | nil =>
        intro n known _
        simp only [List.map_nil, List.zipIdx_nil, List.append_nil]
        rfl
    | @cons d line declared lines hline _ ih =>
        intro n known hnodup
        obtain ⟨⟨hmem, hG⟩, hallowed⟩ := List.forall_mem_cons.1 hallowed
        have hknown : known.lookup d.1 = none := by
          rw [List.lookup_eq_none_iff]
          intro s hs
          rw [List.nodup_append] at hnodup
          simpa using (hnodup.2.2 s.1 (List.mem_map_of_mem hs) d.1 (by simp)).symm
        refine bind_eq_ok.2 ⟨_, readLine_of_isSectionLine hline _ hmem hG hknown, ?_⟩
        refine (ih hallowed (n + 1) _ (by simpa using hnodup)).trans ?_
        simp
  rw [readSections, hpieces]
  exact bind_eq_ok.2 ⟨[], hheading, hrest 1 [] (by simpa using hnodup)⟩

/-! ### Printed lines -/

/-- Whether a character can be the name of a section that is printed. -/
def IsName (name : Char) : Prop := Text.isBlank name = false ∧ name ≠ '"'

instance (name : Char) : Decidable (IsName name) :=
  inferInstanceAs (Decidable (_ ∧ _))

/-- The name of a section with an equals sign behind it and the rest of the line. -/
def headed (name : Char) (body : List Char) : List Char := name :: ' ' :: '=' :: ' ' :: body

/-- A line with texts between braces. -/
def braced (name : Char) (texts : List (List Char)) : List Char :=
  headed name ('\x7b' :: ([',', ' '].intercalate (texts.map quoted) ++ ['\x7d']))

section Headed

variable {name : Char} {body : List Char} {texts : List (List Char)} {text : List Char}

lemma isSilent_headed : isSilent (headed name body) = false := by
  rw [isSilent.eq_def, headed]
  split
  next heq => cases heq
  next heq => cases (List.cons.inj (List.cons.inj heq).2).1
  next => rfl

lemma splitHeading?_headed (h : IsName name) :
    splitHeading? (headed name body) = some ([name], ' ' :: body) := by
  have hmark : afterMark? '=' (' ' :: '=' :: ' ' :: body) = some (' ' :: body) := by
    rw [afterMark?, Text.trimStart, List.dropWhile_cons_of_pos (by decide),
      List.dropWhile_cons_of_neg (by decide)]
    exact if_pos rfl
  rw [headed, splitHeading?, if_neg (by simp [h.1]), hmark]

/-- The line of the signature says nothing. -/
lemma readLine_headed_signature {allowed : List Char} (h : Text.IsTrimmed (headed 'G' body)) (n : ℕ)
    (known : Sections) : readLine allowed n (Text.trim (headed 'G' body)) known = .ok known := by
  rw [h.trim_eq, readLine, isSilent_headed, splitHeading?_headed ⟨by decide, by decide⟩]
  rfl

lemma newline_not_mem_quoted (h : IsEntry text) : '\n' ∉ quoted text := by
  simp [quoted, h.2]

lemma newline_not_mem_headed (h : IsName name) (hbody : '\n' ∉ body) : '\n' ∉ headed name body := by
  have hname : '\n' ≠ name := by
    rintro rfl
    exact absurd h.1 (by decide)
  simp [headed, hname, hbody]

/-- The line of a section with any number of entries declares these. -/
lemma isSectionLine_braced (h : IsName name) (htexts : ∀ text ∈ texts, IsEntry text) :
    IsSectionLine name texts (braced name texts) where
  no_newline := by
    refine newline_not_mem_headed h fun hmem => ?_
    rcases List.mem_append.1 ((List.mem_cons.1 hmem).resolve_left (by decide)) with hmem | hmem
    · rcases mem_of_mem_intercalate hmem with hmem | ⟨_, ht, hmem⟩
      · exact absurd hmem (by decide)
      · obtain ⟨text, htext, rfl⟩ := List.mem_map.1 ht
        exact newline_not_mem_quoted (htexts text htext) hmem
    · exact absurd hmem (by decide)
  isTrimmed := ⟨⟨name, _, rfl, h.1⟩, headed name ('\x7b' :: [',', ' '].intercalate
    (texts.map quoted)), '\x7d', rfl, by decide⟩
  not_silent := isSilent_headed
  heading := ⟨_, splitHeading?_headed h, by rintro rfl; decide⟩
  entries_eq := by
    have hname : '"' ∉ headed name ['\x7b'] := by simp [headed, h.2.symm]
    have hend : '"' ∉ ['\x7d'] := by decide
    have hentries := entries_quoted (fun text htext => (htexts text htext).1) hname hend
    simpa [headed, braced] using hentries

/-- The line of a single entry declares that. -/
lemma isSectionLine_quoted (h : IsName name) (htext : IsEntry text) :
    IsSectionLine name [text] (headed name (quoted text)) where
  no_newline := newline_not_mem_headed h (newline_not_mem_quoted htext)
  isTrimmed := ⟨⟨name, _, rfl, h.1⟩, headed name ('"' :: text), '"', rfl, by decide⟩
  not_silent := isSilent_headed
  heading := ⟨_, splitHeading?_headed h, fun hnil => absurd hnil (List.cons_ne_nil _ _)⟩
  entries_eq := by
    have hname : '"' ∉ headed name [] := by simp [headed, h.2.symm]
    have hentries := entries_append hname htext.1 []
    rw [entries_eq_nil List.not_mem_nil] at hentries
    simpa [headed, quoted] using hentries

end Headed

lemma toList_entryText (s : String) : (entryText s).toList = quoted s.toList := by
  simp [entryText, quoted]

lemma toList_declaration (name : String) (c : Char) (hname : name.toList = [c])
    (texts : List String) :
    (declaration name texts).toList = braced c (texts.map String.toList) ++ ['\n'] := by
  have hquoted : (texts.map entryText).map String.toList = (texts.map String.toList).map quoted := by
    simp only [List.map_map, Function.comp_def, toList_entryText]
  simp [declaration, braced, headed, hname, hquoted]

lemma toList_startLine (start : String) :
    (startLine start).toList = headed 'S' (quoted start.toList) ++ ['\n'] := by
  simp [startLine, toList_entryText, headed]

end DeductiveParsing.GrammarFile
