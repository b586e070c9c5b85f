/-
The grammar of the bracket format.

* `Token.Cuts`, `Token.cuts_iff_scan_eq`: a text is cut into brackets and maximal labels in one way
  only, which is the one that the scanner finds;
* `IsTerm`: the grammar `Term ::= label | '(' label Term* ')'` with the trees that terms denote;
* `IsReadInto`: the tokens that have been read into open brackets, and what the next token does;
* `isTerm_of_readFirst`, `IsTerm.readFirst_append`: what is read is a term, and every term is read;
* `read_exact`: a text is read exactly if its tokens are a term, as the tree that this denotes.
-/
import DeductiveParsing.Proofs.Deduction.Folds
import DeductiveParsing.Tree.Reader

namespace DeductiveParsing.Tree

open Deduction (bind_eq_ok)

variable {cs rest word : List Char} {t : Tree} {tokens used before behind : List Token}

namespace Token

/-! ### Tokens -/

/-- Whether a character belongs to labels: neither brackets nor blanks do. -/
def IsLabelChar (c : Char) : Prop := c ≠ '(' ∧ c ≠ ')' ∧ Text.isBlank c = false

/-- Whether a text is a label with its mark: it is not empty and has neither brackets nor blanks. -/
def IsWord (word : List Char) : Prop := word ≠ [] ∧ ∀ c ∈ word, goesOn [c] = true

/-- Whether a text consists of given tokens, perhaps with blanks between them. A label reaches up to
the end, a bracket or a blank. -/
inductive Cuts : List Char → List Token → Prop where
  | nil : Cuts [] []
  | blank {c : Char} {cs : List Char} {tokens : List Token} (hc : Text.isBlank c = true)
      (h : Cuts cs tokens) : Cuts (c :: cs) tokens
  | opening {cs : List Char} {tokens : List Token} (h : Cuts cs tokens) :
      Cuts ('(' :: cs) (.opening :: tokens)
  | closing {cs : List Char} {tokens : List Token} (h : Cuts cs tokens) :
      Cuts (')' :: cs) (.closing :: tokens)
  | label {word rest : List Char} {tokens : List Token} (hne : word ≠ [])
      (hword : ∀ c ∈ word, IsLabelChar c) (hrest : ∀ c ∈ rest.head?, ¬IsLabelChar c)
      (h : Cuts rest tokens) : Cuts (word ++ rest) (.label word :: tokens)

lemma goesOn_cons {c : Char} : goesOn (c :: cs) = goesOn [c] := rfl

lemma goesOn_iff {c : Char} : goesOn [c] = true ↔ IsLabelChar c := by
  simp [goesOn, IsLabelChar, and_assoc]

lemma goesOn_eq_false_iff : goesOn cs = false ↔ ∀ c ∈ cs.head?, ¬IsLabelChar c := by
  cases cs with
  | nil => simp [goesOn]
  | cons c cs =>
      rw [goesOn_cons, ← Bool.not_eq_true, goesOn_iff]
      simp

/-- A label is scanned together with the one behind it, if there is no character in between. -/
lemma scan_cons {c : Char} (hc : goesOn [c] = true) (cs : List Char) :
    scan (c :: cs) = match goesOn cs, scan cs with
      | true, .label text :: rest => .label (c :: text) :: rest
      | _, rest => .label [c] :: rest := by
  obtain ⟨hopening, hclosing, hblank⟩ := goesOn_iff.1 hc
  simp only [scan, hblank]
  rfl

lemma scan_nil : scan [] = [] := by rw [scan]

lemma scan_opening : scan ('(' :: cs) = .opening :: scan cs := by rw [scan]

lemma scan_closing : scan (')' :: cs) = .closing :: scan cs := by rw [scan]

lemma scan_blank {c : Char} (hc : Text.isBlank c = true) : scan (c :: cs) = scan cs := by
  rw [scan, if_pos hc]
  · rintro rfl
    exact absurd hc (by decide)
  · rintro rfl
    exact absurd hc (by decide)

/-- A word ends where no character of a label follows. -/
theorem scan_append (hword : IsWord word) (hrest : goesOn rest = false) :
    scan (word ++ rest) = .label word :: scan rest := by
  obtain ⟨hne, hword⟩ := hword
  induction word with
  | nil => exact absurd rfl hne
  | cons c word ih =>
      obtain ⟨hc, hword⟩ := List.forall_mem_cons.1 hword
      rw [List.cons_append, scan_cons hc]
      cases word with
      | nil => rw [List.nil_append, hrest]
      | cons d word =>
          have hd : goesOn (d :: word ++ rest) = true := hword d List.mem_cons_self
          rw [ih (List.cons_ne_nil _ _) hword, hd]

/-- The tokens into which a text is cut are those that the scanner finds. -/
lemma Cuts.scan_eq (h : Cuts cs tokens) : scan cs = tokens := by
  induction h with
  | nil => rfl
  | blank hc _ ih => rw [scan_blank hc, ih]
  | opening _ ih => rw [scan_opening, ih]
  | closing _ ih => rw [scan_closing, ih]
  | label hne hword hrest _ ih =>
      have hword : IsWord _ := ⟨hne, fun c hc => goesOn_iff.2 (hword c hc)⟩
      rw [scan_append hword (goesOn_eq_false_iff.2 hrest), ih]

/-- One more character in front makes the first label longer, or is a label of its own. -/
lemma Cuts.cons {c : Char} (hc : IsLabelChar c) : Cuts cs tokens →
    Cuts (c :: cs) (match goesOn cs, tokens with
      | true, .label text :: rest => .label (c :: text) :: rest
      | _, rest => .label [c] :: rest) := by
  intro h
  have hsingle : ∀ d ∈ [c], IsLabelChar d := fun d hd => List.mem_singleton.1 hd ▸ hc
  cases hgoes : goesOn cs with
  | false => exact .label (List.cons_ne_nil c []) hsingle (goesOn_eq_false_iff.1 hgoes) h
  | true =>
      cases h with
      | nil => cases hgoes
      | blank hblank _ => simp [goesOn, hblank] at hgoes
      | opening _ => simp [goesOn] at hgoes
      | closing _ => simp [goesOn] at hgoes
      | label hne hword hrest h =>
          exact .label (List.cons_ne_nil _ _) (List.forall_mem_cons.2 ⟨hc, hword⟩) hrest h

/-- The scanner cuts a text into its tokens. -/
lemma cuts_scan (cs : List Char) : Cuts cs (scan cs) := by
  induction cs with
  | nil => exact .nil
  | cons c cs ih =>
      by_cases hopening : c = '('
      · rw [hopening, scan_opening]
        exact .opening ih
      by_cases hclosing : c = ')'
      · rw [hclosing, scan_closing]
        exact .closing ih
      by_cases hblank : Text.isBlank c = true
      · rw [scan_blank hblank]
        exact .blank hblank ih
      · have hc : IsLabelChar c := ⟨hopening, hclosing, by simpa using hblank⟩
        rw [scan_cons (goesOn_iff.2 hc)]
        exact ih.cons hc

/-- A text is cut into tokens in one way only. -/
theorem cuts_iff_scan_eq : Cuts cs tokens ↔ scan cs = tokens :=
  ⟨Cuts.scan_eq, fun h => h ▸ cuts_scan cs⟩

lemma Cuts.isWord_of_mem (h : Cuts cs tokens) :
    ∀ word, Token.label word ∈ tokens → IsWord word ∧ word ⊆ cs := by
  induction h with
  | nil => simp
  | blank _ _ ih =>
      exact fun word hword => (ih word hword).imp_right (List.subset_cons_of_subset _)
  | opening _ ih | closing _ ih =>
      refine fun word hword => (ih word ?_).imp_right (List.subset_cons_of_subset _)
      simpa using hword
  | @label text rest tokens hne htext _ _ ih =>
      intro word hword
      rcases List.mem_cons.1 hword with hword | hword
      · obtain rfl := Token.label.inj hword
        exact ⟨⟨hne, fun c hc => goesOn_iff.2 (htext c hc)⟩, List.subset_append_left _ _⟩
      · exact (ih word hword).imp_right (List.subset_append_of_subset_right _)

/-- The labels that are cut out of a text are words with characters of the text. -/
lemma isWord_of_mem_scan (word : List Char) (h : Token.label word ∈ scan cs) :
    IsWord word ∧ word ⊆ cs :=
  (cuts_scan cs).isWord_of_mem word h

/-- Whether a text is the label of a node with its mark: behind the label of a foot stands a star,
and any other label does not end in one. -/
inductive Names : List Char → String → Bool → Prop where
  | foot (label : String) : Names (label.toList ++ ['*']) label true
  | plain {label : String} (h : label.toList.getLast? ≠ some '*') : Names label.toList label false

lemma names_nodeOf (word : List Char) : Names word (nodeOf word).label (nodeOf word).foot := by
  rw [nodeOf]
  split
  next initial hreverse =>
    have hword : word = (String.ofList initial.reverse).toList ++ ['*'] := by
      rw [String.toList_ofList, ← List.reverse_reverse word, hreverse, List.reverse_cons]
    rw [hword]
    exact .foot _
  next hnot =>
    have hplain : (String.ofList word).toList.getLast? ≠ some '*' := by
      rw [String.toList_ofList, List.getLast?_eq_head?_reverse]
      intro hhead
      obtain ⟨rest, hrest⟩ := List.head?_eq_some_iff.1 hhead
      exact hnot rest hrest
    have h := Names.plain hplain
    rwa [String.toList_ofList] at h

/-- A text is the label of one node only. -/
lemma Names.nodeOf_eq {label : String} {foot : Bool} (h : Names word label foot) :
    nodeOf word = ⟨label, foot, []⟩ := by
  cases h with
  | foot =>
      rw [nodeOf, List.reverse_append, List.reverse_singleton, List.singleton_append]
      simp [footLeaf]
  | plain hplain =>
      rw [nodeOf]
      split
      next rest hreverse =>
        rw [List.getLast?_eq_head?_reverse, hreverse] at hplain
        exact absurd rfl hplain
      next => simp [leaf]

end Token

/-! ### Terms -/

mutual

/-- The grammar `Term ::= label | '(' label Term* ')'`: whether tokens are a term, and the tree that
it denotes. -/
inductive IsTerm : List Token → Tree → Prop where
  | label {word : List Char} {label : String} {foot : Bool} (hword : Token.Names word label foot) :
      IsTerm [.label word] ⟨label, foot, []⟩
  | bracket {word : List Char} {label : String} {foot : Bool} {inner : List Token}
      {children : List Tree} (hword : Token.Names word label foot)
      (hchildren : AreTerms inner children) :
      IsTerm (.opening :: .label word :: (inner ++ [.closing])) ⟨label, foot, children⟩

/-- Whether tokens are several terms one behind the other, perhaps none. -/
inductive AreTerms : List Token → List Tree → Prop where
  | nil : AreTerms [] []
  | cons {first behind : List Token} {t : Tree} {ts : List Tree} (ht : IsTerm first t)
      (hts : AreTerms behind ts) : AreTerms (first ++ behind) (t :: ts)

end

lemma AreTerms.concat {ts : List Tree} (h : AreTerms before ts) (ht : IsTerm used t) :
    AreTerms (before ++ used) (ts ++ [t]) := by
  induction ts generalizing before with
  | nil =>
      cases h
      simpa using AreTerms.cons ht .nil
  | cons u ts ih =>
      cases h with
      | cons hu hts =>
          rw [List.append_assoc]
          exact .cons hu (ih hts)

lemma isTerm_nodeOf (word : List Char) : IsTerm [.label word] (nodeOf word) := by
  have h := IsTerm.label (Token.names_nodeOf word)
  rwa [← (Token.names_nodeOf word).nodeOf_eq] at h

/-! ### What is read is a term -/

/-- Whether tokens have been read into open brackets, of which the first one is the innermost: each
of them begins with its label and goes on with the terms of its children. -/
inductive IsReadInto : List Frame → List Token → Prop where
  | nil : IsReadInto [] []
  | cons {f : Frame} {around : List Frame} {before inner : List Token} {word : List Char}
      (haround : IsReadInto around before) (hword : Token.Names word f.node.label f.node.foot)
      (hchildren : AreTerms inner f.children.reverse) :
      IsReadInto (f :: around) (before ++ .opening :: .label word :: inner)

namespace IsReadInto

variable {f : Frame} {around : List Frame}

/-- A label behind an opening bracket begins another one. -/
lemma opening (h : IsReadInto around before) (word : List Char) :
    IsReadInto (⟨nodeOf word, []⟩ :: around) (before ++ [.opening, .label word]) :=
  .cons h (Token.names_nodeOf word) .nil

/-- A term becomes the last child of the innermost bracket. -/
lemma push (h : IsReadInto (f :: around) before) (ht : IsTerm used t) :
    IsReadInto ({ f with children := t :: f.children } :: around) (before ++ used) := by
  cases h with
  | @cons _ _ before inner word haround hword hchildren =>
      have h := IsReadInto.cons (f := { f with children := t :: f.children }) haround hword
        (by simpa using hchildren.concat ht)
      simpa using h

/-- When the innermost bracket is closed, it is a term behind what has been read before. -/
lemma close (h : IsReadInto (f :: around) before) :
    ∃ outer inner, before = outer ++ inner ∧ IsReadInto around outer ∧
      IsTerm (inner ++ [.closing]) f.close := by
  cases h with
  | cons haround hword hchildren =>
      exact ⟨_, _, rfl, haround, .bracket hword hchildren⟩

end IsReadInto

/-- A tree that is read out of open brackets is the term of what has been read into them and of the
tokens that are read now. -/
lemma isTerm_of_readBrackets {top : Frame} {around : List Frame}
    (hbefore : IsReadInto (top :: around) before)
    (h : readBrackets top around tokens = .ok (t, behind)) :
    ∃ used, tokens = used ++ behind ∧ IsTerm (before ++ used) t := by
  induction top, around, tokens using readBrackets.induct generalizing before with
  | case1 => simp [readBrackets] at h
  | case2 top around l tokens ih =>
      rw [readBrackets] at h
      obtain ⟨used, rfl, hterm⟩ := ih (hbefore.push (isTerm_nodeOf l)) h
      exact ⟨.label l :: used, rfl, by simpa using hterm⟩
  | case3 top around l tokens ih =>
      rw [readBrackets] at h
      obtain ⟨used, rfl, hterm⟩ := ih (hbefore.opening l) h
      exact ⟨.opening :: .label l :: used, rfl, by simpa using hterm⟩
  | case4 top around tokens hnot =>
      rw [readBrackets] at h
      · cases h
      · exact hnot
  | case5 top tokens =>
      obtain ⟨outer, inner, rfl, houter, hterm⟩ := hbefore.close
      cases houter
      rw [readBrackets, Except.ok.injEq, Prod.mk.injEq] at h
      obtain ⟨rfl, rfl⟩ := h
      exact ⟨[.closing], rfl, hterm⟩
  | case6 top tokens next others ih =>
      obtain ⟨outer, inner, rfl, houter, hterm⟩ := hbefore.close
      rw [readBrackets] at h
      obtain ⟨used, rfl, hterm⟩ := ih (houter.push hterm) h
      exact ⟨.closing :: used, rfl, by simpa using hterm⟩

/-- What is read is a term. -/
lemma isTerm_of_readFirst (h : readFirst tokens = .ok (t, behind)) :
    ∃ used, tokens = used ++ behind ∧ IsTerm used t := by
  rw [readFirst.eq_def] at h
  split at h
  next => cases h
  next => cases h
  next l rest =>
    rw [Except.ok.injEq, Prod.mk.injEq] at h
    obtain ⟨rfl, rfl⟩ := h
    exact ⟨[.label l], rfl, isTerm_nodeOf l⟩
  next l rest =>
    obtain ⟨used, rfl, hterm⟩ := isTerm_of_readBrackets (IsReadInto.nil.opening l) h
    exact ⟨.opening :: .label l :: used, rfl, hterm⟩
  next => cases h

/-! ### Every term is read -/

mutual

/-- Within a bracket a term is read as the next child. -/
theorem IsTerm.readBrackets_append {used : List Token} {t : Tree} (h : IsTerm used t) (top : Frame)
    (around : List Frame) (behind : List Token) :
    readBrackets top around (used ++ behind) =
      readBrackets { top with children := t :: top.children } around behind := by
  match h with
  | .label hword => rw [List.singleton_append, readBrackets, hword.nodeOf_eq]
  | @IsTerm.bracket _ label foot _ _ hword hchildren =>
      have hinner := hchildren.readBrackets_append ⟨⟨label, foot, []⟩, []⟩ (top :: around)
        (.closing :: behind)
      rw [List.cons_append, List.cons_append, List.append_assoc, readBrackets, hword.nodeOf_eq]
      simpa [readBrackets, Frame.close] using hinner

/-- Several terms are read as the next children. -/
theorem AreTerms.readBrackets_append {used : List Token} {ts : List Tree} (h : AreTerms used ts)
    (top : Frame) (around : List Frame) (behind : List Token) :
    readBrackets top around (used ++ behind) =
      readBrackets { top with children := ts.reverse ++ top.children } around behind := by
  match h with
  | .nil => simp
  | .cons ht hts =>
      rw [List.append_assoc, ht.readBrackets_append, hts.readBrackets_append, List.reverse_cons,
        List.append_assoc, List.singleton_append]

end

/-- A term is read up to its end. -/
lemma IsTerm.readFirst_append (h : IsTerm used t) (behind : List Token) :
    readFirst (used ++ behind) = .ok (t, behind) := by
  cases h with
  | label hword => rw [List.singleton_append, readFirst, hword.nodeOf_eq]
  | @bracket word label foot inner children hword hchildren =>
      have hinner := hchildren.readBrackets_append ⟨⟨label, foot, []⟩, []⟩ [] (.closing :: behind)
      rw [List.cons_append, List.cons_append, List.append_assoc, readFirst, hword.nodeOf_eq]
      simpa [readBrackets, Frame.close] using hinner

/-! ### Texts -/

/-- A text is read if its tokens are those of one tree. -/
lemma read_eq_ok {s : String} : read s = .ok t ↔ readFirst (Token.scan s.toList) = .ok (t, []) := by
  constructor
  · intro h
    obtain ⟨⟨u, rest⟩, hfirst, h⟩ := bind_eq_ok.1 h
    cases rest with
    | nil => rw [hfirst, Except.ok.inj h]
    | cons token rest => cases h
  · exact fun h => bind_eq_ok.2 ⟨_, h, rfl⟩

/-- A text is read as the tree that its tokens denote. -/
lemma read_eq_ok_iff_isTerm {s : String} : read s = .ok t ↔ IsTerm (Token.scan s.toList) t := by
  rw [read_eq_ok]
  constructor
  · intro h
    obtain ⟨used, htokens, hterm⟩ := isTerm_of_readFirst h
    rwa [htokens, List.append_nil]
  · intro h
    simpa using h.readFirst_append []

/-- Every text is cut into tokens in exactly one way. It is read exactly if these are a term of the
grammar, as the tree that the term denotes, and there is a fault exactly if they are not. All texts
with the same tokens are read in the same way, whatever blanks are in them. -/
theorem read_exact (s : String) :
    ∃ tokens, (∀ tokens', Token.Cuts s.toList tokens' ↔ tokens' = tokens) ∧
      (∀ t, read s = .ok t ↔ IsTerm tokens t) ∧
      ((∃ fault, read s = .error fault) ↔ ¬∃ t, IsTerm tokens t) ∧
      ∀ s' : String, Token.Cuts s'.toList tokens → read s' = read s := by
  refine ⟨Token.scan s.toList, fun tokens' => ?_, fun t => read_eq_ok_iff_isTerm, ?_,
    fun s' hs' => ?_⟩
  · rw [Token.cuts_iff_scan_eq, eq_comm]
  · cases hread : read s with
    | error fault =>
        refine iff_of_true ⟨fault, rfl⟩ ?_
        rintro ⟨t, ht⟩
        cases hread.symm.trans (read_eq_ok_iff_isTerm.2 ht)
    | ok t =>
        refine iff_of_false ?_ (not_not_intro ⟨t, read_eq_ok_iff_isTerm.1 hread⟩)
        rintro ⟨fault, hfault⟩
        cases hfault
  · rw [read, read, hs'.scan_eq]

end DeductiveParsing.Tree
