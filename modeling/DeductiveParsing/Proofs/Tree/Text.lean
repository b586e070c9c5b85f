/-
Trees that are written and read again.

* `everywhere_of_read`: a property of the nodes of all words is one of all nodes that are read;
* `IsWritable`, `HasWordsIn`: whether the labels of a tree can be told from their marks and from
  what stands around them, and whether they are words with given characters, which holds of every
  tree that is read;
* `IsWritable.exists_isTerm`: the tokens of the text of a writable tree are a term that denotes it;
* `read_text`, `read_text_exact`: a tree is read from its text exactly if it is writable.
-/
import DeductiveParsing.Proofs.Text.Blank
import DeductiveParsing.Proofs.Tree.Surgery
import DeductiveParsing.Proofs.Tree.Terms

namespace DeductiveParsing.Tree

variable {cs rest word : List Char} {t : Tree} {label : String} {foot : Bool}

/-! ### Words -/

lemma Token.Names.eq_markedLabel (h : Names word label foot) :
    word = (markedLabel label foot).toList := by
  cases h with
  | foot => simp [markedLabel]
  | plain => simp [markedLabel]

lemma Token.Names.getLast?_ne (h : Names word label false) : label.toList.getLast? ≠ some '*' := by
  cases h with
  | plain hstar => exact hstar

/-- The label of the node of a word with its mark is that word. -/
lemma markedLabel_nodeOf (word : List Char) :
    (markedLabel (nodeOf word).label (nodeOf word).foot).toList = word :=
  (Token.names_nodeOf word).eq_markedLabel.symm

lemma nodeOf_eq (word : List Char) :
    nodeOf word = ⟨(nodeOf word).label, (nodeOf word).foot, []⟩ :=
  (Token.names_nodeOf word).nodeOf_eq

/-- Whether the label of a node with its mark is a word for that node: there are neither brackets
nor blanks in the label, and without a mark it is neither empty nor looks like one with a mark. -/
def IsNodeLabel (label : String) (foot : Bool) : Prop :=
  (∀ c ∈ label.toList, Token.IsLabelChar c) ∧
    (foot = false → label ≠ "" ∧ label.toList.getLast? ≠ some '*')

lemma isNodeLabel_iff : IsNodeLabel label foot ↔
    Token.IsWord (markedLabel label foot).toList ∧
      Token.Names (markedLabel label foot).toList label foot := by
  simp only [IsNodeLabel, Token.IsWord, Token.goesOn_iff]
  cases foot with
  | true =>
      have hmarked : (markedLabel label true).toList = label.toList ++ ['*'] := by
        simp [markedLabel]
      have hstar : Token.IsLabelChar '*' := Token.goesOn_iff.1 (by decide)
      simp only [hmarked, List.forall_mem_append, List.forall_mem_singleton]
      simp [hstar, Token.Names.foot]
  | false =>
      have hmarked : markedLabel label false = label := if_neg Bool.false_ne_true
      rw [hmarked]
      constructor
      · rintro ⟨hchars, hplain⟩
        obtain ⟨hne, hstar⟩ := hplain rfl
        exact ⟨⟨by simpa using hne, hchars⟩, .plain hstar⟩
      · rintro ⟨⟨hne, hchars⟩, hnames⟩
        exact ⟨hchars, fun _ => ⟨by simpa using hne, hnames.getLast?_ne⟩⟩

/-! ### Reading -/

section Reading

variable {P : Tree → Prop}

/-- Whether a node has a property whatever its children are. -/
def HoldsOfNode (P : Tree → Prop) (node : Tree) : Prop :=
  ∀ children, P ⟨node.label, node.foot, children⟩

lemma HoldsOfNode.of_names {label : String} {foot : Bool} (h : HoldsOfNode P (nodeOf word))
    (hword : Token.Names word label foot) (children : List Tree) : P ⟨label, foot, children⟩ := by
  rw [hword.nodeOf_eq] at h
  exact h children

mutual

/-- A property of the nodes of all words of a term is one of all nodes of its tree. -/
theorem IsTerm.everywhere {tokens : List Token} {t : Tree} (h : IsTerm tokens t)
    (htokens : ∀ word, Token.label word ∈ tokens → HoldsOfNode P (nodeOf word)) :
    t.Everywhere P := by
  match h with
  | .label hword =>
      exact everywhere_iff.2 ⟨(htokens _ (by simp)).of_names hword [],
        fun c hc => absurd hc List.not_mem_nil⟩
  | .bracket hword hchildren =>
      exact everywhere_iff.2 ⟨(htokens _ (by simp)).of_names hword _,
        hchildren.everywhere fun word hmem => htokens word (by simp [hmem])⟩

/-- The same for several terms. -/
theorem AreTerms.everywhere {tokens : List Token} {ts : List Tree} (h : AreTerms tokens ts)
    (htokens : ∀ word, Token.label word ∈ tokens → HoldsOfNode P (nodeOf word)) :
    ∀ t ∈ ts, t.Everywhere P := by
  match h with
  | .nil => exact fun t ht => absurd ht List.not_mem_nil
  | .cons ht hts =>
      exact List.forall_mem_cons.2
        ⟨ht.everywhere fun word hmem => htokens word (List.mem_append_left _ hmem),
          hts.everywhere fun word hmem => htokens word (List.mem_append_right _ hmem)⟩

end

/-- A property of the nodes of all words is one of all nodes that are read. -/
theorem everywhere_of_read {s : String} (h : read s = .ok t)
    (hword : ∀ word, Token.IsWord word → word ⊆ s.toList → HoldsOfNode P (nodeOf word)) :
    t.Everywhere P :=
  (read_eq_ok_iff_isTerm.1 h).everywhere fun word hmem =>
    (Token.isWord_of_mem_scan word hmem).elim (hword word)

end Reading

/-! ### Writing -/

/-- Whether the labels of all nodes are words for these. -/
def IsWritable (t : Tree) : Prop := t.Everywhere fun u => IsNodeLabel u.label u.foot

/-- Whether each node is the node of a word with characters of `cs`. -/
def HasWordsIn (cs : List Char) (t : Tree) : Prop :=
  t.Everywhere fun u =>
    ∃ word, Token.IsWord word ∧ word ⊆ cs ∧ nodeOf word = ⟨u.label, u.foot, []⟩

/-- The nodes of every tree that is read are those of words in the text. -/
lemma hasWordsIn_of_read {s : String} (h : read s = .ok t) : t.HasWordsIn s.toList := by
  exact everywhere_of_read h fun word hword hsub children => ⟨word, hword, hsub, nodeOf_eq word⟩

/-- The root is the node of a word, with which the text begins. -/
lemma HasWordsIn.exists_word {children : List Tree} (h : HasWordsIn cs ⟨label, foot, children⟩) :
    ∃ word, Token.IsWord word ∧ word ⊆ cs ∧ nodeOf word = ⟨label, foot, []⟩ ∧
      (markedLabel label foot).toList = word := by
  obtain ⟨word, hword, hsub, hnode⟩ := (everywhere_iff.1 h).1
  have hlabel := markedLabel_nodeOf word
  rw [hnode] at hlabel
  exact ⟨word, hword, hsub, hnode, hlabel⟩

lemma HasWordsIn.children {children : List Tree} (h : HasWordsIn cs ⟨label, foot, children⟩) :
    ∀ c ∈ children, c.HasWordsIn cs :=
  (everywhere_iff.1 h).2

/-- Words are told from their marks. -/
lemma HasWordsIn.isWritable (h : t.HasWordsIn cs) : t.IsWritable := by
  intro u hu
  obtain ⟨word, hword, -, hnode⟩ := h u hu
  have hnames := Token.names_nodeOf word
  rw [hnode] at hnames
  obtain rfl := hnames.eq_markedLabel
  exact isNodeLabel_iff.2 ⟨hword, hnames⟩

lemma toList_text_cons (label : String) (foot : Bool) (c : Tree) (ds : List Tree) :
    (text ⟨label, foot, c :: ds⟩).toList =
      '(' :: ((markedLabel label foot).toList ++ (textAmong (c :: ds)).toList ++ [')']) := by
  simp [text]

lemma toList_textAmong_cons (c : Tree) (ds : List Tree) :
    (textAmong (c :: ds)).toList = ' ' :: (c.text.toList ++ (textAmong ds).toList) := by
  simp [textAmong]

/-- What stands behind a tree among others is no part of its labels. -/
lemma goesOn_textAmong (ds : List Tree) (hrest : Token.goesOn rest = false) :
    Token.goesOn ((textAmong ds).toList ++ rest) = false := by
  cases ds with
  | nil => simpa [textAmong] using hrest
  | cons c ds =>
      rw [toList_textAmong_cons, List.cons_append, Token.goesOn_cons]
      decide

/-- Whether a text is cut into given tokens in front of everything that does not go on with its last
label. -/
def IsCutInto (cs : List Char) (tokens : List Token) : Prop :=
  ∀ rest, Token.goesOn rest = false → Token.scan (cs ++ rest) = tokens ++ Token.scan rest

/-- The texts of several trees with blanks before them are cut into terms for these. -/
lemma exists_areTerms_textAmong {ds : List Tree}
    (hds : ∀ d ∈ ds, ∃ tokens, IsTerm tokens d ∧ IsCutInto d.text.toList tokens) :
    ∃ tokens, AreTerms tokens ds ∧ IsCutInto (textAmong ds).toList tokens := by
  induction ds with
  | nil => exact ⟨[], .nil, fun rest _ => by simp [textAmong]⟩
  | cons d ds ih =>
      obtain ⟨⟨first, hfirst, hcut⟩, hds⟩ := List.forall_mem_cons.1 hds
      obtain ⟨behind, hbehind, hcuts⟩ := ih hds
      refine ⟨first ++ behind, .cons hfirst hbehind, fun rest hrest => ?_⟩
      rw [toList_textAmong_cons, List.cons_append, Token.scan_blank (by decide), List.append_assoc,
        hcut _ (goesOn_textAmong ds hrest), hcuts rest hrest, List.append_assoc]

/-- The text of a writable tree is cut into a term that denotes it. -/
lemma IsWritable.exists_isTerm (h : t.IsWritable) :
    ∃ tokens, IsTerm tokens t ∧ IsCutInto t.text.toList tokens := by
  induction t using Tree.ind with
  | h label foot children ih =>
      obtain ⟨hlabel, hwritable⟩ := everywhere_iff.1 h
      obtain ⟨hword, hnames⟩ := isNodeLabel_iff.1 hlabel
      cases children with
      | nil =>
          refine ⟨_, .label hnames, fun rest hrest => ?_⟩
          rw [text, Token.scan_append hword hrest, List.singleton_append]
      | cons c ds =>
          obtain ⟨inner, hinner, hcuts⟩ :=
            exists_areTerms_textAmong fun d hd => ih d hd (hwritable d hd)
          refine ⟨_, .bracket hnames hinner, fun rest hrest => ?_⟩
          rw [toList_text_cons, List.cons_append, Token.scan_opening, List.append_assoc,
            List.append_assoc, Token.scan_append hword (goesOn_textAmong _ rfl),
            hcuts _ rfl, List.singleton_append, Token.scan_closing]
          simp

lemma IsWritable.read_text (h : t.IsWritable) : read t.text = .ok t := by
  obtain ⟨tokens, hterm, hcut⟩ := h.exists_isTerm
  have hscan := hcut [] rfl
  rw [List.append_nil, Token.scan_nil, List.append_nil] at hscan
  exact read_eq_ok_iff_isTerm.2 (hscan ▸ hterm)

/-- A tree is read from its text, if its nodes are those of words. -/
theorem read_text (h : t.HasWordsIn cs) : read t.text = .ok t := h.isWritable.read_text

/-- The text of a tree consists of its words, brackets and spaces. -/
lemma HasWordsIn.text_subset (h : t.HasWordsIn cs) : t.text.toList ⊆ '(' :: ')' :: ' ' :: cs := by
  induction t using Tree.ind with
  | h label foot children ih =>
      obtain ⟨word, -, hsub, -, hlabel⟩ := h.exists_word
      have hamong : ∀ ds ⊆ children, (textAmong ds).toList ⊆ '(' :: ')' :: ' ' :: cs := by
        intro ds hds
        induction ds with
        | nil => simp [textAmong]
        | cons d ds ihds =>
            obtain ⟨hd, hds⟩ := List.cons_subset.1 hds
            rw [toList_textAmong_cons]
            exact List.cons_subset.2
              ⟨by simp, List.append_subset.2 ⟨ih d hd (h.children d hd), ihds hds⟩⟩
      have hword : word ⊆ '(' :: ')' :: ' ' :: cs := fun c hc => by simp [hsub hc]
      cases children with
      | nil => rwa [text, hlabel]
      | cons c ds =>
          rw [toList_text_cons, hlabel]
          refine List.cons_subset.2 ⟨by simp, List.append_subset.2 ⟨List.append_subset.2
            ⟨hword, hamong _ (List.Subset.refl _)⟩, by simp⟩⟩

/-- The text of a tree does not begin or end with a blank. -/
lemma HasWordsIn.isTrimmed_text (h : t.HasWordsIn cs) : Text.IsTrimmed t.text.toList := by
  obtain ⟨label, foot, children⟩ := t
  obtain ⟨word, hword, -, -, hlabel⟩ := h.exists_word
  cases children with
  | nil =>
      rw [text, hlabel]
      exact Text.isTrimmed_of_forall hword.1 fun c hc => (Token.goesOn_iff.1 (hword.2 c hc)).2.2
  | cons c ds =>
      rw [toList_text_cons]
      exact ⟨⟨'(', _, rfl, by decide⟩, '(' :: _, ')', rfl, by decide⟩

/-! ### Trees and texts -/

/-- A tree is read from its text exactly if there are neither brackets nor blanks in its labels, and
the labels of nodes that are no feet are not empty and do not end in a star. So every tree that is
read is read from its text, and a text that is read and written does not change any more. -/
theorem read_text_exact :
    (∀ t : Tree, read t.text = .ok t ↔ ∀ a u, t.subtreeAt? a = some u →
      (∀ c ∈ u.label.toList, c ≠ '(' ∧ c ≠ ')' ∧ Text.isBlank c = false) ∧
        (u.foot = false → u.label ≠ "" ∧ u.label.toList.getLast? ≠ some '*')) ∧
      (∀ s t, read s = .ok t → read t.text = .ok t) ∧
      ∀ s s', (read s).map text = .ok s' → (read s').map text = .ok s' := by
  have hread : ∀ s t, read s = .ok t → t.IsWritable :=
    fun s t h => (hasWordsIn_of_read h).isWritable
  refine ⟨fun t => ⟨fun h a u hu => ?_, fun h => ?_⟩, fun s t h => (hread s t h).read_text,
    fun s s' h => ?_⟩
  · exact hread _ _ h u (List.mem_map.2 ⟨(a, u), mem_nodes.2 hu, rfl⟩)
  · have hwritable : t.IsWritable := by
      intro u hu
      obtain ⟨⟨a, u⟩, hnode, rfl⟩ := List.mem_map.1 hu
      exact h a u (mem_nodes.1 hnode)
    exact hwritable.read_text
  · cases hs : read s with
    | error fault => simp [hs, Except.map] at h
    | ok t =>
        obtain rfl : t.text = s' := by simpa [hs, Except.map] using h
        rw [(hread s t hs).read_text]
        rfl

end DeductiveParsing.Tree
