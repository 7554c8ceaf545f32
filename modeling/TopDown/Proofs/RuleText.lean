import Mathlib.Data.List.Chain
import TopDown.Proofs.Grammar.WellFormed
import TopDown.Proofs.Text.Words
import TopDown.RuleText

/-!
# Reading rules on lines

A line is cut at the first arrow in it, and one with two arrows is refused. So neither left sides
nor the words of alternatives hold an arrow, and words hold no bar either, since bars divide
alternatives; rules that are read from a text are *plain* (`Rule.IsPlain`). Nothing more is asked of
a rule that is to be read: a line that holds a plain left side, an arrow and words gives them back,
with any blanks around them, and so does a line that starts with a bar.

## Main definitions

* `ArrowFree`: texts without an arrow
* `Rule.IsPlain`: rules that can be written on lines

## Main results

* `cutAt_arrow_eq_none_iff`, `cutAt_arrow_append`: where a text is cut
* `readAlternatives_eq_ok_iff`: what a right side is read as
* `Line.read_rule`, `Line.read_more`: what lines are read as
* `isPlain_of_readRules`: what is read from a text is plain
-/

namespace TopDown

namespace RuleText

open Text (isBlank IsWord)

variable {cs cs' before after right : List Char} {config : Config}

/-! ## Arrows -/

/-- A text without an arrow: nowhere in it a dash comes right before a right angle. -/
def ArrowFree (cs : List Char) : Prop :=
  cs.IsChain fun a b => ¬ (a = '-' ∧ b = '>')

theorem ArrowFree.mono (h : ArrowFree cs) (hpart : cs' <:+: cs) : ArrowFree cs' :=
  List.IsChain.infix h hpart

theorem arrowFree_append : ArrowFree (cs ++ cs') ↔ ArrowFree cs ∧ ArrowFree cs' ∧
    ∀ a ∈ cs.getLast?, ∀ b ∈ cs'.head?, ¬ (a = '-' ∧ b = '>') :=
  List.isChain_append

theorem arrowFree_cons {c : Char} : ArrowFree (c :: cs) ↔
    (∀ b ∈ cs.head?, ¬ (c = '-' ∧ b = '>')) ∧ ArrowFree cs :=
  List.isChain_cons

/-- Blanks hold no arrow. -/
theorem arrowFree_of_isBlank (h : ∀ c ∈ cs, isBlank c = true) : ArrowFree cs := by
  induction cs with
  | nil => exact List.isChain_nil
  | cons c cs ih =>
    obtain ⟨hc, hcs⟩ := List.forall_mem_cons.mp h
    refine arrowFree_cons.mpr ⟨?_, ih hcs⟩
    rintro b - ⟨rfl, -⟩
    exact absurd hc (by decide)

/-- No arrow comes about where blanks are. -/
theorem ArrowFree.blank_append (h : ArrowFree cs) (hbefore : ∀ c ∈ before, isBlank c = true) :
    ArrowFree (before ++ cs) := by
  refine arrowFree_append.mpr ⟨arrowFree_of_isBlank hbefore, h, ?_⟩
  rintro a ha b - ⟨rfl, -⟩
  exact absurd (hbefore _ (List.mem_of_getLast? ha)) (by decide)

theorem ArrowFree.append_blank (h : ArrowFree cs) (hafter : ∀ c ∈ after, isBlank c = true) :
    ArrowFree (cs ++ after) := by
  refine arrowFree_append.mpr ⟨h, arrowFree_of_isBlank hafter, ?_⟩
  rintro a - b hb ⟨-, rfl⟩
  exact absurd (hafter _ (List.mem_of_head? hb)) (by decide)

/-- Words without arrows have none when there are spaces between them. -/
theorem arrowFree_intercalate {ws : List String} (h : ∀ w ∈ ws, ArrowFree w.toList) :
    ArrowFree (" ".intercalate ws).toList := by
  rw [String.toList_intercalate]
  induction ws with
  | nil => exact List.isChain_nil
  | cons w ws ih =>
    obtain ⟨hw, hws⟩ := List.forall_mem_cons.mp h
    cases ws with
    | nil =>
      rw [List.map_singleton, List.intercalate_singleton]
      exact hw
    | cons w' ws =>
      have hspace : ∀ c ∈ " ".toList, isBlank c = true :=
        List.forall_mem_singleton.mpr Text.isBlank_space
      rw [List.map_cons, List.map_cons, List.intercalate_cons_cons, List.append_assoc]
      refine arrowFree_append.mpr ⟨hw, (ih hws).blank_append hspace, ?_⟩
      rintro a - b ⟨rfl⟩ ⟨-, hb⟩
      cases hb

theorem isPrefixOf_arrow_iff {c : Char} :
    arrow.isPrefixOf (c :: cs) = true ↔ c = '-' ∧ '>' ∈ cs.head? := by
  cases cs with
  | nil => simp [arrow, List.isPrefixOf]
  | cons d cs =>
    simp only [arrow, List.isPrefixOf, Bool.and_true, Bool.and_eq_true, beq_iff_eq,
      List.head?_cons, Option.mem_def, Option.some.injEq]
    exact and_congr eq_comm eq_comm

/-- A text without an arrow is not cut. -/
theorem cutAt_arrow_eq_none_iff : Text.cutAt arrow cs = none ↔ ArrowFree cs := by
  induction cs with
  | nil => exact ⟨fun _ => List.isChain_nil, fun _ => rfl⟩
  | cons c cs ih =>
    rw [Text.cutAt, arrowFree_cons, ← ih]
    split
    · next hprefix =>
      obtain ⟨hc, hhead⟩ := isPrefixOf_arrow_iff.mp hprefix
      constructor
      · intro h
        cases h
      · rintro ⟨hnone, -⟩
        exact absurd ⟨hc, rfl⟩ (hnone '>' hhead)
    · next hprefix =>
      rw [Option.map_eq_none_iff]
      refine (and_iff_right ?_).symm
      rintro b hb ⟨hc, rfl⟩
      exact hprefix (isPrefixOf_arrow_iff.mpr ⟨hc, hb⟩)

/-- **A text is cut at the first arrow.** -/
theorem cutAt_arrow_append (h : ArrowFree cs) :
    Text.cutAt arrow (cs ++ (arrow ++ right)) = some (cs, right) := by
  induction cs with
  | nil => rfl
  | cons c cs ih =>
    obtain ⟨hhead, hcs⟩ := arrowFree_cons.mp h
    have hprefix : ¬ arrow.isPrefixOf (c :: (cs ++ (arrow ++ right))) = true := by
      rw [isPrefixOf_arrow_iff]
      rintro ⟨hc, hnext⟩
      cases cs with
      | nil => cases hnext
      | cons d cs => exact hhead _ hnext ⟨hc, rfl⟩
    rw [List.cons_append, Text.cutAt, if_neg hprefix, ih hcs]
    rfl

/-- What stands before the first arrow holds none. -/
theorem arrowFree_of_cutAt (h : Text.cutAt arrow cs = some (before, after)) : ArrowFree before := by
  induction cs generalizing before with
  | nil => cases h
  | cons c cs ih =>
    rw [Text.cutAt] at h
    split at h
    · cases h
      exact List.isChain_nil
    · next hprefix =>
      obtain ⟨⟨start, rest⟩, hcut, heq⟩ := Option.map_eq_some_iff.mp h
      cases heq
      refine arrowFree_cons.mpr ⟨?_, ih hcut⟩
      rintro b hb ⟨hc, rfl⟩
      refine hprefix (isPrefixOf_arrow_iff.mpr ⟨hc, ?_⟩)
      rw [← Text.append_of_cutAt hcut, List.head?_append, Option.mem_def.mp hb]
      rfl

/-! ## Right sides -/

/-- The pieces of a right side are read one by one. -/
theorem mapM_words_eq_ok_iff {pieces : List (List Char)} {alternatives : List (List String)}
    {flaw : Flaw} : (pieces.mapM fun piece => match Text.words piece with
      | [] => Except.error flaw
      | word :: words => .ok (word :: words)) = .ok alternatives ↔
    pieces.map Text.words = alternatives ∧ ∀ names ∈ alternatives, names ≠ [] := by
  induction pieces generalizing alternatives with
  | nil =>
    rw [List.mapM_nil, List.map_nil]
    constructor
    · rintro ⟨rfl⟩
      simp
    · rintro ⟨rfl, -⟩
      rfl
  | cons piece pieces ih =>
    rw [List.mapM_cons, List.map_cons]
    cases hwords : Text.words piece with
    | nil =>
      constructor
      · intro h
        cases h
      · rintro ⟨rfl, hne⟩
        exact absurd rfl (hne [] List.mem_cons_self)
    | cons word words =>
      constructor
      · intro h
        obtain ⟨_, ⟨rfl⟩, h⟩ := exists_of_bind_ok h
        obtain ⟨rest, hrest, ⟨rfl⟩⟩ := exists_of_bind_ok h
        obtain ⟨rfl, hne⟩ := ih.mp hrest
        exact ⟨rfl, by simpa using hne⟩
      · rintro ⟨rfl, hne⟩
        have hrest := ih.mpr ⟨rfl, fun names hnames => hne names (List.mem_cons_of_mem _ hnames)⟩
        change (_ >>= fun rest => Except.ok ((word :: words) :: rest)) = _
        rw [hrest]
        rfl

/-- **A right side is read as the words between its bars**, if there are words between any two. -/
theorem readAlternatives_eq_ok_iff {alternatives : List (List String)} :
    readAlternatives config right = .ok alternatives ↔
      (right.splitOnP (· == '|')).map Text.words = alternatives ∧
        ∀ names ∈ alternatives, names ≠ [] :=
  mapM_words_eq_ok_iff

/-! ## Lines -/

namespace Line

variable {line : List Char} {left : String}

/-- A line with a character that is not blank. -/
theorem all_isBlank_eq_false {c : Char} (hmem : c ∈ line) (hc : isBlank c = false) :
    ¬ line.all isBlank = true := by
  intro hall
  have hblank := List.all_eq_true.mp hall c hmem
  rw [hc] at hblank
  cases hblank

/-- **A line with a left side, an arrow and a right side is read as a rule**, whatever blanks there
are around the left side. -/
theorem read_rule (hleft : IsWord left) (hfree : ArrowFree left.toList) (hright : ArrowFree right)
    (hbefore : ∀ c ∈ before, isBlank c = true) (hafter : ∀ c ∈ after, isBlank c = true) :
    Line.read (before ++ (left.toList ++ after) ++ (arrow ++ right)) = .ok (.rule left right) := by
  have hdash : '-' ∈ before ++ (left.toList ++ after) ++ (arrow ++ right) := by simp [arrow]
  have hcut : Text.cutAt arrow (before ++ (left.toList ++ after) ++ (arrow ++ right)) =
      some (before ++ (left.toList ++ after), right) :=
    cutAt_arrow_append ((hfree.append_blank hafter).blank_append hbefore)
  obtain ⟨hempty, hblank⟩ := Text.isWord_iff.mp hleft
  rw [Line.read, if_neg (all_isBlank_eq_false hdash (by decide)), hcut]
  dsimp only
  rw [hleft.trimChars_append hbefore hafter, String.ofList_toList,
    cutAt_arrow_eq_none_iff.mpr hright, hempty, hblank]
  rfl

/-- **A line that starts with a bar adds alternatives.** -/
theorem read_more (h : Text.trimChars line = '|' :: right) (hfree : ArrowFree line) :
    Line.read line = .ok (.more right) := by
  have hbar : '|' ∈ line := by
    refine (Text.trimChars_isInfix line).subset ?_
    rw [h]
    exact List.mem_cons_self
  rw [Line.read, if_neg (all_isBlank_eq_false hbar (by decide)),
    cutAt_arrow_eq_none_iff.mpr hfree]
  dsimp only
  rw [h]
  rfl

/-- What a rule on a line is made of. -/
theorem of_read_rule (h : Line.read line = .ok (.rule left right)) :
    IsWord left ∧ ArrowFree left.toList ∧ ArrowFree right := by
  rw [Line.read] at h
  split at h
  · cases h
  · split at h
    · next before after hcut =>
      dsimp only at h
      split_ifs at h with hsecond hempty hblank
      cases h
      refine ⟨Text.isWord_iff.mpr ⟨by simpa using hempty, by simpa using hblank⟩, ?_, ?_⟩
      · rw [String.toList_ofList]
        exact (arrowFree_of_cutAt hcut).mono (Text.trimChars_isInfix _)
      · rw [← cutAt_arrow_eq_none_iff]
        simpa using hsecond
    · split at h <;> cases h

/-- There is no arrow on a line that adds alternatives. -/
theorem of_read_more (h : Line.read line = .ok (.more right)) : ArrowFree right := by
  rw [Line.read] at h
  split at h
  · cases h
  · split at h
    · dsimp only at h
      split_ifs at h
      cases h
    · next hcut =>
      split at h
      · next hline =>
        cases h
        have hpart := Text.trimChars_isInfix line
        rw [hline] at hpart
        exact (cutAt_arrow_eq_none_iff.mp hcut).mono
          ((List.suffix_cons _ _).isInfix.trans hpart)
      · cases h

end Line

end RuleText

/-! ## Plain rules -/

/-- A word that can be written in an alternative. -/
structure RuleText.IsPlainWord (w : String) : Prop where
  isWord : Text.IsWord w
  arrowFree : RuleText.ArrowFree w.toList
  bar_notMem : '|' ∉ w.toList

/-- A rule that can be written on lines: its left side is a word without an arrow, it has
alternatives, and these are made of one or more words without arrows and bars. -/
structure Rule.IsPlain (rule : Rule) : Prop where
  isWord_left : Text.IsWord rule.left
  arrowFree_left : RuleText.ArrowFree rule.left.toList
  alternatives_ne_nil : rule.alternatives ≠ []
  words : ∀ names ∈ rule.alternatives,
    names ≠ [] ∧ ∀ name ∈ names, RuleText.IsPlainWord name

namespace RuleText

variable {config : Config} {right : List Char} {rule : Rule} {earlier rules : List Rule}

/-- What is read of a right side without an arrow. -/
theorem isPlainWord_of_readAlternatives {alternatives : List (List String)}
    (h : readAlternatives config right = .ok alternatives) (hright : ArrowFree right) :
    alternatives ≠ [] ∧ ∀ names ∈ alternatives,
      names ≠ [] ∧ ∀ name ∈ names, IsPlainWord name := by
  obtain ⟨rfl, hne⟩ := readAlternatives_eq_ok_iff.mp h
  constructor
  · simp [List.splitOnP_ne_nil]
  · intro names hnames
    refine ⟨hne names hnames, fun name hname => ?_⟩
    obtain ⟨piece, hpiece, rfl⟩ := List.mem_map.mp hnames
    obtain ⟨hbar, hpart⟩ := Text.isInfix_of_mem_splitOnP hpiece
    have hword := Text.isInfix_of_mem_words hname
    refine ⟨Text.isWord_of_mem_words hname, hright.mono (hword.trans hpart), fun hmem => ?_⟩
    exact absurd (hbar '|' (hword.subset hmem)) (by decide)

theorem isPlain_of_addAlternatives {line : Nat}
    (h : addAlternatives config line right rule earlier = .ok rules) (hright : ArrowFree right)
    (hleft : Text.IsWord rule.left) (hfree : ArrowFree rule.left.toList)
    (hwords : ∀ names ∈ rule.alternatives, names ≠ [] ∧ ∀ name ∈ names, IsPlainWord name)
    (hearlier : ∀ rule ∈ earlier, rule.IsPlain) : ∀ rule ∈ rules, rule.IsPlain := by
  rw [addAlternatives] at h
  split at h
  · cases h
  · next alternatives hread =>
    cases h
    obtain ⟨hne, hmore⟩ := isPlainWord_of_readAlternatives hread hright
    refine List.forall_mem_cons.mpr ⟨⟨hleft, hfree, by simp [extend, hne], ?_⟩, hearlier⟩
    intro names hnames
    rcases List.mem_append.mp hnames with hnames | hnames
    · exact hwords names hnames
    · exact hmore names hnames

/-- A line keeps the rules plain. -/
theorem isPlain_of_addLine {line : List Char × Nat} (h : addLine config earlier line = .ok rules)
    (hearlier : ∀ rule ∈ earlier, rule.IsPlain) : ∀ rule ∈ rules, rule.IsPlain := by
  rw [addLine.eq_def] at h
  split at h
  · cases h
  · cases h
    exact hearlier
  · next left right hread =>
    obtain ⟨hleft, hfree, hright⟩ := Line.of_read_rule hread
    exact isPlain_of_addAlternatives h hright hleft hfree (by simp) hearlier
  · next right rule earlier hread =>
    obtain ⟨hrule, hearlier⟩ := List.forall_mem_cons.mp hearlier
    exact isPlain_of_addAlternatives h (Line.of_read_more hread) hrule.isWord_left
      hrule.arrowFree_left hrule.words hearlier
  · cases h

/-- **Rules that are read from a text are plain.** -/
theorem isPlain_of_readRules {text : String} (h : readRules config text = .ok rules) :
    ∀ rule ∈ rules, rule.IsPlain := by
  rw [readRules] at h
  cases hfold : (numberedLines text.toList).foldlM (addLine config) [] with
  | error e =>
    rw [hfold] at h
    cases h
  | ok latest =>
    rw [hfold] at h
    cases h
    have hlatest : ∀ rule ∈ latest, rule.IsPlain :=
      foldlM_induction (fun _ _ _ hstep hrules => isPlain_of_addLine hstep hrules) hfold (by simp)
    intro rule hrule
    exact hlatest rule (List.mem_reverse.mp hrule)

end RuleText

end TopDown
