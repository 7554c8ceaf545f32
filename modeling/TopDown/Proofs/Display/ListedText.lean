import TopDown.Display.Listing
import TopDown.Proofs.RuleText

/-!
# Reading the text of a listing

The listing of a grammar as plain text is a grammar text. The first line of a group begins a rule,
and every other line adds an alternative to it, however wide the column of the left sides is. So the
groups are read as they were listed, if their left sides and their words are plain.

## Main definitions

* `ListedGroup.IsPlain`: groups that can be read from lines
* `Rule.listed`: the group that a rule is listed as

## Main results

* `RuleText.readAlternatives_spaced`: words are read as the alternative that they are
* `RuleText.foldlM_plainLines`: the lines of a group are read as a rule
* `Listing.readRules_plain`: the groups of a listing are read back
-/

namespace TopDown

namespace RuleText

open Text (isBlank)

/-! ## Alternatives on lines -/

variable {config : Config} {names : List String}

/-- Words as they stand after an arrow or a bar: with a space before each of them. -/
def spaced (names : List String) : List Char :=
  ' ' :: (" ".intercalate names).toList

/-- What holds of spaces and of all characters of words holds of the words with spaces. -/
theorem forall_mem_spaced {P : Char → Prop} (hspace : P ' ')
    (h : ∀ name ∈ names, ∀ c ∈ name.toList, P c) : ∀ c ∈ spaced names, P c := by
  refine List.forall_mem_cons.mpr ⟨hspace, ?_⟩
  rw [String.toList_intercalate]
  induction names with
  | nil => simp
  | cons name names ih =>
    obtain ⟨hname, hnames⟩ := List.forall_mem_cons.mp h
    cases names with
    | nil => simpa using hname
    | cons name' names =>
      rw [List.map_cons, List.map_cons, List.intercalate_cons_cons]
      refine List.forall_mem_append.mpr ⟨List.forall_mem_append.mpr ⟨hname, ?_⟩, ih hnames⟩
      simpa using hspace

/-- The last character of words is not blank. -/
theorem exists_getLast?_spaced (hne : names ≠ []) (h : ∀ name ∈ names, Text.IsWord name) :
    ∃ last, (spaced names).getLast? = some last ∧ isBlank last = false := by
  have hlast : ∃ last ∈ (" ".intercalate names).toList.getLast?, isBlank last = false := by
    rw [String.toList_intercalate]
    induction names with
    | nil => exact absurd rfl hne
    | cons name names ih =>
      obtain ⟨hname, hnames⟩ := List.forall_mem_cons.mp h
      cases names with
      | nil =>
        rw [List.map_singleton, List.intercalate_singleton]
        exact ⟨_, List.getLast?_eq_some_getLast hname.ne_nil,
          hname.isBlank_eq_false _ (List.getLast_mem hname.ne_nil)⟩
      | cons name' names =>
        obtain ⟨last, hlast, hsolid⟩ := ih (List.cons_ne_nil _ _) hnames
        refine ⟨last, ?_, hsolid⟩
        rw [List.map_cons, List.map_cons, List.intercalate_cons_cons, List.getLast?_append,
          ← List.map_cons, Option.mem_def.mp hlast, Option.some_or]
        rfl
  obtain ⟨last, hlast, hsolid⟩ := hlast
  refine ⟨last, ?_, hsolid⟩
  rw [spaced, List.getLast?_cons, Option.mem_def.mp hlast, Option.getD_some]

theorem arrowFree_spaced (h : ∀ name ∈ names, IsPlainWord name) : ArrowFree (spaced names) := by
  have hspace : ∀ c ∈ [' '], isBlank c = true := List.forall_mem_singleton.mpr Text.isBlank_space
  exact (arrowFree_intercalate fun name hname => (h name hname).arrowFree).blank_append hspace

/-- **Words are read as the alternative that they are.** -/
theorem readAlternatives_spaced (hne : names ≠ []) (h : ∀ name ∈ names, IsPlainWord name) :
    readAlternatives config (spaced names) = .ok [names] := by
  have hbar : ∀ c ∈ spaced names, (c == '|') = false :=
    forall_mem_spaced (by decide) fun name hname c hc => by
      rw [beq_eq_false_iff_ne]
      rintro rfl
      exact (h name hname).bar_notMem hc
  have hwords : Text.words (spaced names) = names :=
    (Text.words_cons_blank Text.isBlank_space _).trans
      (Text.words_intercalate fun name hname => (h name hname).isWord)
  rw [readAlternatives_eq_ok_iff, List.splitOnP_eq_singleton hbar, List.map_singleton, hwords]
  exact ⟨rfl, by simpa using hne⟩

end RuleText

/-! ## Groups on lines -/

/-- A group that can be read from lines. -/
def ListedGroup.IsPlain (group : ListedGroup) : Prop :=
  Rule.IsPlain ⟨group.left, group.rights, []⟩

/-- The group that a rule is listed as. -/
def Rule.listed (rule : Rule) : ListedGroup :=
  ⟨rule.left, rule.alternatives⟩

namespace RuleText

open Text (isBlank)

variable {config : Config} {names : List String} {left : String}

theorem toList_firstLine (width : Nat) (left : String) (names : List String) :
    (Text.padLeft width left ++ " -> " ++ " ".intercalate names).toList =
      List.replicate (width - left.length) ' ' ++ (left.toList ++ [' ']) ++
        (arrow ++ spaced names) := by
  simp [Text.padLeft, List.leftpad, arrow, spaced, String.length_toList]

theorem toList_otherLine (width : Nat) (names : List String) :
    (Text.padLeft width "" ++ "  | " ++ " ".intercalate names).toList =
      List.replicate (width + 2) ' ' ++ '|' :: spaced names := by
  simp [Text.padLeft, List.leftpad, spaced, List.replicate_succ']

/-- The line that a rule begins with is read as a rule. -/
theorem read_firstLine (width : Nat) (hleft : Text.IsWord left) (hfree : ArrowFree left.toList)
    (h : ∀ name ∈ names, IsPlainWord name) :
    Line.read (Text.padLeft width left ++ " -> " ++ " ".intercalate names).toList =
      .ok (.rule left (spaced names)) := by
  rw [toList_firstLine]
  exact Line.read_rule hleft hfree (arrowFree_spaced h) Text.isBlank_of_mem_replicate
    (List.forall_mem_singleton.mpr Text.isBlank_space)

/-- The other lines of a rule are read as more alternatives. -/
theorem read_otherLine (width : Nat) (hne : names ≠ []) (h : ∀ name ∈ names, IsPlainWord name) :
    Line.read (Text.padLeft width "" ++ "  | " ++ " ".intercalate names).toList =
      .ok (.more (spaced names)) := by
  obtain ⟨last, hlast, hsolid⟩ := exists_getLast?_spaced hne fun name hname => (h name hname).isWord
  have hend : ('|' :: spaced names).getLast? = some last := by
    rw [List.getLast?_cons, hlast, Option.getD_some]
  have hbar : ArrowFree ('|' :: spaced names) := by
    refine arrowFree_cons.mpr ⟨?_, arrowFree_spaced h⟩
    rintro b - ⟨hbar, -⟩
    exact absurd hbar (by decide)
  have htrim : Text.trimChars (List.replicate (width + 2) ' ' ++ (('|' :: spaced names) ++ [])) =
      '|' :: spaced names :=
    Text.trimChars_append Text.isBlank_of_mem_replicate (by simp) rfl hend ⟨by decide, hsolid⟩
  rw [List.append_nil] at htrim
  rw [toList_otherLine]
  exact Line.read_more htrim (hbar.blank_append Text.isBlank_of_mem_replicate)

variable {earlier : List Rule} {rule : Rule} {line : List Char} {k : Nat}

theorem addLine_rule (hread : Line.read line = .ok (.rule left (spaced names)))
    (hne : names ≠ []) (h : ∀ name ∈ names, IsPlainWord name) :
    addLine config earlier (line, k) = .ok (extend ⟨left, [], []⟩ k [names] :: earlier) := by
  rw [addLine.eq_def]
  dsimp only
  rw [hread]
  dsimp only
  rw [addAlternatives, readAlternatives_spaced hne h]

theorem addLine_more (hread : Line.read line = .ok (.more (spaced names)))
    (hne : names ≠ []) (h : ∀ name ∈ names, IsPlainWord name) :
    addLine config (rule :: earlier) (line, k) = .ok (extend rule k [names] :: earlier) := by
  rw [addLine.eq_def]
  dsimp only
  rw [hread]
  dsimp only
  rw [addAlternatives, readAlternatives_spaced hne h]

/-- The other lines of a group add its other alternatives. -/
theorem foldlM_otherLines (config : Config) (width : Nat) {rights : List (List String)}
    (h : ∀ names ∈ rights, names ≠ [] ∧ ∀ name ∈ names, IsPlainWord name) (k : Nat) (rule : Rule)
    (earlier : List Rule) : ∃ rule' : Rule,
      (((rights.map fun right => Text.padLeft width "" ++ "  | " ++ " ".intercalate right).map
        String.toList).zipIdx k).foldlM (addLine config) (rule :: earlier) =
          .ok (rule' :: earlier) ∧
      rule'.listed = ⟨rule.left, rule.alternatives ++ rights⟩ := by
  induction rights generalizing k rule with
  | nil => exact ⟨rule, rfl, by rw [List.append_nil, Rule.listed]⟩
  | cons names rights ih =>
    obtain ⟨⟨hne, hnames⟩, hrights⟩ := List.forall_mem_cons.mp h
    obtain ⟨rule', hfold, hlisted⟩ := ih hrights (k + 1) (extend rule k [names])
    refine ⟨rule', ?_, ?_⟩
    · rw [List.map_cons, List.map_cons, List.zipIdx_cons, List.foldlM_cons,
        addLine_more (read_otherLine width hne hnames) hne hnames]
      exact hfold
    · rw [hlisted, extend, List.append_assoc]
      rfl

/-- **The lines of a group are read as a rule** that is listed as the group. -/
theorem foldlM_plainLines (config : Config) (width : Nat) {group : ListedGroup}
    (hgroup : group.IsPlain) (k : Nat) (earlier : List Rule) : ∃ rule : Rule,
      (((group.plainLines width).map String.toList).zipIdx k).foldlM (addLine config) earlier =
        .ok (rule :: earlier) ∧
      rule.listed = group := by
  obtain ⟨left, rights⟩ := group
  obtain ⟨hleft, hfree, hsome, hwords⟩ := hgroup
  dsimp only at hleft hfree hsome hwords
  cases rights with
  | nil => exact absurd rfl hsome
  | cons names rights =>
    obtain ⟨⟨hne, hnames⟩, hrights⟩ := List.forall_mem_cons.mp hwords
    obtain ⟨rule, hfold, hlisted⟩ :=
      foldlM_otherLines config width hrights (k + 1) (extend ⟨left, [], []⟩ k [names]) earlier
    refine ⟨rule, ?_, hlisted⟩
    rw [ListedGroup.plainLines, List.map_cons, List.zipIdx_cons, List.foldlM_cons,
      addLine_rule (read_firstLine width hleft hfree hnames) hne hnames]
    exact hfold

/-- The lines of groups are read as one rule for each of them; the latest rule comes first. -/
theorem foldlM_groups (config : Config) (width : Nat) {groups : List ListedGroup}
    (h : ∀ group ∈ groups, group.IsPlain) (k : Nat) (earlier : List Rule) : ∃ rules : List Rule,
      (((groups.flatMap (ListedGroup.plainLines width)).map String.toList).zipIdx k).foldlM
        (addLine config) earlier = .ok (rules.reverse ++ earlier) ∧
      rules.map Rule.listed = groups := by
  induction groups generalizing k earlier with
  | nil => exact ⟨[], rfl, rfl⟩
  | cons group groups ih =>
    obtain ⟨hgroup, hgroups⟩ := List.forall_mem_cons.mp h
    obtain ⟨rule, hfirst, hlisted⟩ := foldlM_plainLines config width hgroup k earlier
    obtain ⟨rules, hrest, hlistedRest⟩ :=
      ih hgroups (k + ((group.plainLines width).map String.toList).length) (rule :: earlier)
    refine ⟨rule :: rules, ?_, by rw [List.map_cons, hlisted, hlistedRest]⟩
    rw [List.flatMap_cons, List.map_append, List.zipIdx_append, List.foldlM_append, hfirst]
    refine hrest.trans ?_
    rw [List.reverse_cons, List.append_assoc]
    rfl

end RuleText

namespace Listing

open RuleText

/-- No line of a group holds a line end. -/
theorem newline_notMem_plainLines (width : Nat) {group : ListedGroup} (hgroup : group.IsPlain) :
    ∀ line ∈ group.plainLines width, '\n' ∉ line.toList := by
  have hword : ∀ {w : String}, Text.IsWord w → ∀ c ∈ w.toList, c ≠ '\n' := by
    rintro w hw c hc rfl
    exact absurd (hw.isBlank_eq_false _ hc) (by decide)
  have hspaced : ∀ names ∈ group.rights, '\n' ∉ spaced names := fun names hnames hmem =>
    forall_mem_spaced (P := (· ≠ '\n')) (by decide)
      (fun name hname => hword ((hgroup.words names hnames).2 name hname).isWord) _ hmem rfl
  have hpad : ∀ n, '\n' ∉ List.replicate n ' ' := fun n hmem =>
    absurd (List.eq_of_mem_replicate hmem) (by decide)
  rw [ListedGroup.plainLines.eq_def]
  split
  · simp
  · next names rights hrights =>
    rw [hrights] at hspaced
    obtain ⟨hfirst, hothers⟩ := List.forall_mem_cons.mp hspaced
    refine List.forall_mem_cons.mpr ⟨?_, List.forall_mem_map.mpr fun names hnames => ?_⟩
    · have hleft : '\n' ∉ group.left.toList := fun hmem => hword hgroup.isWord_left _ hmem rfl
      rw [toList_firstLine]
      simp [hpad, hleft, hfirst, arrow]
    · rw [toList_otherLine]
      simp [hpad, hothers names hnames]

/-- **The groups of a listing are read back.** -/
theorem readRules_plain (config : Config) (width : Nat) {groups : List ListedGroup}
    (hne : groups ≠ []) (h : ∀ group ∈ groups, group.IsPlain) : ∃ rules : List Rule,
      RuleText.readRules config
        ("\n".intercalate (groups.flatMap (ListedGroup.plainLines width))) = .ok rules ∧
      rules.map Rule.listed = groups := by
  have hlines : (groups.flatMap (ListedGroup.plainLines width)).map String.toList ≠ [] := by
    obtain ⟨group, rest, rfl⟩ := List.exists_cons_of_ne_nil hne
    have hsome := (h group List.mem_cons_self).alternatives_ne_nil
    rw [Ne, List.map_eq_nil_iff, List.flatMap_cons, List.append_eq_nil_iff,
      ListedGroup.plainLines.eq_def]
    rintro ⟨hnil, -⟩
    split at hnil
    · next hrights => exact hsome hrights
    · cases hnil
  have hnewline : ∀ line ∈ (groups.flatMap (ListedGroup.plainLines width)).map String.toList,
      '\n' ∉ line := by
    refine List.forall_mem_map.mpr fun line hline => ?_
    obtain ⟨group, hgroup, hline⟩ := List.mem_flatMap.mp hline
    exact newline_notMem_plainLines width (h group hgroup) line hline
  have hsplit : numberedLines
      ("\n".intercalate (groups.flatMap (ListedGroup.plainLines width))).toList =
        ((groups.flatMap (ListedGroup.plainLines width)).map String.toList).zipIdx 1 := by
    rw [String.toList_intercalate]
    exact congrArg (List.zipIdx · 1) (List.splitOn_intercalate '\n' hnewline hlines)
  obtain ⟨rules, hfold, hlisted⟩ := foldlM_groups config width h 1 []
  refine ⟨rules, ?_, hlisted⟩
  rw [readRules, hsplit, hfold, List.append_nil]
  exact congrArg Except.ok (List.reverse_reverse rules)

end Listing

end TopDown
