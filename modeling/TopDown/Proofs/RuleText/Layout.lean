import TopDown.Proofs.RuleText

/-!
# Layouts of rules

The same rules can be written in many ways. A line with a left side, an arrow and alternatives
begins a rule; the alternatives that it does not hold stand on lines below it, each of which starts
with a bar; blank lines stand anywhere. Lines end with a line feed, or with a carriage return and a
line feed. Words have blanks between them, and there may be blanks around left sides, arrows and
bars. A text with lines of this kind *lays out* the rules, and every alternative has the number of
the line that it stands on (`LaysOut`).

The reader goes through the lines with the rules that it has read so far, of which a line either
adds one or continues the latest. So a layout is described in the same order, with the alternatives
that come before the next left side apart from the rules after them: these are the alternatives that
the lines add to a rule above them. What is read from a text is exactly what the text lays out.

## Main definitions

* `IsGap`: blanks inside a line
* `SpacedWords`, `BarredAlternatives`: how words and alternatives are written
* `LaysOut`: lines that continue a rule and lay out others
* `LinesOf`: the lines of a text
* `HoldsLeft`, `HoldsAlternative`, `Rule.StandsIn`: what stands on the lines of a rule

## Main results

* `BarredAlternatives.readAlternatives_eq`, `barredAlternatives_of_words`: right sides
* `LaysOut.foldlM_addLine`: a layout is read as the rules that it lays out
* `laysOut_of_foldlM`: lines that are read lay out what is read
* `LaysOut.standsIn`: where the alternatives stand
* `readRules_layout`: what is read from a text, and where it stands
-/

namespace TopDown

namespace RuleText

open Text (isBlank IsWord)

/-! ## How rules are written -/

/-- Blanks that stand inside a line; there may be none. -/
def IsGap (cs : List Char) : Prop :=
  ∀ c ∈ cs, isBlank c = true ∧ c ≠ '\n'

instance (cs : List Char) : Decidable (IsGap cs) :=
  List.decidableBAll (fun c => isBlank c = true ∧ c ≠ '\n') cs

/-- One or more words with blanks between any two of them. -/
inductive SpacedWords : List String → List Char → Prop where
  | single (w : String) : SpacedWords [w] w.toList
  | cons (w : String) {gap cs : List Char} {ws : List String} (hgap : IsGap gap) (hne : gap ≠ [])
      (h : SpacedWords ws cs) : SpacedWords (w :: ws) (w.toList ++ (gap ++ cs))

/-- One or more alternatives with bars between any two of them. -/
inductive BarredAlternatives : List (List String) → List Char → Prop where
  | single {names : List String} {before cs after : List Char} (hbefore : IsGap before)
      (h : SpacedWords names cs) (hafter : IsGap after) :
      BarredAlternatives [names] (before ++ (cs ++ after))
  | cons {names : List String} {before cs after right : List Char}
      {alternatives : List (List String)} (hbefore : IsGap before) (h : SpacedWords names cs)
      (hafter : IsGap after) (hright : BarredAlternatives alternatives right) :
      BarredAlternatives (names :: alternatives) (before ++ (cs ++ after) ++ '|' :: right)

/-- Lines from a number on add alternatives to a rule above them, each with the number of its line,
and lay out rules after that. -/
inductive LaysOut : Nat → List (List Char) → List (List String × Nat) → List Rule → Prop where
  | nil (k : Nat) : LaysOut k [] [] []
  | blank {k : Nat} {line : List Char} {lines : List (List Char)} {more : List (List String × Nat)}
      {rules : List Rule} (hline : IsGap line) (h : LaysOut (k + 1) lines more rules) :
      LaysOut k (line :: lines) more rules
  | more {k : Nat} {before right : List Char} {lines : List (List Char)}
      {alternatives : List (List String)} {more : List (List String × Nat)} {rules : List Rule}
      (hbefore : IsGap before) (hright : BarredAlternatives alternatives right)
      (h : LaysOut (k + 1) lines more rules) :
      LaysOut k ((before ++ '|' :: right) :: lines) (alternatives.map (·, k) ++ more) rules
  | rule {k : Nat} {left : String} {before after right : List Char} {lines : List (List Char)}
      {alternatives : List (List String)} {more : List (List String × Nat)} {rules : List Rule}
      (hbefore : IsGap before) (hafter : IsGap after)
      (hright : BarredAlternatives alternatives right) (h : LaysOut (k + 1) lines more rules) :
      LaysOut k ((before ++ (left.toList ++ after) ++ (arrow ++ right)) :: lines) []
        (⟨left, alternatives ++ more.map Prod.fst,
          alternatives.map (fun _ => k) ++ more.map Prod.snd⟩ :: rules)

/-- The lines of a text. Each but the last ends with a line feed, or with a carriage return and a
line feed. -/
inductive LinesOf : List Char → List (List Char) → Prop where
  | last {line : List Char} (hline : '\n' ∉ line) : LinesOf line [line]
  | lf {line cs : List Char} {lines : List (List Char)} (hline : '\n' ∉ line)
      (h : LinesOf cs lines) : LinesOf (line ++ '\n' :: cs) (line :: lines)
  | crlf {line cs : List Char} {lines : List (List Char)} (hline : '\n' ∉ line)
      (h : LinesOf cs lines) : LinesOf (line ++ '\r' :: '\n' :: cs) (line :: lines)

/-- The line begins a rule with a left side. -/
def HoldsLeft (line : List Char) (left : String) : Prop :=
  ∃ before after right, IsGap before ∧ IsGap after ∧
    line = before ++ (left.toList ++ after) ++ (arrow ++ right)

/-- An alternative stands on the line: its words come after an arrow or a bar, and after them comes
another bar or the end of the line. -/
def HoldsAlternative (line : List Char) (names : List String) : Prop :=
  ∃ start mark before cs after rest, (mark = arrow ∨ mark = ['|']) ∧ IsGap before ∧
    SpacedWords names cs ∧ IsGap after ∧ (rest = [] ∨ '|' ∈ rest.head?) ∧
    line = start ++ mark ++ (before ++ (cs ++ after) ++ rest)

end RuleText

/-- A rule with more alternatives, each with the number of its line. -/
def Rule.adds (rule : Rule) (more : List (List String × Nat)) : Rule :=
  { rule with
    alternatives := rule.alternatives ++ more.map Prod.fst
    lines := rule.lines ++ more.map Prod.snd }

theorem Rule.adds_nil (rule : Rule) : rule.adds [] = rule := by
  simp [Rule.adds]

theorem Rule.adds_append (rule : Rule) (more more' : List (List String × Nat)) :
    rule.adds (more ++ more') = (rule.adds more).adds more' := by
  simp [Rule.adds]

/-- Every alternative of a rule stands on the line that the rule has for it, and the line of the
first of them begins with the left side. -/
structure Rule.StandsIn (numbered : List (List Char × Nat)) (rule : Rule) : Prop where
  length_lines : rule.lines.length = rule.alternatives.length
  alternatives : ∀ a ∈ rule.alternatives.zip rule.lines, ∃ line, (line, a.2) ∈ numbered ∧
    RuleText.HoldsAlternative line a.1
  left : ∃ line, ∃ n ∈ rule.lines.head?, (line, n) ∈ numbered ∧ RuleText.HoldsLeft line rule.left

theorem Rule.StandsIn.mono {numbered numbered' : List (List Char × Nat)}
    {rule : Rule} (h : rule.StandsIn numbered) (hsub : numbered ⊆ numbered') :
    rule.StandsIn numbered' where
  length_lines := h.length_lines
  alternatives := fun a ha =>
    let ⟨line, hline, hholds⟩ := h.alternatives a ha
    ⟨line, hsub hline, hholds⟩
  left :=
    let ⟨line, n, hn, hline, hholds⟩ := h.left
    ⟨line, n, hn, hsub hline, hholds⟩

namespace RuleText

open Text (isBlank IsWord)

variable {config : Config} {names : List String} {alternatives : List (List String)}
  {cs cs' gap before after right line : List Char} {lines : List (List Char)}
  {more : List (List String × Nat)} {rules earlier : List Rule} {k : Nat}

/-! ## Gaps -/

namespace IsGap

theorem isBlank (h : IsGap gap) : ∀ c ∈ gap, Text.isBlank c = true :=
  fun c hc => (h c hc).1

theorem of_isBlank (h : ∀ c ∈ gap, Text.isBlank c = true) (hline : '\n' ∉ gap) : IsGap gap := by
  refine fun c hc => ⟨h c hc, ?_⟩
  rintro rfl
  exact hline hc

theorem append (h : IsGap before) (h' : IsGap after) : IsGap (before ++ after) :=
  List.forall_mem_append.mpr ⟨h, h'⟩

theorem bar_notMem (h : IsGap gap) : '|' ∉ gap := fun hbar =>
  absurd (h _ hbar).1 (by decide)

end IsGap

/-! ## Words -/

namespace SpacedWords

theorem names_ne_nil (h : SpacedWords names cs) : names ≠ [] := by
  cases h <;> simp

/-- **Words are read as they were written**, whatever blanks there are between them. -/
theorem words_eq (h : SpacedWords names cs) (hnames : ∀ name ∈ names, IsWord name) :
    Text.words cs = names := by
  induction h with
  | single w => exact (hnames w (by simp)).words_toList
  | @cons w gap cs ws hgap hne h ih =>
    obtain ⟨hw, hws⟩ := List.forall_mem_cons.mp hnames
    obtain ⟨c, gap, rfl⟩ := List.exists_cons_of_ne_nil hne
    obtain ⟨⟨hc, -⟩, hgap⟩ := List.forall_mem_cons.mp hgap
    rw [List.cons_append, Text.words_append_blank hc, hw.words_toList,
      Text.words_blank_append (IsGap.isBlank hgap), ih hws]
    rfl

theorem arrowFree (h : SpacedWords names cs) (hnames : ∀ name ∈ names, ArrowFree name.toList) :
    ArrowFree cs := by
  induction h with
  | single w => exact hnames w (by simp)
  | @cons w gap cs ws hgap hne h ih =>
    obtain ⟨hw, hws⟩ := List.forall_mem_cons.mp hnames
    refine arrowFree_append.mpr ⟨hw, (ih hws).blank_append hgap.isBlank, ?_⟩
    obtain ⟨c, gap, rfl⟩ := List.exists_cons_of_ne_nil hne
    rintro a - b ⟨rfl⟩ ⟨-, rfl⟩
    exact absurd (hgap '>' (by simp)).1 (by decide)

theorem bar_notMem (h : SpacedWords names cs) (hnames : ∀ name ∈ names, '|' ∉ name.toList) :
    '|' ∉ cs := by
  induction h with
  | single w => exact hnames w (by simp)
  | @cons w gap cs ws hgap hne h ih =>
    obtain ⟨hw, hws⟩ := List.forall_mem_cons.mp hnames
    simp only [List.mem_append, not_or]
    exact ⟨hw, hgap.bar_notMem, ih hws⟩

section Gaps

variable (hbefore : IsGap before) (h : SpacedWords names cs) (hafter : IsGap after)
  (hnames : ∀ name ∈ names, IsPlainWord name)
include hbefore h hafter hnames

theorem arrowFree_between : ArrowFree (before ++ (cs ++ after)) :=
  ((h.arrowFree fun name hname => (hnames name hname).arrowFree).append_blank
    hafter.isBlank).blank_append hbefore.isBlank

/-- Blanks around words do not count, and there is no bar to divide them. -/
theorem map_words_between :
    ((before ++ (cs ++ after)).splitOnP (· == '|')).map Text.words = [names] := by
  have hcs := h.bar_notMem fun name hname => (hnames name hname).bar_notMem
  have hall : '|' ∉ before ++ (cs ++ after) := by
    simp [hbefore.bar_notMem, hcs, hafter.bar_notMem]
  rw [Text.splitOnP_eq_singleton_of_notMem hall, List.map_singleton,
    Text.words_blank_append hbefore.isBlank, Text.words_append_of_isBlank hafter.isBlank,
    h.words_eq fun name hname => (hnames name hname).isWord]

end Gaps

/-- The first character belongs to the first word. -/
theorem exists_head? (h : SpacedWords names cs) (hnames : ∀ name ∈ names, IsWord name) :
    ∃ c ∈ cs.head?, isBlank c = false := by
  cases h with
  | single w =>
    have hw := hnames w (by simp)
    exact ⟨_, List.head?_eq_some_head hw.ne_nil, hw.isBlank_eq_false _ (List.head_mem hw.ne_nil)⟩
  | cons w hgap hne h =>
    have hw := hnames w (by simp)
    refine ⟨w.toList.head hw.ne_nil, ?_, hw.isBlank_eq_false _ (List.head_mem hw.ne_nil)⟩
    rw [List.head?_append, List.head?_eq_some_head hw.ne_nil]
    rfl

end SpacedWords

/-- **Words that are read stand in the text** with blanks between any two of them, and with blanks
around all of them. -/
theorem exists_spacedWords (h : Text.words cs = names) (hne : names ≠ []) (hline : '\n' ∉ cs) :
    ∃ before body after, cs = before ++ (body ++ after) ∧ IsGap before ∧
      SpacedWords names body ∧ IsGap after := by
  induction names generalizing cs with
  | nil => exact absurd rfl hne
  | cons w ws ih =>
    obtain ⟨before, rest, rfl, hbefore, hrest, hws⟩ := Text.exists_of_words_eq_cons h
    simp only [List.mem_append, not_or] at hline
    obtain ⟨hlineBefore, -, hlineRest⟩ := hline
    have hbefore := IsGap.of_isBlank hbefore hlineBefore
    cases ws with
    | nil =>
      exact ⟨before, w.toList, rest, rfl, hbefore, .single w,
        .of_isBlank (Text.words_eq_nil_iff.mp hws) hlineRest⟩
    | cons w' ws =>
      obtain ⟨gap, body, after, rfl, hgap, hbody, hafter⟩ :=
        ih hws (List.cons_ne_nil _ _) hlineRest
      have hwords : ∀ name ∈ w' :: ws, IsWord name := fun name hname =>
        Text.isWord_of_mem_words (hws ▸ hname)
      have hne : gap ≠ [] := by
        rintro rfl
        obtain ⟨c, hc, hsolid⟩ := hbody.exists_head? hwords
        have hhead : c ∈ (body ++ after).head? := by
          rw [List.head?_append, Option.mem_def.mp hc]
          rfl
        rw [hrest c hhead] at hsolid
        cases hsolid
      refine ⟨before, _, after, ?_, hbefore, .cons w hgap hne hbody, hafter⟩
      simp only [List.append_assoc]

/-! ## Alternatives -/

namespace BarredAlternatives

theorem ne_nil (h : BarredAlternatives alternatives right) : alternatives ≠ [] := by
  cases h <;> simp

theorem names_ne_nil (h : BarredAlternatives alternatives right) :
    ∀ names ∈ alternatives, names ≠ [] := by
  induction h with
  | single hbefore h hafter => simpa using h.names_ne_nil
  | cons hbefore h hafter hright ih => exact List.forall_mem_cons.mpr ⟨h.names_ne_nil, ih⟩

/-- Blanks after the alternatives do not count. -/
theorem append_gap (h : BarredAlternatives alternatives right) (hgap : IsGap gap) :
    BarredAlternatives alternatives (right ++ gap) := by
  induction h with
  | single hbefore h hafter =>
    have hall := single hbefore h (hafter.append hgap)
    rwa [← List.append_assoc _ _ gap, ← List.append_assoc] at hall
  | cons hbefore h hafter hright ih =>
    rw [List.append_assoc, List.cons_append]
    exact cons hbefore h hafter ih

theorem arrowFree (h : BarredAlternatives alternatives right)
    (hplain : ∀ names ∈ alternatives, ∀ name ∈ names, IsPlainWord name) : ArrowFree right := by
  induction h with
  | single hbefore h hafter =>
    exact SpacedWords.arrowFree_between hbefore h hafter (by simpa using hplain)
  | cons hbefore h hafter hright ih =>
    obtain ⟨hnames, halternatives⟩ := List.forall_mem_cons.mp hplain
    refine arrowFree_append.mpr ⟨SpacedWords.arrowFree_between hbefore h hafter hnames,
      arrowFree_cons.mpr ⟨?_, ih halternatives⟩, ?_⟩
    · rintro b - ⟨hbar, -⟩
      exact absurd hbar (by decide)
    · rintro a - b ⟨rfl⟩ ⟨-, hbar⟩
      exact absurd hbar (by decide)

/-- **Alternatives are read as they were written.** -/
theorem map_words_eq (h : BarredAlternatives alternatives right)
    (hplain : ∀ names ∈ alternatives, ∀ name ∈ names, IsPlainWord name) :
    (right.splitOnP (· == '|')).map Text.words = alternatives := by
  induction h with
  | single hbefore h hafter =>
    exact SpacedWords.map_words_between hbefore h hafter (by simpa using hplain)
  | cons hbefore h hafter hright ih =>
    obtain ⟨hnames, halternatives⟩ := List.forall_mem_cons.mp hplain
    rw [List.splitOnP_append_cons _ _ (by decide), List.map_append,
      SpacedWords.map_words_between hbefore h hafter hnames, ih halternatives]
    rfl

end BarredAlternatives

/-- **Alternatives that are read stand in the text** with bars between any two of them. -/
theorem barredAlternatives_of_words
    (h : (right.splitOnP (· == '|')).map Text.words = alternatives)
    (hne : ∀ names ∈ alternatives, names ≠ []) (hline : '\n' ∉ right) :
    BarredAlternatives alternatives right := by
  induction alternatives generalizing right with
  | nil => simp [List.splitOnP_ne_nil] at h
  | cons names alternatives ih =>
    obtain ⟨hnames, halternatives⟩ := List.forall_mem_cons.mp hne
    obtain ⟨piece, rest, rfl, hpiece, hrest⟩ :=
      Text.exists_append_of_class (fun c => !(c == '|')) right
    have hpiece : ∀ c ∈ piece, (c == '|') = false := by simpa using hpiece
    simp only [List.mem_append, not_or] at hline
    cases rest with
    | nil =>
      rw [List.append_nil, List.splitOnP_eq_singleton hpiece, List.map_singleton] at h
      obtain ⟨hwords, rfl⟩ := List.cons.inj h
      obtain ⟨before, body, after, rfl, hbefore, hbody, hafter⟩ :=
        exists_spacedWords hwords hnames hline.1
      rw [List.append_nil]
      exact .single hbefore hbody hafter
    | cons c right =>
      obtain rfl : c = '|' := by simpa using hrest c rfl
      rw [List.splitOnP_append_cons _ _ (by decide), List.splitOnP_eq_singleton hpiece,
        List.singleton_append, List.map_cons] at h
      obtain ⟨hwords, hright⟩ := List.cons.inj h
      obtain ⟨before, body, after, rfl, hbefore, hbody, hafter⟩ :=
        exists_spacedWords hwords hnames hline.1
      exact .cons hbefore hbody hafter
        (ih hright halternatives fun hmem => hline.2 (List.mem_cons_of_mem _ hmem))

/-! ## Lines -/

theorem modifyHead_adds_nil (rules : List Rule) : rules.modifyHead (·.adds []) = rules := by
  cases rules <;> simp [Rule.adds_nil]

theorem extend_eq_adds (rule : Rule) (k : Nat) (alternatives : List (List String)) :
    extend rule k alternatives = rule.adds (alternatives.map (·, k)) := by
  simp [extend, Rule.adds, Function.comp_def, List.map_const']

/-- A line of blanks says nothing. -/
theorem addLine_blank (config : Config) (hline : ∀ c ∈ line, isBlank c = true) (k : Nat)
    (earlier : List Rule) : addLine config earlier (line, k) = .ok earlier := by
  have hread : Line.read line = .ok .blank := by
    rw [Line.read, if_pos (List.all_eq_true.mpr hline)]
  rw [addLine.eq_def]
  dsimp only
  rw [hread]

section Reading

variable (config : Config) (hright : BarredAlternatives alternatives right)
  (hplain : ∀ names ∈ alternatives, ∀ name ∈ names, IsPlainWord name)
include hright hplain

theorem readAlternatives_barred : readAlternatives config right = .ok alternatives :=
  readAlternatives_eq_ok_iff.mpr ⟨hright.map_words_eq hplain, hright.names_ne_nil⟩

/-- **A line with a left side begins a rule.** -/
theorem addLine_ruleLine {left : String} (hleft : IsWord left) (hfree : ArrowFree left.toList)
    (hbefore : IsGap before) (hafter : IsGap after) (k : Nat) (earlier : List Rule) :
    addLine config earlier (before ++ (left.toList ++ after) ++ (arrow ++ right), k) =
      .ok ((⟨left, [], []⟩ : Rule).adds (alternatives.map (·, k)) :: earlier) := by
  have hread := Line.read_rule hleft hfree (hright.arrowFree hplain) hbefore.isBlank hafter.isBlank
  rw [addLine.eq_def]
  dsimp only
  rw [hread]
  dsimp only
  rw [addAlternatives, readAlternatives_barred config hright hplain, ← extend_eq_adds]

/-- **A line that starts with a bar continues the latest rule.** -/
theorem addLine_moreLine (hbefore : IsGap before) (k : Nat) (rule : Rule) (earlier : List Rule) :
    addLine config (rule :: earlier) (before ++ '|' :: right, k) =
      .ok (rule.adds (alternatives.map (·, k)) :: earlier) := by
  obtain ⟨body, after, rfl, hafter, hbody⟩ := Text.exists_append_blank right
  have hfree : ArrowFree (before ++ '|' :: (body ++ after)) := by
    refine ArrowFree.blank_append (arrowFree_cons.mpr ⟨?_, hright.arrowFree hplain⟩) hbefore.isBlank
    rintro b - ⟨hbar, -⟩
    exact absurd hbar (by decide)
  have htrim : Text.trimChars (before ++ '|' :: (body ++ after)) = '|' :: body := by
    have hlast : ∃ last, ('|' :: body).getLast? = some last ∧ isBlank last = false := by
      rw [List.getLast?_cons]
      cases hend : body.getLast? with
      | none => exact ⟨'|', rfl, by decide⟩
      | some last => exact ⟨last, rfl, hbody last hend⟩
    obtain ⟨last, hlast, hsolid⟩ := hlast
    exact Text.trimChars_append hbefore.isBlank hafter rfl hlast ⟨by decide, hsolid⟩
  have halternatives : readAlternatives config body = .ok alternatives := by
    have hbar : ∀ c ∈ after, (c == '|') = false :=
      Text.beq_eq_false_of_notMem fun hc => absurd (hafter _ hc) (by decide)
    obtain ⟨init, last, hsplit, happend⟩ := Text.splitOnP_append_of_forall hbar body
    have hwords := hright.map_words_eq hplain
    rw [happend, List.map_append, List.map_singleton, Text.words_append_of_isBlank hafter,
      ← List.map_singleton, ← List.map_append, ← hsplit] at hwords
    exact readAlternatives_eq_ok_iff.mpr ⟨hwords, hright.names_ne_nil⟩
  rw [addLine.eq_def]
  dsimp only
  rw [Line.read_more htrim hfree]
  dsimp only
  rw [addAlternatives, halternatives, ← extend_eq_adds]

end Reading

/-- **A layout is read as the rules that it lays out**, and what comes before the first left side is
added to the latest rule above it. -/
theorem LaysOut.foldlM_addLine (h : LaysOut k lines more rules) (config : Config)
    (hmore : ∀ a ∈ more, ∀ name ∈ a.1, IsPlainWord name) (hrules : ∀ rule ∈ rules, rule.IsPlain)
    (earlier : List Rule) (hearlier : more ≠ [] → earlier ≠ []) :
    (lines.zipIdx k).foldlM (addLine config) earlier =
      .ok (rules.reverse ++ earlier.modifyHead (·.adds more)) := by
  induction h generalizing earlier with
  | nil k =>
    rw [modifyHead_adds_nil]
    rfl
  | blank hline h ih =>
    rw [List.zipIdx_cons, List.foldlM_cons, addLine_blank config hline.isBlank]
    exact ih hmore hrules earlier hearlier
  | @more k before right lines alternatives more rules hbefore hright h ih =>
    obtain ⟨hfirst, hmore⟩ := List.forall_mem_append.mp hmore
    have hplain : ∀ names ∈ alternatives, ∀ name ∈ names, IsPlainWord name := by
      simpa using hfirst
    have hne : alternatives.map (·, k) ++ more ≠ [] := by simp [hright.ne_nil]
    obtain ⟨rule, earlier, rfl⟩ := List.exists_cons_of_ne_nil (hearlier hne)
    rw [List.zipIdx_cons, List.foldlM_cons, addLine_moreLine config hright hplain hbefore,
      List.modifyHead_cons, Rule.adds_append]
    exact ih hmore hrules _ fun _ => List.cons_ne_nil _ _
  | @rule k left before after right lines alternatives more rules hbefore hafter hright h ih =>
    obtain ⟨hrule, hrules⟩ := List.forall_mem_cons.mp hrules
    obtain ⟨hfirst, hmore⟩ := List.forall_mem_append.mp hrule.words
    have hplain : ∀ names ∈ alternatives, ∀ name ∈ names, IsPlainWord name :=
      fun names hnames => (hfirst names hnames).2
    have hmore : ∀ a ∈ more, ∀ name ∈ a.1, IsPlainWord name :=
      fun a ha => (hmore a.1 (List.mem_map_of_mem ha)).2
    rw [List.zipIdx_cons, List.foldlM_cons, addLine_ruleLine config hright hplain hrule.isWord_left
      hrule.arrowFree_left hbefore hafter]
    refine (ih hmore hrules _ fun _ => List.cons_ne_nil _ _).trans ?_
    have hadds : ((⟨left, [], []⟩ : Rule).adds (alternatives.map (·, k))).adds more =
        ⟨left, alternatives ++ more.map Prod.fst,
          alternatives.map (fun _ => k) ++ more.map Prod.snd⟩ := by
      simp [Rule.adds, Function.comp_def]
    rw [modifyHead_adds_nil, List.modifyHead_cons, hadds, List.reverse_cons, List.append_assoc]
    rfl

/-! ## From lines that are read to layouts -/

namespace Line

theorem isBlank_of_read (h : Line.read line = .ok .blank) : ∀ c ∈ line, isBlank c = true := by
  rw [Line.read] at h
  split at h
  · next hall => exact List.all_eq_true.mp hall
  · split at h
    · dsimp only at h
      split_ifs at h
      cases h
    · split at h <;> cases h

/-- How a line is written that is read as a rule. -/
theorem exists_of_read_rule {left : String} (h : Line.read line = .ok (.rule left right)) :
    ∃ before after, line = before ++ (left.toList ++ after) ++ (arrow ++ right) ∧
      (∀ c ∈ before, isBlank c = true) ∧ ∀ c ∈ after, isBlank c = true := by
  rw [Line.read] at h
  split at h
  · cases h
  · split at h
    · next start rest hcut =>
      dsimp only at h
      split_ifs at h
      cases h
      obtain ⟨before, after, hstart, hbefore, hafter⟩ := Text.exists_append_trimChars start
      refine ⟨before, after, ?_, hbefore, hafter⟩
      rw [String.toList_ofList, ← hstart, Text.append_of_cutAt hcut]
    · split at h <;> cases h

/-- How a line is written that adds alternatives. -/
theorem exists_of_read_more (h : Line.read line = .ok (.more right)) :
    ∃ before after, line = before ++ '|' :: (right ++ after) ∧
      (∀ c ∈ before, isBlank c = true) ∧ ∀ c ∈ after, isBlank c = true := by
  rw [Line.read] at h
  split at h
  · cases h
  · split at h
    · dsimp only at h
      split_ifs at h
      cases h
    · split at h
      · next hline =>
        cases h
        obtain ⟨before, after, hcs, hbefore, hafter⟩ := Text.exists_append_trimChars line
        rw [hline] at hcs
        exact ⟨before, after, hcs, hbefore, hafter⟩
      · cases h

end Line

/-- What is read of a right side is written in it. -/
theorem barredAlternatives_of_read (h : readAlternatives config right = .ok alternatives)
    (hline : '\n' ∉ right) : BarredAlternatives alternatives right := by
  obtain ⟨hwords, hne⟩ := readAlternatives_eq_ok_iff.mp h
  exact barredAlternatives_of_words hwords hne hline

/-- **Lines that are read lay out what is read.** -/
theorem laysOut_of_foldlM {latest : List Rule} (hlines : ∀ line ∈ lines, '\n' ∉ line)
    (h : (lines.zipIdx k).foldlM (addLine config) earlier = .ok latest) :
    ∃ more rules, LaysOut k lines more rules ∧ (more ≠ [] → earlier ≠ []) ∧
      latest = rules.reverse ++ earlier.modifyHead (·.adds more) := by
  -- The rules so far change with every line, and what the line adds goes to the latest of them.
  induction lines generalizing k earlier with
  | nil =>
    cases h
    exact ⟨[], [], .nil k, by simp, (modifyHead_adds_nil latest).symm⟩
  | cons line lines ih =>
    obtain ⟨hline, hlines⟩ := List.forall_mem_cons.mp hlines
    rw [List.zipIdx_cons, List.foldlM_cons] at h
    obtain ⟨next, hnext, h⟩ := exists_of_bind_ok h
    obtain ⟨more, rules, hlays, hmore, hlatest⟩ := ih hlines h
    rw [addLine.eq_def] at hnext
    split at hnext
    · cases hnext
    · next hread =>
      cases hnext
      have hblank := IsGap.of_isBlank (Line.isBlank_of_read hread) hline
      exact ⟨more, rules, .blank hblank hlays, hmore, hlatest⟩
    · next left right hread =>
      obtain ⟨before, after, rfl, hbefore, hafter⟩ := Line.exists_of_read_rule hread
      simp only [List.mem_append, not_or] at hline
      rw [addAlternatives] at hnext
      split at hnext
      · cases hnext
      · next alternatives hright =>
        cases hnext
        have hright := barredAlternatives_of_read hright hline.2.2
        refine ⟨[], _, .rule (.of_isBlank hbefore hline.1.1) (.of_isBlank hafter hline.1.2.2) hright
          hlays, by simp, ?_⟩
        rw [hlatest, modifyHead_adds_nil]
        simp [extend, Rule.adds, List.map_const']
    · next right rule earlier hread =>
      obtain ⟨before, after, rfl, hbefore, hafter⟩ := Line.exists_of_read_more hread
      simp only [List.mem_append, List.mem_cons, not_or] at hline
      rw [addAlternatives] at hnext
      split at hnext
      · cases hnext
      · next alternatives hright =>
        cases hnext
        have hright := (barredAlternatives_of_read hright hline.2.2.1).append_gap
          (.of_isBlank hafter hline.2.2.2)
        refine ⟨_, rules, .more (.of_isBlank hbefore hline.1) hright hlays, by simp, ?_⟩
        rw [hlatest, List.modifyHead_cons, List.modifyHead_cons, Rule.adds_append, extend_eq_adds]
    · cases hnext

/-! ## Where alternatives stand -/

/-- Every alternative stands on a line that holds all of them after a mark. -/
theorem BarredAlternatives.holdsAlternative (h : BarredAlternatives alternatives right)
    {mark : List Char} (hmark : mark = arrow ∨ mark = ['|']) (start : List Char) :
    ∀ names ∈ alternatives, HoldsAlternative (start ++ mark ++ right) names := by
  induction h generalizing start mark with
  | @single names before cs after hbefore h hafter =>
    refine List.forall_mem_singleton.mpr ⟨start, mark, before, cs, after, [], hmark, hbefore, h,
      hafter, Or.inl rfl, ?_⟩
    rw [List.append_nil]
  | @cons names before cs after right alternatives hbefore h hafter hright ih =>
    refine List.forall_mem_cons.mpr ⟨⟨start, mark, before, cs, after, '|' :: right, hmark, hbefore,
      h, hafter, Or.inr rfl, rfl⟩, ?_⟩
    have hothers := ih (Or.inr rfl) (start ++ mark ++ (before ++ (cs ++ after)))
    simpa only [List.append_assoc, List.singleton_append] using hothers

/-- **Every alternative stands on the line that has its number**, also where the lines add it to a
rule above them. -/
theorem LaysOut.standsIn (h : LaysOut k lines more rules) :
    (∀ a ∈ more, ∃ line, (line, a.2) ∈ lines.zipIdx k ∧ HoldsAlternative line a.1) ∧
      ∀ rule ∈ rules, rule.StandsIn (lines.zipIdx k) := by
  induction h with
  | nil k => simp
  | @blank k line lines more rules hline h ih =>
    obtain ⟨hmore, hrules⟩ := ih
    rw [List.zipIdx_cons]
    refine ⟨fun a ha => ?_, fun rule hrule => (hrules rule hrule).mono (List.subset_cons_self _ _)⟩
    obtain ⟨line, hline, hholds⟩ := hmore a ha
    exact ⟨line, List.mem_cons_of_mem _ hline, hholds⟩
  | @more k before right lines alternatives more rules hbefore hright h ih =>
    obtain ⟨hmore, hrules⟩ := ih
    rw [List.zipIdx_cons]
    refine ⟨List.forall_mem_append.mpr ⟨List.forall_mem_map.mpr fun names hnames => ?_,
      fun a ha => ?_⟩, fun rule hrule => (hrules rule hrule).mono (List.subset_cons_self _ _)⟩
    · have hholds := hright.holdsAlternative (Or.inr rfl) before names hnames
      exact ⟨_, List.mem_cons_self, by simpa using hholds⟩
    · obtain ⟨line, hline, hholds⟩ := hmore a ha
      exact ⟨line, List.mem_cons_of_mem _ hline, hholds⟩
  | @rule k left before after right lines alternatives more rules hbefore hafter hright h ih =>
    obtain ⟨hmore, hrules⟩ := ih
    rw [List.zipIdx_cons]
    refine ⟨by simp, List.forall_mem_cons.mpr ⟨?_, fun rule hrule =>
      (hrules rule hrule).mono (List.subset_cons_self _ _)⟩⟩
    have hzip : (alternatives ++ more.map Prod.fst).zip
        (alternatives.map (fun _ => k) ++ more.map Prod.snd) = alternatives.map (·, k) ++ more := by
      rw [List.zip_append (List.length_map _).symm, ← List.map_prod_left_eq_zip,
        ← List.zip_of_prod rfl rfl]
    constructor
    · simp
    · rw [hzip]
      refine List.forall_mem_append.mpr ⟨List.forall_mem_map.mpr fun names hnames => ?_,
        fun a ha => ?_⟩
      · exact ⟨_, List.mem_cons_self, by
          simpa only [List.append_assoc] using
            hright.holdsAlternative (Or.inl rfl) (before ++ (left.toList ++ after)) names hnames⟩
      · obtain ⟨line, hline, hholds⟩ := hmore a ha
        exact ⟨line, List.mem_cons_of_mem _ hline, hholds⟩
    · obtain ⟨names, alternatives, rfl⟩ := List.exists_cons_of_ne_nil hright.ne_nil
      exact ⟨_, k, rfl, List.mem_cons_self, before, after, right, hbefore, hafter, rfl⟩

/-! ## Texts -/

/-- Blanks at the ends of lines do not count. -/
theorem LaysOut.append_gaps (h : LaysOut k lines more rules) {lines' : List (List Char)}
    (hlines : List.Forall₂ (fun line line' => ∃ gap, IsGap gap ∧ line' = line ++ gap) lines
      lines') :
    LaysOut k lines' more rules := by
  induction h generalizing lines' with
  | nil k =>
    cases hlines
    exact .nil k
  | blank hline h ih =>
    obtain ⟨_, lines', ⟨gap, hgap, rfl⟩, hrest, rfl⟩ := List.forall₂_cons_left_iff.mp hlines
    exact .blank (hline.append hgap) (ih hrest)
  | more hbefore hright h ih =>
    obtain ⟨_, lines', ⟨gap, hgap, rfl⟩, hrest, rfl⟩ := List.forall₂_cons_left_iff.mp hlines
    rw [List.append_assoc, List.cons_append]
    exact .more hbefore (hright.append_gap hgap) (ih hrest)
  | rule hbefore hafter hright h ih =>
    obtain ⟨_, lines', ⟨gap, hgap, rfl⟩, hrest, rfl⟩ := List.forall₂_cons_left_iff.mp hlines
    rw [List.append_assoc _ _ gap, List.append_assoc arrow]
    exact .rule hbefore hafter (hright.append_gap hgap) (ih hrest)

/-- The pieces between line feeds are the lines of a text, and carriage returns at their ends. -/
theorem LinesOf.forall₂_splitOnP (h : LinesOf cs lines) :
    List.Forall₂ (fun line line' => ∃ gap, IsGap gap ∧ line' = line ++ gap) lines
      (cs.splitOnP (· == '\n')) := by
  have hnil : IsGap [] := by simp [IsGap]
  have hreturn : IsGap ['\r'] := List.forall_mem_singleton.mpr (by decide)
  induction h with
  | last hline =>
    rw [Text.splitOnP_eq_singleton_of_notMem hline]
    exact .cons ⟨[], hnil, (List.append_nil _).symm⟩ .nil
  | lf hline h ih =>
    rw [List.splitOnP_append_cons _ _ (by decide), Text.splitOnP_eq_singleton_of_notMem hline]
    exact .cons ⟨[], hnil, (List.append_nil _).symm⟩ ih
  | @crlf line cs lines hline h ih =>
    have hline' : '\n' ∉ line ++ ['\r'] := by simp [hline]
    have hcs : line ++ '\r' :: '\n' :: cs = (line ++ ['\r']) ++ '\n' :: cs := by simp
    rw [hcs, List.splitOnP_append_cons _ _ (by decide),
      Text.splitOnP_eq_singleton_of_notMem hline']
    exact .cons ⟨['\r'], hreturn, rfl⟩ ih

/-- A text that falls apart at line feeds has the pieces for lines. -/
theorem linesOf_splitOnP (cs : List Char) : LinesOf cs (cs.splitOnP (· == '\n')) := by
  have hlines : ∀ line ∈ cs.splitOnP (· == '\n'), '\n' ∉ line := fun line hline hmem => by
    simpa using (Text.isInfix_of_mem_splitOnP hline).1 '\n' hmem
  have hcs : ['\n'].intercalate (cs.splitOnP (· == '\n')) = cs := List.intercalate_splitOn '\n'
  obtain ⟨line, lines, hsplit⟩ := List.exists_cons_of_ne_nil (List.splitOnP_ne_nil (· == '\n') cs)
  rw [hsplit] at hcs hlines ⊢
  clear hsplit
  induction lines generalizing line cs with
  | nil =>
    obtain rfl : line = cs := by simpa using hcs
    exact .last (hlines line (by simp))
  | cons next lines ih =>
    rw [List.intercalate_cons_cons, List.append_assoc, List.singleton_append] at hcs
    obtain ⟨hline, hlines⟩ := List.forall_mem_cons.mp hlines
    rw [← hcs]
    exact .lf hline (ih _ next hlines rfl)

/-- What is read from a text is laid out by its lines. -/
theorem laysOut_of_readRules {text : String} (h : readRules config text = .ok rules) :
    LaysOut 1 (text.toList.splitOnP (· == '\n')) [] rules := by
  have hlines : ∀ line ∈ text.toList.splitOnP (· == '\n'), '\n' ∉ line := fun line hline hmem => by
    simpa using (Text.isInfix_of_mem_splitOnP hline).1 '\n' hmem
  rw [readRules] at h
  cases hfold : (numberedLines text.toList).foldlM (addLine config) [] with
  | error e =>
    rw [hfold] at h
    cases h
  | ok latest =>
    rw [hfold] at h
    cases h
    obtain ⟨more, rules, hlays, hmore, rfl⟩ := laysOut_of_foldlM hlines hfold
    obtain rfl : more = [] := by
      by_contra hne
      exact hmore hne rfl
    rw [modifyHead_adds_nil, List.append_nil, List.reverse_reverse]
    exact hlays

/-- **The rules of a text stand on its lines**, under the numbers that they have for them. -/
theorem standsIn_of_readRules {text : String} (h : readRules config text = .ok rules) :
    ∀ rule ∈ rules, rule.StandsIn (numberedLines text.toList) :=
  (laysOut_of_readRules h).standsIn.2

/-- **Every layout is read back.** What is read from a text is what the text lays out, as far as it
can be written on lines at all: rules whose left sides are words without arrows, each with one or
more alternatives, which are lists of one or more words without arrows and bars. However these rules
are laid out, with any blanks around left sides, arrows and bars and between words, with line ends
of either kind and with blank lines anywhere, they are read with their left sides and alternatives
in order; and every alternative stands on the line that has the number that is read for it. -/
theorem readRules_layout (config : Config) (text : String) (rules : List Rule) :
    (readRules config text = .ok rules ↔ (∀ rule ∈ rules, rule.IsPlain) ∧
      ∃ lines, LinesOf text.toList lines ∧ LaysOut 1 lines [] rules) ∧
    (readRules config text = .ok rules →
      ∀ rule ∈ rules, rule.StandsIn (numberedLines text.toList)) := by
  refine ⟨⟨fun h => ⟨isPlain_of_readRules h, _, linesOf_splitOnP _, laysOut_of_readRules h⟩, ?_⟩,
    standsIn_of_readRules⟩
  rintro ⟨hplain, lines, hlines, hlays⟩
  have hfold := (hlays.append_gaps hlines.forall₂_splitOnP).foldlM_addLine config (by simp) hplain
    [] (by simp)
  rw [modifyHead_adds_nil, List.append_nil] at hfold
  rw [readRules, numberedLines, hfold]
  exact congrArg Except.ok (List.reverse_reverse rules)

/-- A text with blanks of several kinds and with both kinds of line ends. A left side starts with a
bar and ends with a dash, and words start with a right angle or end with a dash. -/
def scatteredText : String :=
  "\r\n|A--> >x|y-\tz \n  \n\u3000| - >\r\nB->b"

/-- The rules that it lays out. -/
def scatteredRules : List Rule :=
  [⟨"|A-", [[">x"], ["y-", "z"], ["-", ">"]], [2, 2, 4]⟩, ⟨"B", [["b"]], [5]⟩]

theorem readRules_layout_scattered :
    (∀ rule ∈ scatteredRules, rule.IsPlain) ∧
      (∃ lines, LinesOf scatteredText.toList lines ∧ LaysOut 1 lines [] scatteredRules) ∧
      readRules {} scatteredText = .ok scatteredRules ∧
      ∃ rule ∈ scatteredRules, rule.left = "|A-" ∧
        rule.StandsIn (numberedLines scatteredText.toList) := by
  have hfirst : BarredAlternatives [[">x"], ["y-", "z"]]
      [' ', '>', 'x', '|', 'y', '-', '\t', 'z', ' '] :=
    @BarredAlternatives.cons [">x"] [' '] ['>', 'x'] [] ['y', '-', '\t', 'z', ' '] [["y-", "z"]]
      (by decide) (.single ">x") (by decide)
      (@BarredAlternatives.single ["y-", "z"] [] ['y', '-', '\t', 'z'] [' '] (by decide)
        (@SpacedWords.cons "y-" ['\t'] ['z'] ["z"] (by decide) (by decide) (.single "z"))
        (by decide))
  have hother : BarredAlternatives [["-", ">"]] [' ', '-', ' ', '>'] :=
    @BarredAlternatives.single ["-", ">"] [' '] ['-', ' ', '>'] [] (by decide)
      (@SpacedWords.cons "-" [' '] ['>'] [">"] (by decide) (by decide) (.single ">")) (by decide)
  have hlast : BarredAlternatives [["b"]] ['b'] :=
    @BarredAlternatives.single ["b"] [] ['b'] [] (by decide) (.single "b") (by decide)
  have hlays : LaysOut 1
      [[], ['|', 'A', '-', '-', '>', ' ', '>', 'x', '|', 'y', '-', '\t', 'z', ' '], [' ', ' '],
        ['\u3000', '|', ' ', '-', ' ', '>'], ['B', '-', '>', 'b']] [] scatteredRules :=
    .blank (by decide) <|
      @LaysOut.rule 2 "|A-" [] [] _ _ _ _ _ (by decide) (by decide) hfirst <|
        .blank (by decide) <|
          @LaysOut.more 4 ['\u3000'] _ _ _ _ _ (by decide) hother <|
            @LaysOut.rule 5 "B" [] [] _ _ _ _ _ (by decide) (by decide) hlast (.nil 6)
  have hlines : LinesOf scatteredText.toList _ :=
    @LinesOf.crlf [] _ _ (by decide) <|
      @LinesOf.lf ['|', 'A', '-', '-', '>', ' ', '>', 'x', '|', 'y', '-', '\t', 'z', ' '] _ _
        (by decide) <|
        @LinesOf.lf [' ', ' '] _ _ (by decide) <|
          @LinesOf.crlf ['\u3000', '|', ' ', '-', ' ', '>'] _ _ (by decide) <|
            @LinesOf.last ['B', '-', '>', 'b'] (by decide)
  have hwords : ∀ names ∈ [[">x"], ["y-", "z"], ["-", ">"], ["b"]],
      names ≠ [] ∧ ∀ name ∈ names, IsPlainWord name := by
    simp only [List.forall_mem_cons]
    refine ⟨⟨by decide, ?_, by simp⟩, ⟨by decide, ?_, ?_, by simp⟩, ⟨by decide, ?_, ?_, by simp⟩,
      ⟨by decide, ?_, by simp⟩, by simp⟩ <;>
      exact ⟨Text.isWord_iff.mpr (by decide), by simp [ArrowFree], by decide⟩
  have hplain : ∀ rule ∈ scatteredRules, rule.IsPlain := by
    refine List.forall_mem_cons.mpr
      ⟨⟨Text.isWord_iff.mpr (by decide), by simp [ArrowFree], by decide, ?_⟩,
        List.forall_mem_singleton.mpr
          ⟨Text.isWord_iff.mpr (by decide), by simp [ArrowFree], by decide, ?_⟩⟩
    · exact fun names hnames => hwords names (List.mem_append_left [["b"]] hnames)
    · exact fun names hnames =>
        hwords names (List.mem_append_right [[">x"], ["y-", "z"], ["-", ">"]] hnames)
  have hlaid : ∃ lines, LinesOf scatteredText.toList lines ∧ LaysOut 1 lines [] scatteredRules :=
    ⟨_, hlines, hlays⟩
  obtain ⟨hread, hstands⟩ := readRules_layout {} scatteredText scatteredRules
  have hok := hread.mpr ⟨hplain, hlaid⟩
  exact ⟨hplain, hlaid, hok, _, List.mem_cons_self, rfl, hstands hok _ List.mem_cons_self⟩

end RuleText

end TopDown
