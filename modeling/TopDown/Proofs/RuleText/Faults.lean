import TopDown.Proofs.Grammar.Faults
import TopDown.Proofs.Grammar.Names
import TopDown.Proofs.RuleText.Layout

/-!
# Faults of texts

A text can be read and still have no grammar, since some names are reserved: left sides and symbols
of alternatives are neither the end mark nor a placeholder for the empty string. The fault that is
reported for such a text is the first one, first among left sides and then among alternatives, and
it comes with the number of a line on which the left side or the alternative stands.

The other faults of rules cannot happen here, because a text gives plain rules only.

## Main definitions

* `Config.IsReserved`, `Config.Offends`: left sides and alternatives that are refused
* `RuleText.IsBlankText`: texts without rules
* `RuleText.Blames`: the fault of a text, and the line it is on

## Main results

* `RuleText.build_readRules`: which texts have a parser, and which faults the others have
-/

namespace TopDown

/-! ## Reserved names -/

namespace Config

/-- The end mark and the placeholders for the empty string are no left sides. -/
def IsReserved (config : Config) (name : String) : Prop :=
  name = Mark.finish ∨ config.isEpsilon name = true

/-- An alternative is refused if a placeholder for the empty string stands in it with other symbols,
or if the end mark stands in it, unless it is a lone placeholder. -/
def Offends (config : Config) (names : List String) : Prop :=
  (2 ≤ names.length ∧ ∃ name ∈ names, config.isEpsilon name = true) ∨
    (¬ ∃ only, names = [only] ∧ config.isEpsilon only = true) ∧ Mark.finish ∈ names

variable {config : Config} {names : List String} {w : String} {flaw : Flaw}

/-- The only flaw that a word can have as a left side. -/
theorem leftFlaw?_eq_some_iff (hw : Text.IsWord w) :
    Catalog.leftFlaw? config w = some flaw ↔ config.IsReserved w ∧ flaw = .reservedLeft := by
  obtain ⟨hempty, hblank⟩ := Text.isWord_iff.mp hw
  have hreserved : (w == Mark.finish || config.isEpsilon w) = true ↔ config.IsReserved w := by
    rw [Bool.or_eq_true, beq_iff_eq, IsReserved]
  rw [Catalog.leftFlaw?, hempty, hblank, ← hreserved]
  cases w == Mark.finish || config.isEpsilon w <;> simp [eq_comm]

theorem leftFlaw?_eq_none_iff (hw : Text.IsWord w) :
    Catalog.leftFlaw? config w = none ↔ ¬ config.IsReserved w := by
  rw [Option.eq_none_iff_forall_ne_some]
  simp [leftFlaw?_eq_some_iff hw]

/-- An alternative of words that is not empty has a flaw if it is refused. -/
theorem flaw?_eq_none_iff_not_offends (hnames : ∀ name ∈ names, Text.IsWord name)
    (hne : names ≠ []) : config.flaw? names = none ↔ ¬ config.Offends names := by
  rw [flaw?_eq_none_iff, CanRead, and_iff_right hne, Admits, Offends]
  obtain ⟨first, names, rfl⟩ := List.exists_cons_of_ne_nil hne
  cases names with
  | nil =>
    have htrim := (List.forall_mem_singleton.mp hnames).trim_eq
    simp only [spelling, List.map_cons, List.map_nil, htrim]
    cases hepsilon : config.isEpsilon first with
    | true => simp [hepsilon]
    | false => simp [hepsilon, eq_comm (a := first)]
  | cons second rest =>
    have hspelling : config.spelling (first :: second :: rest) = first :: second :: rest := by
      show (first :: second :: rest).map Text.trim = _
      exact (List.map_congr_left fun name hname => (hnames name hname).trim_eq).trans
        (List.map_id' _)
    rw [hspelling]
    -- From here on only the length of the alternative counts.
    generalize hall : first :: second :: rest = all
    have hlength : 2 ≤ all.length := by simp [← hall]
    have hlone : ¬ ∃ only, all = [only] ∧ config.isEpsilon only = true := by simp [← hall]
    rw [and_iff_right hlength, and_iff_right hlone, not_or]
    constructor
    · intro hall
      refine ⟨?_, fun hfinish => (hall _ hfinish).2 rfl⟩
      rintro ⟨name, hname, hepsilon⟩
      cases hepsilon.symm.trans (hall name hname).1
    · rintro ⟨hnone, hfinish⟩ name hname
      refine ⟨Bool.eq_false_iff.mpr fun hepsilon => hnone ⟨name, hname, hepsilon⟩, ?_⟩
      rintro rfl
      exact hfinish hname

end Config

namespace Rule.IsPlain

variable {config : Config} {rule : Rule} {place : Nat} {e : BuildError}

theorem name_eq (h : rule.IsPlain) : rule.name = rule.left :=
  h.isWord_left.trim_eq

theorem leftFault?_eq_some_iff (h : rule.IsPlain) :
    leftFault? config (rule, place) = some e ↔ config.IsReserved rule.left ∧
      e = .malformedRule (rule.lineOf 0 place) rule.left .reservedLeft := by
  rw [leftFault?, h.name_eq, Option.map_eq_some_iff]
  simp only [Config.leftFlaw?_eq_some_iff h.isWord_left]
  constructor
  · rintro ⟨flaw, ⟨hreserved, rfl⟩, rfl⟩
    exact ⟨hreserved, rfl⟩
  · rintro ⟨hreserved, rfl⟩
    exact ⟨_, ⟨hreserved, rfl⟩, rfl⟩

theorem leftFault?_eq_none_iff (h : rule.IsPlain) :
    leftFault? config (rule, place) = none ↔ ¬ config.IsReserved rule.left := by
  rw [leftFault?, h.name_eq, Option.map_eq_none_iff, Config.leftFlaw?_eq_none_iff h.isWord_left]

theorem flaw?_eq_none_iff (h : rule.IsPlain) {names : List String}
    (hnames : names ∈ rule.alternatives) :
    config.flaw? names = none ↔ ¬ config.Offends names := by
  obtain ⟨hne, hwords⟩ := h.words names hnames
  exact Config.flaw?_eq_none_iff_not_offends (fun name hname => (hwords name hname).isWord) hne

theorem rightFault?_eq (h : rule.IsPlain) : rightFault? config (rule, place) =
    rule.alternatives.zipIdx.findSome? (rule.alternativeFault? config place) := by
  rw [rightFault?, if_neg h.alternatives_ne_nil]

theorem rightFault?_eq_none_iff (h : rule.IsPlain) :
    rightFault? config (rule, place) = none ↔
      ∀ names ∈ rule.alternatives, ¬ config.Offends names := by
  rw [h.rightFault?_eq, List.findSome?_eq_none_iff]
  simp only [alternativeFault?, Option.map_eq_none_iff]
  rw [forall_mem_zipIdx_iff fun names => config.flaw? names = none]
  exact forall₂_congr fun names hnames => h.flaw?_eq_none_iff hnames

end Rule.IsPlain

namespace RuleText

open Text (isBlank IsWord)

variable {config : Config} {text : String} {rules : List Rule} {start : Option String}

/-! ## Blank texts -/

/-- Every line of the text is blank. -/
def IsBlankText (text : String) : Prop :=
  ∀ line ∈ numberedLines text.toList, ∀ c ∈ line.1, isBlank c = true

theorem LaysOut.eq_nil_iff {k : Nat} {lines : List (List Char)} {more : List (List String × Nat)}
    (h : LaysOut k lines more rules) :
    more = [] ∧ rules = [] ↔ ∀ line ∈ lines, ∀ c ∈ line, isBlank c = true := by
  induction h with
  | nil k => simp
  | blank hline h ih => rw [List.forall_mem_cons, ih, and_iff_right hline.isBlank]
  | @more k before right lines alternatives more rules hbefore hright h ih =>
    refine iff_of_false (by simp [hright.ne_nil]) fun hblank => ?_
    have hbar := hblank _ List.mem_cons_self '|' (by simp)
    exact absurd hbar (by decide)
  | rule hbefore hafter hright h ih =>
    refine iff_of_false (by simp) fun hblank => ?_
    have hdash := hblank _ List.mem_cons_self '-' (by simp [arrow])
    exact absurd hdash (by decide)

/-- A text without rules is blank. -/
theorem eq_nil_iff_isBlankText (h : readRules config text = .ok rules) :
    rules = [] ↔ IsBlankText text := by
  rw [IsBlankText, numberedLines,
    forall_mem_zipIdx_iff fun line : List Char => ∀ c ∈ line, isBlank c = true,
    ← (laysOut_of_readRules h).eq_nil_iff]
  exact (and_iff_right rfl).symm

/-! ## Faults and their lines -/

end RuleText

namespace Rule

variable {rule : Rule} {i line : Nat}

/-- A rule that knows the line of an alternative is blamed there. -/
theorem lineOf_eq (h : rule.lines[i]? = some line) (place : Nat) : rule.lineOf i place = line := by
  rw [lineOf, h, Option.getD_some]

/-- The line that a rule has for an alternative holds it. -/
theorem StandsIn.exists_line {numbered : List (List Char × Nat)} (h : rule.StandsIn numbered)
    {names : List String} (hnames : rule.alternatives[i]? = some names) :
    ∃ cs line, rule.lines[i]? = some line ∧ (cs, line) ∈ numbered ∧
      RuleText.HoldsAlternative cs names := by
  obtain ⟨hi, -⟩ := List.getElem?_eq_some_iff.mp hnames
  rw [← h.length_lines] at hi
  have hline := List.getElem?_eq_getElem hi
  have hzip : (rule.alternatives.zip rule.lines)[i]? = some (names, rule.lines[i]) :=
    List.getElem?_zip_eq_some.mpr ⟨hnames, hline⟩
  obtain ⟨cs, hmem, hholds⟩ := h.alternatives _ (List.mem_of_getElem? hzip)
  exact ⟨cs, _, hline, hmem, hholds⟩

end Rule

namespace RuleText

variable {config : Config} {text : String} {rules : List Rule} {start : Option String}

/-- The fault of rules that are read from a text: the line that is blamed, the left side of the rule
and the flaw. It is that of the first left side that is reserved, or else that of the first
alternative that is refused, and the line holds this left side or this alternative. -/
inductive Blames (config : Config) (numbered : List (List Char × Nat)) (rules : List Rule) :
    Nat → String → Flaw → Prop where
  | left {before after : List Rule} {rule : Rule} {cs : List Char} {line : Nat}
      (hrules : rules = before ++ rule :: after)
      (hbefore : ∀ r ∈ before, ¬ config.IsReserved r.left) (hrule : config.IsReserved rule.left)
      (hline : line ∈ rule.lines.head?) (hmem : (cs, line) ∈ numbered)
      (hholds : HoldsLeft cs rule.left) :
      Blames config numbered rules line rule.left .reservedLeft
  | alternative {before after : List Rule} {rule : Rule} {earlier later : List (List String)}
      {names : List String} {flaw : Flaw} {cs : List Char} {line : Nat}
      (hlefts : ∀ r ∈ rules, ¬ config.IsReserved r.left) (hrules : rules = before ++ rule :: after)
      (hbefore : ∀ r ∈ before, ∀ names ∈ r.alternatives, ¬ config.Offends names)
      (halternatives : rule.alternatives = earlier ++ names :: later)
      (hearlier : ∀ names ∈ earlier, ¬ config.Offends names) (hnames : config.Offends names)
      (hflaw : config.flaw? names = some flaw) (hline : line ∈ rule.lines[earlier.length]?)
      (hmem : (cs, line) ∈ numbered) (hholds : HoldsAlternative cs names) :
      Blames config numbered rules line rule.left flaw

/-- Some left side is reserved, or some alternative is refused. -/
def Offending (config : Config) (rules : List Rule) : Prop :=
  ∃ rule ∈ rules, config.IsReserved rule.left ∨
    ∃ names ∈ rule.alternatives, config.Offends names

theorem Blames.offending {numbered : List (List Char × Nat)} {line : Nat} {left : String}
    {flaw : Flaw} (h : Blames config numbered rules line left flaw) : Offending config rules := by
  cases h with
  | @left before after rule cs line hrules hbefore hrule =>
    exact ⟨rule, by simp [hrules], Or.inl hrule⟩
  | @alternative before after rule earlier later names flaw cs line hlefts hrules hbefore
      halternatives hearlier hnames =>
    exact ⟨rule, by simp [hrules], Or.inr ⟨names, by simp [halternatives], hnames⟩⟩

section Located

variable {numbered : List (List Char × Nat)} (hplain : ∀ rule ∈ rules, rule.IsPlain)
  (hstands : ∀ rule ∈ rules, rule.StandsIn numbered) {e : BuildError}
include hplain

theorem findSome?_leftFault?_eq_none_iff (k : Nat) :
    (rules.zipIdx k).findSome? (Rule.leftFault? config) = none ↔
      ∀ rule ∈ rules, ¬ config.IsReserved rule.left := by
  rw [List.findSome?_eq_none_iff, ← forall_mem_zipIdx_iff _ rules k]
  exact forall₂_congr fun a ha =>
    (hplain a.1 (List.fst_mem_of_mem_zipIdx ha)).leftFault?_eq_none_iff

theorem findSome?_rightFault?_eq_none_iff (k : Nat) :
    (rules.zipIdx k).findSome? (Rule.rightFault? config) = none ↔
      ∀ rule ∈ rules, ∀ names ∈ rule.alternatives, ¬ config.Offends names := by
  rw [List.findSome?_eq_none_iff, ← forall_mem_zipIdx_iff
    (fun rule => ∀ names ∈ rule.alternatives, ¬ config.Offends names) rules k]
  exact forall₂_congr fun a ha =>
    (hplain a.1 (List.fst_mem_of_mem_zipIdx ha)).rightFault?_eq_none_iff

include hstands

/-- The fault in a left side is that of the first one that is reserved. -/
theorem blames_of_leftFault? {k : Nat}
    (h : (rules.zipIdx k).findSome? (Rule.leftFault? config) = some e) :
    ∃ line left flaw, e = .malformedRule line left flaw ∧
      Blames config numbered rules line left flaw := by
  obtain ⟨before, rule, after, rfl, hrule, hnone⟩ := exists_of_findSome?_zipIdx h
  obtain ⟨hbefore, hothers⟩ := List.forall_mem_append.mp hplain
  obtain ⟨hreserved, rfl⟩ := (hothers rule List.mem_cons_self).leftFault?_eq_some_iff.mp hrule
  obtain ⟨cs, line, hline, hmem, hholds⟩ := (hstands rule (by simp)).left
  have hfirst : rule.lines[0]? = some line := by rwa [← List.head?_eq_getElem?]
  rw [← List.findSome?_eq_none_iff, findSome?_leftFault?_eq_none_iff hbefore] at hnone
  rw [Rule.lineOf_eq hfirst]
  exact ⟨_, _, _, rfl, .left rfl hnone hreserved hline hmem hholds⟩

/-- If no left side is reserved, the fault is that in the first alternative that is refused. -/
theorem blames_of_rightFault? {k : Nat} (hlefts : ∀ r ∈ rules, ¬ config.IsReserved r.left)
    (h : (rules.zipIdx k).findSome? (Rule.rightFault? config) = some e) :
    ∃ line left flaw, e = .malformedRule line left flaw ∧
      Blames config numbered rules line left flaw := by
  obtain ⟨before, rule, after, rfl, hrule, hnone⟩ := exists_of_findSome?_zipIdx h
  obtain ⟨hbefore, hothers⟩ := List.forall_mem_append.mp hplain
  have hrulePlain := hothers rule List.mem_cons_self
  rw [← List.findSome?_eq_none_iff, findSome?_rightFault?_eq_none_iff hbefore] at hnone
  rw [hrulePlain.rightFault?_eq] at hrule
  obtain ⟨earlier, names, later, halternatives, hfault, hearlier⟩ :=
    exists_of_findSome?_zipIdx hrule
  rw [Nat.zero_add, Rule.alternativeFault?, hrulePlain.name_eq] at hfault
  obtain ⟨flaw, hflaw, rfl⟩ := Option.map_eq_some_iff.mp hfault
  have hnames : names ∈ rule.alternatives := by simp [halternatives]
  have hfirst : ∀ names ∈ earlier, ¬ config.Offends names := by
    simp only [Rule.alternativeFault?, Option.map_eq_none_iff] at hearlier
    rw [forall_mem_zipIdx_iff fun names => config.flaw? names = none] at hearlier
    intro names hnames
    have hmem : names ∈ rule.alternatives := by simp [halternatives, hnames]
    exact (hrulePlain.flaw?_eq_none_iff hmem).mp (hearlier names hnames)
  have hoffends : config.Offends names := by
    by_contra hnot
    rw [(hrulePlain.flaw?_eq_none_iff hnames).mpr hnot] at hflaw
    cases hflaw
  have hplace : rule.alternatives[earlier.length]? = some names := by simp [halternatives]
  obtain ⟨cs, line, hline, hmem, hholds⟩ := (hstands rule (by simp)).exists_line hplace
  rw [Rule.lineOf_eq hline]
  exact ⟨_, _, _, rfl, .alternative hlefts rfl hnone halternatives hfirst hoffends hflaw hline hmem
    hholds⟩

end Located

/-- **Which texts have a parser, and which faults the others have.** -/
theorem build_readRules_cases (h : readRules config text = .ok rules) (start : Option String) :
    (rules = [] ∧ Parser.build rules start config = .error .noRules) ∨
    (∃ line left flaw, Blames config (numberedLines text.toList) rules line left flaw ∧
      Parser.build rules start config = .error (.malformedRule line left flaw)) ∨
    (rules ≠ [] ∧ ¬ Offending config rules ∧
      ∃ s, start = some s ∧ (∀ rule ∈ rules, rule.left ≠ Text.trim s) ∧
        Parser.build rules start config = .error (.unknownStart (Text.trim s))) ∨
    (rules ≠ [] ∧ ¬ Offending config rules ∧
      (∀ s ∈ start, ∃ rule ∈ rules, rule.left = Text.trim s) ∧
      ∃ p, Parser.build rules start config = .ok p) := by
  have hplain := isPlain_of_readRules h
  have hstands := standsIn_of_readRules h
  simp only [Parser.build_eq_error_iff, Parser.exists_build_eq_ok_iff]
  cases rules with
  | nil => exact Or.inl ⟨rfl, rfl⟩
  | cons first rest =>
    right
    rw [Grammar.fault?]
    cases hleft : ((first :: rest).zipIdx 1).findSome? (Rule.leftFault? config) with
    | some e =>
      left
      obtain ⟨line, left, flaw, rfl, hblames⟩ := blames_of_leftFault? hplain hstands hleft
      exact ⟨line, left, flaw, hblames, rfl⟩
    | none =>
      rw [findSome?_leftFault?_eq_none_iff hplain] at hleft
      cases hright : ((first :: rest).zipIdx 1).findSome? (Rule.rightFault? config) with
      | some e =>
        left
        obtain ⟨line, left, flaw, rfl, hblames⟩ := blames_of_rightFault? hplain hstands hleft hright
        exact ⟨line, left, flaw, hblames, rfl⟩
      | none =>
        right
        rw [findSome?_rightFault?_eq_none_iff hplain] at hright
        have hsound : ¬ Offending config (first :: rest) := by
          rintro ⟨rule, hrule, hreserved | ⟨names, hnames, hoffends⟩⟩
          · exact hleft rule hrule hreserved
          · exact hright rule hrule names hnames hoffends
        have hlefts : ∀ name, name ∈ (first :: rest).map Rule.name ↔
            ∃ rule ∈ first :: rest, rule.left = name := by
          intro name
          rw [List.mem_map]
          exact exists_congr fun rule => and_congr_right fun hrule => by
            rw [(hplain rule hrule).name_eq]
        simp only [Option.none_or]
        by_cases hstart : Text.trim (start.getD first.left) ∈ (first :: rest).map Rule.name
        · right
          rw [if_pos hstart]
          refine ⟨List.cons_ne_nil _ _, hsound, ?_, rfl⟩
          rintro s ⟨rfl⟩
          exact (hlefts _).mp hstart
        · left
          rw [if_neg hstart]
          rw [hlefts] at hstart
          cases start with
          | none =>
            have htrim := (hplain first List.mem_cons_self).isWord_left.trim_eq
            exact absurd ⟨first, List.mem_cons_self, htrim.symm⟩ hstart
          | some s =>
            refine ⟨List.cons_ne_nil _ _, hsound, s, rfl, fun rule hrule heq => ?_, rfl⟩
            exact hstart ⟨rule, hrule, heq⟩

/-- **Which texts have a parser, and which faults the others have.** A text that is read is refused
for having no rules if all its lines are blank; otherwise for a rule, if a left side is reserved or
if an alternative is refused; otherwise for the start symbol, if one is named that is no left side;
and otherwise it has a parser. If a rule is blamed, then it is for the first left side that is
reserved, or else for the first alternative that is refused; and the line that is blamed holds this
left side or this alternative. -/
theorem build_readRules (config : Config) (text : String) (rules : List Rule)
    (start : Option String) (h : readRules config text = .ok rules) :
    (Parser.build rules start config = .error .noRules ↔ IsBlankText text) ∧
    ((∃ line left flaw,
        Parser.build rules start config = .error (.malformedRule line left flaw)) ↔
      ¬ IsBlankText text ∧ Offending config rules) ∧
    (∀ name, Parser.build rules start config = .error (.unknownStart name) ↔
      ¬ IsBlankText text ∧ ¬ Offending config rules ∧
        ∃ s, start = some s ∧ name = Text.trim s ∧ ∀ rule ∈ rules, rule.left ≠ name) ∧
    ((∃ p, Parser.build rules start config = .ok p) ↔
      ¬ IsBlankText text ∧ ¬ Offending config rules ∧
        ∀ s ∈ start, ∃ rule ∈ rules, rule.left = Text.trim s) ∧
    ∀ line left flaw, Parser.build rules start config = .error (.malformedRule line left flaw) →
      Blames config (numberedLines text.toList) rules line left flaw := by
  rw [← eq_nil_iff_isBlankText h]
  obtain ⟨hnil, hbuild⟩ | ⟨line, left, flaw, hblames, hbuild⟩ | ⟨hne, hsound, s, rfl, hs, hbuild⟩ |
    ⟨hne, hsound, hs, p, hbuild⟩ := build_readRules_cases h start
  · rw [hbuild]
    simp [hnil]
  · have hne : rules ≠ [] := by
      obtain ⟨rule, hrule, -⟩ := hblames.offending
      exact List.ne_nil_of_mem hrule
    rw [hbuild]
    simp [hne, hblames, hblames.offending]
  · have hname : ∀ name, Text.trim s = name ↔
        name = Text.trim s ∧ ∀ rule ∈ rules, ¬ rule.left = name := by
      intro name
      refine ⟨?_, fun heq => heq.1.symm⟩
      rintro rfl
      exact ⟨rfl, hs⟩
    rw [hbuild]
    simpa [hne, hsound] using ⟨hname, hs⟩
  · have hstart : ∀ name s, start = some s → name = Text.trim s →
        ∃ rule ∈ rules, rule.left = name := by
      rintro name s hs' rfl
      exact hs s hs'
    rw [hbuild]
    simpa [hne, hsound] using ⟨hstart, hs⟩

/-- A text with two alternatives that are refused. -/
def faultyText : String :=
  "A -> a\n\n  | b _\nB -> $"

/-- The rules that are read from it. -/
def faultyRules : List Rule :=
  [⟨"A", [["a"], ["b", "_"]], [1, 3]⟩, ⟨"B", [["$"]], [4]⟩]

theorem build_readRules_faulty : readRules {} faultyText = .ok faultyRules ∧
    Parser.build faultyRules none {} = .error (.malformedRule 3 "A" .epsilonAmongSymbols) ∧
    Blames {} (numberedLines faultyText.toList) faultyRules 3 "A" .epsilonAmongSymbols := by
  have hread : readRules {} faultyText = .ok faultyRules := by decide +kernel
  have hbuild : Parser.build faultyRules none {} =
      .error (.malformedRule 3 "A" .epsilonAmongSymbols) :=
    Parser.build_eq_error_iff.mpr (by decide +kernel)
  obtain ⟨-, -, -, -, hblames⟩ := build_readRules {} faultyText faultyRules none hread
  exact ⟨hread, hbuild, hblames 3 "A" .epsilonAmongSymbols hbuild⟩

end RuleText

end TopDown
