import Mathlib.Data.List.Sort
import TopDown.Proofs.Display.ListedText
import TopDown.Proofs.Grammar.Names
import TopDown.Proofs.Run.Rearrangement

/-!
# Reading a listing back

A grammar that comes from a text has plain names, so its listing can be read. The rules that are
read have one left side for every group, and their alternatives are those of the grammar by name,
since the sign of the empty string is a placeholder under every configuration. So their grammar says
the same of every name as the grammar that was listed, and because the left sides come first in it,
in the order of the rules, it is listed in the same way. The one thing that can go wrong is that
there is no listing: a left side may be too long for the column.

## Main results

* `Config.spelling_listedNames`: what is listed stands for the same names
* `Grammar.isPlain_groups`: the groups of a grammar can be read
* `Grammar.describe?_listed`, `Grammar.groups_listed`: the grammar of what was listed
* `Parser.listing_reads_back`: the listing of a parser is read back, if there is one
-/

namespace TopDown

variable {rules rules' : List Rule} {start : Option String} {config : Config} {g g' : Grammar}
  {name : String} {symbol : Nat} {α : List Nat}

/-! ## Alternatives as they are listed -/

/-- The names of an alternative as they are listed: the empty alternative has a sign. -/
def listedNames : List String → List String
  | [] => [Mark.epsilon]
  | names => names

theorem Catalog.spell_eq (c : Catalog) (α : List Nat) : c.spell α = listedNames (α.map c.name) := by
  cases α <;> rfl

/-- **What is listed stands for the same names**, under every configuration. -/
theorem Config.spelling_listedNames {names : List String}
    (h : ∀ name ∈ names, Text.trim name = name ∧ config.isEpsilon name = false) :
    config.spelling (listedNames names) = names := by
  have htrim : names.map Text.trim = names := by
    refine (List.map_congr_left fun name hname => ?_).trans (List.map_id names)
    exact (h name hname).1
  match names with
  | [] =>
    have hepsilon : config.isEpsilon (Text.trim Mark.epsilon) = true := by
      have hmark : Text.trim Mark.epsilon = Mark.epsilon := by decide +kernel
      simp [hmark, isEpsilon]
    simp [spelling, listedNames, hepsilon]
  | [only] =>
    obtain ⟨honly, hepsilon⟩ := h only List.mem_cons_self
    simp [spelling, listedNames, honly, hepsilon]
  | first :: second :: rest => exact htrim

theorem isPlainWord_epsilon : RuleText.IsPlainWord Mark.epsilon where
  isWord := Text.isWord_iff.mpr (by decide +kernel)
  arrowFree := List.isChain_singleton 'ε'
  bar_notMem := by decide +kernel

/-- What is listed for plain names is plain. -/
theorem isPlainWord_listedNames {names : List String}
    (h : ∀ name ∈ names, RuleText.IsPlainWord name) :
    listedNames names ≠ [] ∧ ∀ name ∈ listedNames names, RuleText.IsPlainWord name := by
  cases names with
  | nil => exact ⟨List.cons_ne_nil _ _, by simpa [listedNames] using isPlainWord_epsilon⟩
  | cons first rest => exact ⟨List.cons_ne_nil _ _, h⟩

namespace Grammar

/-! ## The symbols that are listed -/

theorem mem_defined_iff (h : ofRules rules start config = .ok g) :
    symbol ∈ g.defined ↔ symbol < g.size ∧ g.name symbol ∈ rules.map Rule.name := by
  simp only [Catalog.defined, List.mem_filter, Bool.not_eq_true', List.isEmpty_eq_false_iff]
  constructor
  · rintro ⟨hmem, hne⟩
    have hlt := Catalog.lt_size_of_isNonterminal (Catalog.mem_nonterminals.mp hmem)
    exact ⟨hlt, (alternatives_ne_nil_iff h hlt).mp hne⟩
  · rintro ⟨hlt, hleft⟩
    have hne := (alternatives_ne_nil_iff h hlt).mpr hleft
    obtain ⟨α, hα⟩ := List.exists_mem_of_ne_nil _ hne
    exact ⟨Catalog.mem_nonterminals.mpr (Catalog.isNonterminal_of_mem hα), hne⟩

/-- The names that are listed are those of the left sides. -/
theorem mem_names_defined_iff (h : ofRules rules start config = .ok g) :
    name ∈ g.defined.map g.name ↔ name ∈ rules.map Rule.name := by
  rw [List.mem_map]
  constructor
  · rintro ⟨symbol, hsymbol, rfl⟩
    exact ((mem_defined_iff h).mp hsymbol).2
  · intro hleft
    obtain ⟨symbol, hfind⟩ := (exists_find?_iff h).mpr (Or.inl (List.mem_map.mp hleft))
    have hname := Catalog.name_eq_of_name? (Catalog.name?_of_find? hfind)
    refine ⟨symbol, (mem_defined_iff h).mpr ⟨Catalog.lt_size_of_find? hfind, ?_⟩, hname⟩
    rwa [hname]

theorem nodup_names_defined (hg : g.WellFormed) : (g.defined.map g.name).Nodup :=
  (nodup_map_name_nonterminals hg).sublist (List.filter_sublist.map g.name)

/-- A listing is made of names and what the grammar says of them. -/
theorem groups_listing (hg : g.WellFormed) :
    (Parser.generate g).listing.groups = (g.defined.map g.name).map fun name =>
      ⟨name, (((g.describe? name).map Description.alternatives).getD []).map listedNames⟩ := by
  rw [List.map_map]
  refine List.map_congr_left fun symbol hsymbol => ?_
  have hlt : symbol < g.size :=
    Catalog.lt_size_of_isNonterminal (Catalog.mem_nonterminals.mp (List.mem_of_mem_filter hsymbol))
  simp [describe?_name hg hlt, Catalog.spell_eq, Function.comp_def, Parser.generate]

/-- **Different left sides are listed in order.** -/
theorem map_name_defined (h : ofRules rules start config = .ok g)
    (hnodup : (rules.map Rule.name).Nodup) : g.defined.map g.name = rules.map Rule.name := by
  have hg := wellFormed_of_ofRules h
  obtain ⟨hle, hlefts⟩ := lefts_eq h hnodup
  have hdefined : g.defined = List.range rules.length := by
    refine List.Pairwise.eq_of_mem_iff (r := (· < ·)) ?_ List.pairwise_lt_range fun symbol => ?_
    · exact (List.pairwise_lt_range.filter _).filter _
    · rw [mem_defined_iff h, ← hlefts, List.mem_map, List.mem_range]
      constructor
      · rintro ⟨hlt, i, hi, hname⟩
        have hi := List.mem_range.mp hi
        rwa [← hg.eq_of_name_eq (Nat.lt_of_lt_of_le hi hle) hlt hname]
      · intro hlt
        exact ⟨Nat.lt_of_lt_of_le hlt hle, symbol, List.mem_range.mpr hlt, rfl⟩
  rw [hdefined, hlefts]

/-! ## Grammars of plain rules -/

/-- Names of left sides are plain. -/
theorem name_eq_left (hplain : ∀ rule ∈ rules, rule.IsPlain) :
    ∀ rule ∈ rules, rule.name = rule.left := fun rule hrule =>
  (hplain rule hrule).isWord_left.trim_eq

theorem trim_name_start (h : ofRules rules start config = .ok g)
    (hplain : ∀ rule ∈ rules, rule.IsPlain) : Text.trim (g.name g.start) = g.name g.start := by
  obtain ⟨rule, hrule, hname⟩ := List.mem_map.mp (name_start_mem h)
  rw [← hname, name_eq_left hplain rule hrule]
  exact (hplain rule hrule).isWord_left.trim_eq

/-- The alternatives of a grammar come from rules. -/
theorem exists_spelling_of_mem (h : ofRules rules start config = .ok g)
    (hα : α ∈ g.alternatives symbol) :
    ∃ rule ∈ rules, ∃ names ∈ rule.alternatives, config.spelling names = α.map g.name := by
  have hlt := Catalog.lt_size_of_isNonterminal (Catalog.isNonterminal_of_mem hα)
  have hmem := List.mem_map_of_mem (f := (·.map g.name)) hα
  rw [map_alternatives h hlt] at hmem
  obtain ⟨names, hnames, heq⟩ := List.mem_map.mp hmem
  obtain ⟨rule, hrule, -, hnames⟩ := mem_alternativesOf_iff.mp hnames
  exact ⟨rule, hrule, names, hnames, heq⟩

/-- The names in an alternative are plain words, and none of them is reserved. -/
theorem isPlainWord_of_mem (h : ofRules rules start config = .ok g)
    (hplain : ∀ rule ∈ rules, rule.IsPlain) (hα : α ∈ g.alternatives symbol) :
    ∀ name ∈ α.map g.name, RuleText.IsPlainWord name ∧ config.isEpsilon name = false ∧
      name ≠ Mark.finish := by
  intro name hname
  obtain ⟨rule, hrule, names, hnames, heq⟩ := exists_spelling_of_mem h hα
  rw [← heq] at hname
  refine ⟨?_, not_reserved h (Or.inr ⟨rule, hrule, names, hnames, hname⟩)⟩
  obtain ⟨raw, hraw, rfl, -⟩ := Config.mem_spelling_iff.mp hname
  have hword := ((hplain rule hrule).words names hnames).2 raw hraw
  rwa [hword.isWord.trim_eq]

/-- What is listed for an alternative stands for its names. -/
theorem spelling_spell (h : ofRules rules start config = .ok g)
    (hplain : ∀ rule ∈ rules, rule.IsPlain) (hα : α ∈ g.alternatives symbol) :
    config.spelling (g.spell α) = α.map g.name := by
  rw [Catalog.spell_eq]
  refine Config.spelling_listedNames fun name hname => ?_
  obtain ⟨hword, hepsilon, -⟩ := isPlainWord_of_mem h hplain hα name hname
  exact ⟨hword.isWord.trim_eq, hepsilon⟩

/-- **The groups of a grammar of plain rules are plain.** -/
theorem isPlain_groups (h : ofRules rules start config = .ok g)
    (hplain : ∀ rule ∈ rules, rule.IsPlain) :
    ∀ group ∈ (Parser.generate g).listing.groups, group.IsPlain := by
  refine List.forall_mem_map.mpr fun symbol hsymbol => ?_
  obtain ⟨hlt, hleft⟩ := (mem_defined_iff h).mp hsymbol
  have hne := (alternatives_ne_nil_iff h hlt).mpr hleft
  obtain ⟨rule, hrule, hname⟩ := List.mem_map.mp hleft
  rw [name_eq_left hplain rule hrule] at hname
  refine ⟨hname ▸ (hplain rule hrule).isWord_left, hname ▸ (hplain rule hrule).arrowFree_left,
    fun hnil => hne (List.map_eq_nil_iff.mp hnil), ?_⟩
  refine List.forall_mem_map.mpr fun α hα => ?_
  rw [Catalog.spell_eq]
  exact isPlainWord_listedNames fun name hname => (isPlainWord_of_mem h hplain hα name hname).1

/-! ## The rules of a listing -/

/-- A rule of a listing has the left side and the alternatives of a symbol. -/
theorem exists_defined_of_mem_listed
    (hlisted : rules'.map Rule.listed = (Parser.generate g).listing.groups) {rule : Rule}
    (hrule : rule ∈ rules') : ∃ symbol ∈ g.defined, rule.left = g.name symbol ∧
      rule.alternatives = (g.alternatives symbol).map g.spell := by
  have hmem := List.mem_map_of_mem (f := Rule.listed) hrule
  rw [hlisted] at hmem
  obtain ⟨symbol, hsymbol, heq⟩ := List.mem_map.mp hmem
  rw [Rule.listed, ListedGroup.mk.injEq] at heq
  exact ⟨symbol, hsymbol, heq.1.symm, heq.2.symm⟩

section Listed

variable (h : ofRules rules start config = .ok g) (hplain : ∀ rule ∈ rules, rule.IsPlain)
  (hlisted : rules'.map Rule.listed = (Parser.generate g).listing.groups)

include h hplain hlisted

theorem isPlain_listed : ∀ rule ∈ rules', rule.IsPlain := by
  intro rule hrule
  have hmem := List.mem_map_of_mem (f := Rule.listed) hrule
  rw [hlisted] at hmem
  have hgroup := isPlain_groups h hplain _ hmem
  exact ⟨hgroup.isWord_left, hgroup.arrowFree_left, hgroup.alternatives_ne_nil, hgroup.words⟩

/-- The rules of a listing have the left sides that are listed. -/
theorem map_name_listed : rules'.map Rule.name = g.defined.map g.name := by
  have hnames := congrArg (List.map ListedGroup.left) hlisted
  rw [List.map_map] at hnames
  refine (List.map_congr_left fun rule hrule => ?_).trans (hnames.trans ?_)
  · exact name_eq_left (isPlain_listed h hplain hlisted) rule hrule
  · exact List.map_map

/-- What is listed has the same left sides, in whatever order. -/
theorem mem_names_listed_iff (name : String) :
    name ∈ rules'.map Rule.name ↔ name ∈ rules.map Rule.name := by
  rw [map_name_listed h hplain hlisted, mem_names_defined_iff h]

/-- The rules of a listing have the same alternatives, as names. -/
theorem alternativesOf_listed (name : String) :
    (alternativesOf rules name).map config.spelling =
      (alternativesOf rules' name).map config.spelling := by
  have hg := wellFormed_of_ofRules h
  have hnames := map_name_listed h hplain hlisted
  by_cases hleft : name ∈ rules'.map Rule.name
  · obtain ⟨rule, hrule, rfl⟩ := List.mem_map.mp hleft
    have hplain' := isPlain_listed h hplain hlisted
    obtain ⟨symbol, hsymbol, hname, halternatives⟩ :=
      exists_defined_of_mem_listed hlisted hrule
    have hlt := ((mem_defined_iff h).mp hsymbol).1
    rw [alternativesOf_of_mem (hnames ▸ nodup_names_defined hg) hrule, halternatives,
      name_eq_left hplain' rule hrule, hname, ← map_alternatives h hlt, List.map_map]
    exact (List.map_congr_left fun α hα => spelling_spell h hplain hα).symm
  · have hnone : ∀ {rules : List Rule}, name ∉ rules.map Rule.name →
        alternativesOf rules name = [] :=
      fun hnot => alternativesOf_eq_nil fun rule hrule heq =>
        hnot (List.mem_map.mpr ⟨rule, hrule, heq⟩)
    rw [hnone hleft, hnone (mt (mem_names_listed_iff h hplain hlisted name).mpr hleft)]

/-- The rules of a listing have a grammar. -/
theorem exists_ofRules_listed :
    ∃ g', ofRules rules' (some (g.name g.start)) config = .ok g' := by
  obtain ⟨start', hsome⟩ := exists_start_of_ofRules h
  obtain ⟨hflaws, -, -⟩ := (exists_ofRules_iff rules start' config).mp ⟨g, hsome⟩
  have hlefts := mem_names_listed_iff h hplain hlisted
  refine (exists_ofRules_iff rules' (g.name g.start) config).mpr ⟨?_, ?_, ?_⟩
  · intro rule hrule
    obtain ⟨rule₀, hrule₀, hname⟩ :=
      List.mem_map.mp ((hlefts rule.name).mp (List.mem_map_of_mem hrule))
    rw [← hname]
    exact hflaws rule₀ hrule₀
  · intro rule hrule
    have hrulePlain := isPlain_listed h hplain hlisted rule hrule
    obtain ⟨symbol, -, -, halternatives⟩ := exists_defined_of_mem_listed hlisted hrule
    refine ⟨hrulePlain.alternatives_ne_nil, fun names hnames => ?_⟩
    refine ⟨(hrulePlain.words names hnames).1, ?_⟩
    rw [halternatives] at hnames
    obtain ⟨α, hα, rfl⟩ := List.mem_map.mp hnames
    rw [spelling_spell h hplain hα]
    exact fun name hname => (isPlainWord_of_mem h hplain hα name hname).2
  · rw [trim_name_start h hplain, hlefts]
    exact name_start_mem h

/-- **The grammar of what was listed says the same of every name.** -/
theorem describe?_listed (h' : ofRules rules' (some (g.name g.start)) config = .ok g') :
    g.name g.start = g'.name g'.start ∧ ∀ name, g.describe? name = g'.describe? name := by
  obtain ⟨hstart', hdescribe'⟩ := describe?_ofRules h'
  have htrim := trim_name_start h hplain
  have hsame := describeRules?_congr
    (fun name => (mem_names_listed_iff h hplain hlisted name).symm)
    (alternativesOf_listed h hplain hlisted)
  obtain ⟨start', h⟩ := exists_start_of_ofRules h
  obtain ⟨-, hdescribe⟩ := describe?_ofRules h
  refine ⟨(hstart'.trans htrim).symm, fun name => ?_⟩
  rw [hdescribe, hdescribe', hsame]

/-- **The grammar of what was listed is listed in the same way.** -/
theorem groups_listed (h' : ofRules rules' (some (g.name g.start)) config = .ok g') :
    (Parser.generate g').listing.groups = (Parser.generate g).listing.groups := by
  have hg := wellFormed_of_ofRules h
  have hnames := map_name_listed h hplain hlisted
  have hdefined : g'.defined.map g'.name = g.defined.map g.name :=
    (map_name_defined h' (hnames ▸ nodup_names_defined hg)).trans hnames
  rw [groups_listing hg, groups_listing (wellFormed_of_ofRules h'), hdefined]
  simp only [(describe?_listed h hplain hlisted h').2]

end Listed

end Grammar

/-! ## The width of a listing -/

namespace Listing

variable {listing : Listing}

theorem leftWidth_lt_iff {bound : Nat} (hbound : 0 < bound) :
    listing.leftWidth < bound ↔ ∀ group ∈ listing.groups, group.left.length < bound := by
  rw [leftWidth]
  induction listing.groups with
  | nil => simpa using hbound
  | cons group groups ih => rw [List.foldr_cons, Nat.max_lt, ih, List.forall_mem_cons]

/-- There is no listing if some left side is too long for the column. -/
theorem plain?_eq_none_iff :
    listing.plain? = none ↔ ∃ group ∈ listing.groups, Text.widthBound ≤ group.left.length := by
  have hbound : 0 < Text.widthBound := by decide
  rw [plain?]
  split
  · next hlt =>
    have hall := (leftWidth_lt_iff hbound).mp hlt
    constructor
    · intro h
      cases h
    · rintro ⟨group, hgroup, hle⟩
      exact absurd (hall group hgroup) (Nat.not_lt.mpr hle)
  · next hnot =>
    rw [leftWidth_lt_iff hbound] at hnot
    push Not at hnot
    exact ⟨fun _ => hnot, fun _ => rfl⟩

theorem eq_of_plain?_eq_some {plain : String} (h : listing.plain? = some plain) :
    plain = "\n".intercalate
      (listing.groups.flatMap (ListedGroup.plainLines listing.leftWidth)) := by
  rw [plain?] at h
  split at h
  · cases h
    rfl
  · cases h

/-- A plain listing is made of the groups. -/
theorem plain?_congr {listing' : Listing} (h : listing.groups = listing'.groups) :
    listing.plain? = listing'.plain? := by
  have hwidth : listing.leftWidth = listing'.leftWidth := by rw [leftWidth, h, leftWidth]
  rw [plain?, plain?, hwidth, h]

end Listing

namespace Parser

open RuleText (readRules)

variable {text : String} {p : Parser}

/-- The left sides that are listed are those of the rules. -/
theorem plain?_listing_eq_none_iff (h : Grammar.ofRules rules start config = .ok g)
    (hplain : ∀ rule ∈ rules, rule.IsPlain) : (generate g).listing.plain? = none ↔
      ∃ rule ∈ rules, Text.widthBound ≤ rule.left.length := by
  have hnames : rules.map Rule.name = rules.map Rule.left :=
    List.map_congr_left (Grammar.name_eq_left hplain)
  calc (generate g).listing.plain? = none
      ↔ ∃ left ∈ g.defined.map g.name, Text.widthBound ≤ left.length := by
        rw [Listing.plain?_eq_none_iff]
        simp only [listing, generate, List.mem_map, exists_exists_and_eq_and]
    _ ↔ ∃ left ∈ rules.map Rule.left, Text.widthBound ≤ left.length := by
        simp only [Grammar.mem_names_defined_iff h, hnames]
    _ ↔ ∃ rule ∈ rules, Text.widthBound ≤ rule.left.length := by
        simp only [List.mem_map, exists_exists_and_eq_and]

/-- **A plain listing can be read back.** Let a parser be built from rules that are read from a
text. Then it has a plain listing unless some left side is too long for the column. If there is a
listing, then it is read as rules, and with the same start symbol these have a parser that cannot be
told apart by names from the one that was listed and that has the same listing. -/
theorem listing_reads_back (hread : readRules config text = .ok rules)
    (hp : build rules start config = .ok p) :
    (p.listing.plain? = none ↔ ∃ rule ∈ rules, Text.widthBound ≤ rule.left.length) ∧
    ∀ plain, p.listing.plain? = some plain → ∃ rules' p',
      readRules config plain = .ok rules' ∧
      build rules' (some (p.grammar.name p.grammar.start)) config = .ok p' ∧
      p'.grammar.name p'.grammar.start = p.grammar.name p.grammar.start ∧
      p.SameByName p' ∧ p'.listing.plain? = some plain := by
  have hplain := RuleText.isPlain_of_readRules hread
  obtain ⟨g, h, rfl⟩ := exists_ofRules_of_build hp
  refine ⟨plain?_listing_eq_none_iff h hplain, fun plain hsome => ?_⟩
  have hne : (generate g).listing.groups ≠ [] := by
    have hstart := (Grammar.mem_names_defined_iff h).mpr (Grammar.name_start_mem h)
    obtain ⟨symbol, hsymbol, -⟩ := List.mem_map.mp hstart
    exact List.ne_nil_of_mem (List.mem_map_of_mem hsymbol)
  obtain ⟨rules', hread', hlisted⟩ := Listing.readRules_plain config
    (generate g).listing.leftWidth hne (Grammar.isPlain_groups h hplain)
  rw [← Listing.eq_of_plain?_eq_some hsome] at hread'
  obtain ⟨g', h'⟩ := Grammar.exists_ofRules_listed h hplain hlisted
  obtain ⟨hstart, hdescribe⟩ := Grammar.describe?_listed h hplain hlisted h'
  refine ⟨rules', generate g', hread', ?_, hstart.symm, ?_, ?_⟩
  · exact congrArg (Except.map generate) h'
  · exact Grammar.sameByName (Grammar.wellFormed_of_ofRules h) (Grammar.wellFormed_of_ofRules h')
      hstart hdescribe
  · rw [← hsome]
    exact Listing.plain?_congr (Grammar.groups_listed h hplain hlisted h')

/-- A text with odd names, a left side in two rules, and a placeholder. -/
def oddText : String := "S -> A b-\n| >x\n>x -> _ | c\nS -> b"

/-- The rules of this text. -/
def oddRules : List Rule :=
  [⟨"S", [["A", "b-"], [">x"]], [1, 2]⟩, ⟨">x", [["_"], ["c"]], [3, 3]⟩, ⟨"S", [["b"]], [4]⟩]

/-- The grammar of these rules. -/
def oddGrammar : Grammar :=
  ⟨⟨#[.nonterminal "S" [[2, 3], [1], [5]], .nonterminal ">x" [[], [4]], .nonterminal "A" [],
    .terminal "b-", .terminal "c", .terminal "b", .terminal "$"]⟩, 0, 6⟩

/-- The listing of this grammar. -/
def oddListing : String := " S -> A b-\n    | >x\n    | b\n>x -> ε\n    | c"

theorem listing_reads_back_odd :
    readRules {} oddText = .ok oddRules ∧
      build oddRules none {} = .ok (generate oddGrammar) ∧
      (generate oddGrammar).listing.plain? = some oddListing ∧
      ∃ rules' p', readRules {} oddListing = .ok rules' ∧
        build rules' (some "S") {} = .ok p' ∧ (generate oddGrammar).SameByName p' ∧
        p'.listing.plain? = some oddListing := by
  have hread : readRules {} oddText = .ok oddRules := by decide +kernel
  have hp : build oddRules none {} = .ok (generate oddGrammar) := build_eq_ok (by decide +kernel)
  have hsome : (generate oddGrammar).listing.plain? = some oddListing := by decide +kernel
  obtain ⟨-, hback⟩ := listing_reads_back hread hp
  obtain ⟨rules', p', hread', hp', -, hsame, hsome'⟩ := hback oddListing hsome
  exact ⟨hread, hp, hsome, rules', p', hread', hp', hsame, hsome'⟩

/-- A left side that is as long as the column of left sides may not be. -/
def longLeft : String := String.ofList (List.replicate Text.widthBound 'A')

theorem length_longLeft : longLeft.length = Text.widthBound := by
  rw [longLeft, String.length_ofList, List.length_replicate]

theorem longLeft_ne {name : String} (h : name.length < Text.widthBound) : longLeft ≠ name := by
  rintro rfl
  exact absurd h (by rw [length_longLeft]; exact Nat.lt_irrefl _)

theorem isPlain_longLeft : ListedGroup.IsPlain ⟨longLeft, [["a"]]⟩ := by
  have hchars : longLeft.toList = List.replicate Text.widthBound 'A' := String.toList_ofList
  refine ⟨⟨?_, fun c hc => ?_⟩, ?_, List.cons_ne_nil _ _, ?_⟩
  · simp [hchars, Text.widthBound]
  · rw [hchars] at hc
    rw [List.eq_of_mem_replicate hc]
    decide
  · change RuleText.ArrowFree longLeft.toList
    rw [hchars]
    exact List.isChain_replicate_of_rel _ (by decide)
  · have ha : RuleText.IsPlainWord "a" :=
      ⟨Text.isWord_iff.mpr (by decide +kernel), List.isChain_singleton 'a', by decide +kernel⟩
    simpa using ha

/-- A rule with this left side is without faults. -/
theorem exists_ofRules_longLeft {rule : Rule} (hname : rule.name = longLeft)
    (halternatives : rule.alternatives = [["a"]]) :
    ∃ g, Grammar.ofRules [rule] (some rule.left) {} = .ok g := by
  obtain ⟨hempty, hblank⟩ := Text.isWord_iff.mp isPlain_longLeft.isWord_left
  refine (Grammar.exists_ofRules_iff [rule] rule.left {}).mpr ⟨?_, ?_, List.mem_cons_self⟩
  · rw [List.forall_mem_singleton, hname]
    refine Catalog.leftFlaw?_eq_none_iff.mpr ⟨hempty, hblank, longLeft_ne (by decide), ?_⟩
    have hepsilon : longLeft ≠ Mark.epsilon := longLeft_ne (by decide)
    have hunderscore : longLeft ≠ Mark.underscore := longLeft_ne (by decide)
    simp [Config.isEpsilon, hepsilon, hunderscore]
  · have ha : Config.spelling {} ["a"] = ["a"] := by decide +kernel
    have hcan : Config.CanRead {} ["a"] := by
      refine ⟨List.cons_ne_nil _ _, ?_⟩
      rw [ha]
      exact List.forall_mem_singleton.mpr (by decide +kernel)
    rw [List.forall_mem_singleton, Rule.IsReadable, halternatives]
    exact ⟨List.cons_ne_nil _ _, List.forall_mem_singleton.mpr hcan⟩

/-- A rule is itself a listing, in a column that is too narrow. -/
theorem intercalate_plainLines_zero (left : String) :
    "\n".intercalate ([⟨left, [["a"]]⟩].flatMap (ListedGroup.plainLines 0)) = left ++ " -> a" := by
  rw [← String.toList_inj]
  simp [ListedGroup.plainLines, Text.padLeft, List.leftpad]

/-- **Not every grammar has a plain listing.** A text with a long left side is read and has a
parser, which cannot be listed. -/
theorem exists_not_listed : ∃ rules p, readRules {} (longLeft ++ " -> a") = .ok rules ∧
    build rules none {} = .ok p ∧ p.listing.plain? = none := by
  obtain ⟨rules, hread, hlisted⟩ := Listing.readRules_plain {} 0 (List.cons_ne_nil _ _)
    (List.forall_mem_singleton.mpr isPlain_longLeft)
  rw [intercalate_plainLines_zero] at hread
  obtain ⟨rule, rfl, hrule⟩ := List.map_eq_singleton_iff.mp hlisted
  rw [Rule.listed, ListedGroup.mk.injEq] at hrule
  obtain ⟨hleft, halternatives⟩ := hrule
  have hplain := RuleText.isPlain_of_readRules hread
  have hname := Grammar.name_eq_left hplain rule List.mem_cons_self
  obtain ⟨g, h⟩ := exists_ofRules_longLeft (hname.trans hleft) halternatives
  refine ⟨[rule], generate g, hread, congrArg (Except.map generate) h, ?_⟩
  rw [plain?_listing_eq_none_iff h hplain]
  exact ⟨rule, List.mem_cons_self, by rw [hleft, length_longLeft]⟩

end Parser

end TopDown
