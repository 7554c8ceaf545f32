import Mathlib.Data.List.Nodup
import TopDown.Proofs.Grammar.Rearrangement

/-!
# The names of a grammar

A grammar has the names that stand in its rules, and the end mark. They are nonterminals if they
are left sides, or if the convention takes them for nonterminals; only left sides have alternatives,
and they have at least one. If no left side has two rules, then the left sides are the first symbols
of the grammar, in the order of the rules.

## Main results

* `Config.mem_spelling_iff`: the names that stand in an alternative
* `Grammar.exists_find?_iff`, `Grammar.isNonterminal_iff`: which names a grammar has, and which of
  them are nonterminals
* `Grammar.map_alternatives`, `Grammar.alternatives_ne_nil_iff`: which symbols have alternatives
* `Grammar.lefts_eq`: the symbols that come first
* `Grammar.nodup_map_name`, `Grammar.name_ne_epsilon`: no two symbols share a name, and the sign of
  the empty string is none
-/

namespace TopDown

/-! ## The names in rules -/

/-- The names that stand in an alternative: all of them, trimmed, unless a placeholder of the empty
string stands alone. -/
theorem Config.mem_spelling_iff {config : Config} {names : List String} {name : String} :
    name ∈ config.spelling names ↔ ∃ raw ∈ names, Text.trim raw = name ∧
      ¬ (names = [raw] ∧ config.isEpsilon name = true) := by
  match names with
  | [] => simp [spelling]
  | [only] =>
    by_cases hepsilon : config.isEpsilon (Text.trim only) = true
    · simp only [spelling, List.map_cons, List.map_nil, hepsilon, if_true, List.not_mem_nil,
        false_iff]
      rintro ⟨raw, hraw, rfl, hnot⟩
      obtain rfl := List.mem_singleton.mp hraw
      exact hnot ⟨rfl, hepsilon⟩
    · simp only [spelling, List.map_cons, List.map_nil, hepsilon, Bool.false_eq_true, if_false,
        List.mem_singleton, exists_eq_left, true_and]
      constructor
      · rintro rfl
        exact ⟨rfl, hepsilon⟩
      · rintro ⟨rfl, -⟩
        rfl
  | first :: second :: rest =>
    have hspelling : config.spelling (first :: second :: rest) =
        (first :: second :: rest).map Text.trim := rfl
    rw [hspelling, List.mem_map]
    simp

namespace Grammar

variable {rules : List Rule} {start : Option String} {config : Config} {g : Grammar}
  {name : String} {symbol : Nat}

/-- The start symbol is named, or it is the left side of the first rule. -/
theorem exists_start_of_ofRules (h : ofRules rules start config = .ok g) :
    ∃ name, ofRules rules (some name) config = .ok g := by
  cases rules with
  | nil => cases h
  | cons first rest => exact ⟨start.getD first.left, h⟩

/-- **The names of a grammar** are those of left sides, those in alternatives, and the end mark. -/
theorem exists_find?_iff (h : ofRules rules start config = .ok g) :
    (∃ symbol, g.find? name = some symbol) ↔
      (∃ rule ∈ rules, rule.name = name) ∨
      (∃ rule ∈ rules, ∃ names ∈ rule.alternatives, name ∈ config.spelling names) ∨
      name = Mark.finish := by
  obtain ⟨start', h⟩ := exists_start_of_ofRules h
  have hdescribe := (describe?_ofRules h).2 name
  have hfind : (∃ symbol, g.find? name = some symbol) ↔ g.describe? name ≠ none := by
    rw [← Option.isSome_iff_exists, ← Option.isSome_iff_ne_none, Catalog.describe?,
      Option.isSome_map]
  rw [hfind, hdescribe, describeRules?, ← mem_productions_iff, ← List.mem_map]
  by_cases hleft : name ∈ rules.map Rule.name
  · simp [hleft]
  · by_cases hright : name ∈ (rules.flatMap (Rule.productions config)).flatMap Prod.snd
    · rw [if_neg hleft, if_pos hright]
      simp [hright]
    · rw [if_neg hleft, if_neg hright]
      simp only [hleft, hright, false_or, Option.none_or]
      by_cases hfinish : name = Mark.finish <;> simp [hfinish, eq_comm]

/-- No name in rules that have a grammar is reserved. -/
theorem not_reserved (h : ofRules rules start config = .ok g)
    (hname : (∃ rule ∈ rules, rule.name = name) ∨
      ∃ rule ∈ rules, ∃ names ∈ rule.alternatives, name ∈ config.spelling names) :
    config.isEpsilon name = false ∧ name ≠ Mark.finish := by
  obtain ⟨start', h⟩ := exists_start_of_ofRules h
  obtain ⟨hlefts, hreadable, -⟩ := (exists_ofRules_iff rules start' config).mp ⟨g, h⟩
  rcases hname with ⟨rule, hrule, rfl⟩ | ⟨rule, hrule, names, hnames, hmem⟩
  · obtain ⟨-, -, hfinish, hepsilon⟩ := Catalog.leftFlaw?_eq_none_iff.mp (hlefts rule hrule)
    exact ⟨hepsilon, hfinish⟩
  · exact ((hreadable rule hrule).2 names hnames).2 name hmem

/-- **The nonterminals of a grammar** are the left sides, and what the convention takes for
nonterminals. -/
theorem isNonterminal_iff (h : ofRules rules start config = .ok g)
    (hfind : g.find? name = some symbol) : g.isNonterminal symbol = true ↔
      (∃ rule ∈ rules, rule.name = name) ∨
      name ≠ Mark.finish ∧ config.convention.isNonterminal name = true := by
  have hkind : g.isNonterminal symbol = true ↔ g.isTerminal symbol = false :=
    ⟨Catalog.isTerminal_eq_false, Catalog.isNonterminal_of_lt (Catalog.lt_size_of_find? hfind)⟩
  have hreserved : _ → config.isEpsilon name = false ∧ name ≠ Mark.finish := not_reserved h
  have hnames := (exists_find?_iff h).mp ⟨symbol, hfind⟩
  obtain ⟨start', h⟩ := exists_start_of_ofRules h
  have hdescribe := (describe?_ofRules h).2 name
  rw [Catalog.describe?, hfind, Option.map_some, describeRules?] at hdescribe
  rw [← mem_productions_iff] at hreserved hnames
  rw [← List.mem_map] at hreserved hnames ⊢
  rw [hkind]
  by_cases hleft : name ∈ rules.map Rule.name
  · rw [if_pos hleft, Option.some_or, Option.some.injEq, Description.mk.injEq] at hdescribe
    simp [hleft, hdescribe.1]
  · by_cases hright : name ∈ (rules.flatMap (Rule.productions config)).flatMap Prod.snd
    · rw [if_neg hleft, if_pos hright, Option.some_or, Option.some.injEq,
        Description.mk.injEq] at hdescribe
      simp [hleft, (hreserved (Or.inr hright)).2, hdescribe.1]
    · obtain rfl : name = Mark.finish := (hnames.resolve_left hleft).resolve_left hright
      rw [if_neg hleft, if_neg hright, Option.none_or, if_pos rfl, Option.some.injEq,
        Description.mk.injEq] at hdescribe
      simp [hleft, hdescribe.1]

/-- What a grammar says of a symbol under its name. -/
theorem describe?_name {symbol : Nat} (hg : g.WellFormed) (hlt : symbol < g.size) :
    g.describe? (g.name symbol) =
      some ⟨g.isTerminal symbol, (g.alternatives symbol).map (·.map g.name)⟩ := by
  rw [Catalog.describe?, hg.find?_name hlt, Option.map_some]

/-- **The alternatives of a symbol** are those of the rules with its name as the left side. -/
theorem map_alternatives (h : ofRules rules start config = .ok g) (hlt : symbol < g.size) :
    (g.alternatives symbol).map (·.map g.name) =
      (alternativesOf rules (g.name symbol)).map config.spelling := by
  have hname := describe?_name (wellFormed_of_ofRules h) hlt
  obtain ⟨start', h⟩ := exists_start_of_ofRules h
  rw [(describe?_ofRules h).2, describeRules?, filter_productions] at hname
  by_cases hleft : g.name symbol ∈ rules.map Rule.name
  · rw [if_pos hleft, Option.some_or, Option.some.injEq, Description.mk.injEq] at hname
    exact hname.2.symm
  · have hnone : alternativesOf rules (g.name symbol) = [] :=
      alternativesOf_eq_nil fun rule hrule heq => hleft (List.mem_map.mpr ⟨rule, hrule, heq⟩)
    rw [hnone, List.map_nil]
    rw [if_neg hleft] at hname
    split at hname
    · rw [Option.some_or, Option.some.injEq, Description.mk.injEq] at hname
      exact hname.2.symm
    · rw [Option.none_or] at hname
      split at hname
      · rw [Option.some.injEq, Description.mk.injEq] at hname
        exact hname.2.symm
      · cases hname

/-- **The symbols with alternatives are the left sides.** -/
theorem alternatives_ne_nil_iff (h : ofRules rules start config = .ok g) (hlt : symbol < g.size) :
    g.alternatives symbol ≠ [] ↔ g.name symbol ∈ rules.map Rule.name := by
  have halternatives := map_alternatives h hlt
  obtain ⟨start', h⟩ := exists_start_of_ofRules h
  obtain ⟨-, hreadable, -⟩ := (exists_ofRules_iff rules start' config).mp ⟨g, h⟩
  have hempty : g.alternatives symbol = [] ↔ alternativesOf rules (g.name symbol) = [] := by
    rw [← List.map_eq_nil_iff (f := (·.map g.name)), halternatives, List.map_eq_nil_iff]
  rw [Ne, hempty]
  constructor
  · intro hne
    obtain ⟨names, hnames⟩ := List.exists_mem_of_ne_nil _ hne
    obtain ⟨rule, hrule, hname, -⟩ := mem_alternativesOf_iff.mp hnames
    exact List.mem_map.mpr ⟨rule, hrule, hname⟩
  · intro hmem hnil
    obtain ⟨rule, hrule, hname⟩ := List.mem_map.mp hmem
    obtain ⟨names, hnames⟩ := List.exists_mem_of_ne_nil _ (hreadable rule hrule).1
    have hmember := mem_alternativesOf_iff.mpr ⟨rule, hrule, hname, hnames⟩
    rw [hnil] at hmember
    cases hmember

/-- The start symbol is one of the left sides. -/
theorem name_start_mem (h : ofRules rules start config = .ok g) :
    g.name g.start ∈ rules.map Rule.name := by
  obtain ⟨start', h⟩ := exists_start_of_ofRules h
  rw [(describe?_ofRules h).1]
  exact ((exists_ofRules_iff rules start' config).mp ⟨g, h⟩).2.2

/-! ## The order of the left sides -/

/-- Different left sides are registered in order. -/
theorem names_declareLeft {declared : Catalog}
    (h : (rules.zipIdx 1).foldlM (Catalog.declareLeft config) Catalog.empty = .ok declared)
    (hnodup : (rules.map Rule.name).Nodup) :
    declared.entries.toList.map Entry.name = rules.map Rule.name := by
  have hall := foldlM_invariant
    (P := fun done c => (done.map fun rule => rule.1.name).Nodup →
      c.entries.toList.map Entry.name = done.map fun rule => rule.1.name) h
    (fun done rule _ c c' hc hstep hnodup => by
      rw [List.map_append, List.map_singleton, List.nodup_append] at hnodup
      obtain ⟨hdone, -, hnew⟩ := hnodup
      have hnames := hc hdone
      rw [List.map_append, List.map_singleton, ← hnames]
      have hnone : c.find? (Text.trim rule.1.left) = none := by
        refine Array.findIdx?_eq_none_iff.mpr fun e he => ?_
        have hmem : e.name ∈ done.map fun rule => rule.1.name := by
          rw [← hnames]
          exact List.mem_map_of_mem (Array.mem_toList_iff.mpr he)
        have hne : e.name ≠ rule.1.name := hnew _ hmem _ List.mem_cons_self
        simpa [Rule.name] using hne
      rw [Catalog.declareLeft, hnone] at hstep
      split at hstep
      · cases hstep
      · cases hstep
        simp [Catalog.push, Entry.name, Rule.name])
    (fun _ => rfl)
  have hfst := congrArg (List.map Rule.name) (List.zipIdx_map_fst 1 rules)
  rw [List.map_map] at hfst
  change ((rules.zipIdx 1).map fun rule => rule.1.name) = _ at hfst
  rw [hfst] at hall
  exact hall hnodup

/-- **Different left sides are the first symbols**, in the order of the rules. -/
theorem lefts_eq (h : ofRules rules start config = .ok g)
    (hnodup : (rules.map Rule.name).Nodup) :
    rules.length ≤ g.size ∧ (List.range rules.length).map g.name = rules.map Rule.name := by
  obtain ⟨start', h⟩ := exists_start_of_ofRules h
  obtain ⟨declared, filled, symbol, hdeclared, hfilled, -, rfl⟩ := ofRules_eq_ok_iff.mp h
  have hnames := names_declareLeft hdeclared hnodup
  have hsize : declared.size = rules.length := by
    have hlength := congrArg List.length hnames
    rwa [List.length_map, List.length_map, Array.length_toList] at hlength
  have hgrows : declared.Grows filled :=
    foldlM_induction (fun _ _ _ hstep hc => hc.trans (Catalog.addRule_grows hstep))
      hfilled (.refl _)
  have hle := hgrows.size_le
  rw [hsize] at hle
  constructor
  · change rules.length ≤ (filled.push (.terminal Mark.finish)).size
    rw [Catalog.size_push]
    omega
  · rw [← hnames]
    refine List.ext_getElem (by simp [← hsize, Catalog.size]) fun i hi hi' => ?_
    rw [List.length_map, List.length_range] at hi
    have hlt : i < declared.size := hsize ▸ hi
    have hkept : (filled.push (.terminal Mark.finish)).name i = declared.name i := by
      rw [Catalog.name_push_of_lt (Nat.lt_of_lt_of_le hi hle), hgrows.name_eq hlt]
    have hentry : declared.entries[i]? = some declared.entries[i] := Array.getElem?_eq_getElem hlt
    rw [List.getElem_map, List.getElem_range, List.getElem_map, Array.getElem_toList]
    refine hkept.trans ?_
    rw [Catalog.name, Catalog.name?, hentry]
    rfl

/-! ## Symbols and their names -/

/-- Different symbols have different names. -/
theorem nodup_map_name (hg : g.WellFormed) {symbols : List Nat} (hnodup : symbols.Nodup)
    (hlt : ∀ s ∈ symbols, s < g.size) : (symbols.map g.name).Nodup :=
  hnodup.map_on fun i hi j hj heq => hg.eq_of_name_eq (hlt i hi) (hlt j hj) heq

theorem nodup_map_name_nonterminals (hg : g.WellFormed) : (g.nonterminals.map g.name).Nodup :=
  nodup_map_name hg (List.nodup_range.filter _) fun _ hs =>
    Catalog.lt_size_of_isNonterminal (Catalog.mem_nonterminals.mp hs)

theorem nodup_map_name_terminals (hg : g.WellFormed) : (g.terminals.map g.name).Nodup :=
  nodup_map_name hg (List.nodup_range.filter _) fun _ hs =>
    Catalog.lt_size_of_isTerminal (Catalog.mem_terminals.mp hs)

/-- No nonterminal has the name of a terminal. -/
theorem disjoint_map_name (hg : g.WellFormed) :
    (g.nonterminals.map g.name).Disjoint (g.terminals.map g.name) := by
  intro name hleft hright
  obtain ⟨i, hi, rfl⟩ := List.mem_map.mp hleft
  obtain ⟨j, hj, heq⟩ := List.mem_map.mp hright
  have hi := Catalog.mem_nonterminals.mp hi
  have hj := Catalog.mem_terminals.mp hj
  obtain rfl := hg.eq_of_name_eq (Catalog.lt_size_of_isTerminal hj)
    (Catalog.lt_size_of_isNonterminal hi) heq
  rw [Catalog.isTerminal_eq_false hi] at hj
  cases hj

/-- **No symbol has the sign of the empty string as its name**, whatever the configuration is. -/
theorem name_ne_epsilon (h : ofRules rules start config = .ok g) (hlt : symbol < g.size) :
    g.name symbol ≠ Mark.epsilon := by
  intro heq
  have hfind := (wellFormed_of_ofRules h).find?_name hlt
  rw [heq] at hfind
  have hepsilon : config.isEpsilon Mark.epsilon = true := by simp [Config.isEpsilon]
  have hunreserved : ¬ (config.isEpsilon Mark.epsilon = false ∧ Mark.epsilon ≠ Mark.finish) := by
    rw [hepsilon]
    simp
  rcases (exists_find?_iff h).mp ⟨symbol, hfind⟩ with hname | hname | hname
  · exact hunreserved (not_reserved h (Or.inl hname))
  · exact hunreserved (not_reserved h (Or.inr hname))
  · exact absurd hname (by decide)

end Grammar

end TopDown
