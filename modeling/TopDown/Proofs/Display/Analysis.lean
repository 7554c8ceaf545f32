import Std.Data.TreeMap.Lemmas
import TopDown.Display.Analysis
import TopDown.Proofs.Parser
import TopDown.Proofs.Table.Conflicts

/-!
# The analysis by names

The analysis of a grammar knows symbols by their names only. Nothing is lost by that, since no two
symbols have the same name: sets, rows and cells are found by name as they were by number, each of
them once, and there are no others. In the lists of what a nonterminal can start with the sign of
the empty string cannot be taken for a terminal, because no symbol has this name.

The verdict, the list of conflicts and the cells with several productions are computed apart from
each other, and say the same.

## Main definitions

* `Analysis.Describes`: an analysis shows all of a parser, and shows it under names

## Main results

* `NameMap.keys_ofList`, `NameMap.getElem?_ofList_iff`: what is found in a map by name
* `Parser.describes_analysis`: the analysis of the parser of a list of rules
-/

namespace TopDown

/-! ## Maps by name -/

namespace NameMap

variable {α : Type} {entries : List (String × α)} {name : String} {a : α}

/-- A map has the names of its entries, each of them once. -/
theorem keys_ofList (h : (entries.map Prod.fst).Nodup) :
    (ofList entries).keys.Perm (entries.map Prod.fst) := by
  refine (List.perm_ext_iff_of_nodup Std.TreeMap.nodup_keys h).mpr fun name => ?_
  rw [Std.TreeMap.mem_keys, ofList, Std.TreeMap.mem_ofList, List.contains_iff_mem]

/-- **What is found under a name** is the entry with this name, if no two entries share a name. -/
theorem getElem?_ofList_iff (h : (entries.map Prod.fst).Nodup) :
    (ofList entries)[name]? = some a ↔ (name, a) ∈ entries := by
  have hmem {name : String} {a : α} (ha : (name, a) ∈ entries) :
      (ofList entries)[name]? = some a := by
    refine Std.TreeMap.getElem?_ofList_of_mem Std.ReflCmp.compare_self ?_ ha
    refine (List.pairwise_map.mp h).imp fun hne heq => hne ?_
    exact Std.LawfulEqCmp.eq_of_compare heq
  refine ⟨fun hfound => ?_, hmem⟩
  have hname : name ∈ (ofList entries).keys :=
    Std.TreeMap.mem_keys.mpr (Std.TreeMap.mem_iff_isSome_getElem?.mpr (by rw [hfound]; rfl))
  obtain ⟨⟨_, b⟩, hb, rfl⟩ := List.mem_map.mp ((keys_ofList h).mem_iff.mp hname)
  rw [hmem hb, Option.some.injEq] at hfound
  exact hfound ▸ hb

section Values

variable {ι : Type} {l : List ι} {key : ι → String} {f : ι → α}

theorem map_fst_map (l : List ι) (key : ι → String) (f : ι → α) :
    (l.map fun i => (key i, f i)).map Prod.fst = l.map key := by
  rw [List.map_map]
  rfl

/-- A map of values has their names. -/
theorem keys_ofList_map (h : (l.map key).Nodup) :
    (ofList (l.map fun i => (key i, f i))).keys.Perm (l.map key) := by
  have hfst := map_fst_map l key f
  exact hfst ▸ keys_ofList (hfst ▸ h)

/-- What is found in a map of values is the value of this name. -/
theorem getElem?_ofList_map_iff (h : (l.map key).Nodup) :
    (ofList (l.map fun i => (key i, f i)))[name]? = some a ↔
      ∃ i ∈ l, key i = name ∧ f i = a := by
  rw [getElem?_ofList_iff (by rwa [map_fst_map]), List.mem_map]
  simp only [Prod.mk.injEq]

end Values

end NameMap

namespace Grammar

variable {g : Grammar}

/-- Nonterminals are defined if they have alternatives. -/
theorem defined_eq_filter (g : Grammar) :
    g.defined = g.nonterminals.filter fun left => g.alternatives left ≠ [] :=
  List.filter_congr fun left _ => by cases g.alternatives left <;> simp

/-- The verdict and the list of conflicts are made apart from each other, and agree. -/
theorem isLL1_iff_conflicts_eq_nil (hg : g.WellFormed) :
    (g.table g.lookahead).isLL1 = true ↔
      g.conflicts g.lookahead (g.table g.lookahead) = [] :=
  (isLL1_iff_selectorsDisjoint hg).trans (conflicts_eq_nil_iff hg).symm

end Grammar

/-! ## What an analysis says -/

/-- An analysis says by names what a parser knows of its symbols: all of it, and nothing else. -/
structure Analysis.Describes (a : Analysis) (p : Parser) : Prop where
  /-- The lists have the names of all symbols, and no name twice. -/
  nonterminals_eq : a.nonterminals = p.grammar.nonterminals.map p.grammar.name
  terminals_eq : a.terminals = p.grammar.terminals.map p.grammar.name
  nodup_nonterminals : a.nonterminals.Nodup
  nodup_terminals : a.terminals.Nodup
  disjoint : a.nonterminals.Disjoint a.terminals
  /-- The sign of the empty string is not a name. -/
  epsilon_notMem_terminals : Mark.epsilon ∉ a.terminals
  epsilon_notMem_nonterminals : Mark.epsilon ∉ a.nonterminals
  /-- Sets and rows are under the names of nonterminals, cells under those of terminals. -/
  keys_firstSets : a.firstSets.keys.Perm a.nonterminals
  keys_followSets : a.followSets.keys.Perm a.nonterminals
  keys_table : a.table.keys.Perm a.nonterminals
  keys_row : ∀ {name : String} {row : NameMap CellText}, a.table[name]? = some row →
    row.keys.Perm a.terminals
  /-- The FIRST set is found with the sign of the empty string at its end if the nonterminal derives
  the empty string, and without it otherwise. -/
  firstSets_eq : ∀ {left : Nat}, p.grammar.isNonterminal left = true →
    ∃ names, names = p.names (First.ofSymbol p.lookahead.first left).terminals ∧
      Mark.epsilon ∉ names ∧
      a.firstSets[p.grammar.name left]? = some
        (if (First.ofSymbol p.lookahead.first left).nullable then names ++ [Mark.epsilon]
        else names)
  followSets_eq : ∀ {left : Nat}, p.grammar.isNonterminal left = true →
    a.followSets[p.grammar.name left]? = some (p.names (p.lookahead.followOf left))
  /-- What is found in the table is the cell of the parser. It lists all alternatives of the cell,
  in the order of declaration, and says how to recover if there is none. -/
  table_eq : ∀ {left t : Nat}, p.grammar.isNonterminal left = true →
    p.grammar.isTerminal t = true → ∃ row cell, a.table[p.grammar.name left]? = some row ∧
      row[p.grammar.name t]? = some (p.cellText left cell) ∧
      p.table.cell? left t = some cell ∧ cell.numbers.Pairwise (· < ·) ∧
      (cell.numbers ≠ [] → p.cellText left cell =
        .productions (cell.numbers.map (p.grammar.productionText left))) ∧
      (cell = .sync → p.cellText left cell = .sync) ∧ (cell = .skip → p.cellText left cell = .skip)
  /-- The groups are those of the nonterminals with alternatives, in order. -/
  grammar_eq : a.grammar = (p.grammar.nonterminals.filter fun left =>
      p.grammar.alternatives left ≠ []).map fun left => ⟨p.grammar.name left,
    (p.grammar.alternatives left).map fun alternative =>
      " ".intercalate (p.grammar.spell alternative)⟩
  /-- The verdict, the list of conflicts and the cells agree. -/
  isLL1_iff_conflicts : a.isLL1 = true ↔ a.conflicts = []
  isLL1_iff_cells : a.isLL1 = true ↔ ∀ (left t : String) (row : NameMap CellText)
    (texts : List String), a.table[left]? = some row → row[t]? = some (.productions texts) →
      texts.length ≤ 1

namespace Parser

variable {rules : List Rule} {start : Option String} {config : Config} {g : Grammar} {p : Parser}
  {name : String}

/-- The row of a nonterminal, by name. -/
theorem rowByName_eq (left : Nat) :
    (generate g).rowByName ⟨left, g.terminals.map (g.cellOf g.lookahead left)⟩ =
      NameMap.ofList (g.terminals.map fun t =>
        (g.name t, (generate g).cellText left (g.cellOf g.lookahead left t))) := by
  have hzip : g.terminals.zip (g.terminals.map (g.cellOf g.lookahead left)) =
      g.terminals.map fun t => (t, g.cellOf g.lookahead left t) := by
    rw [← List.zip_map', List.map_id']
  show NameMap.ofList ((g.terminals.zip _).map _) = _
  rw [hzip, List.map_map]
  rfl

/-- **A row that is found** is that of a nonterminal with this name. -/
theorem getElem?_table_iff (hg : g.WellFormed) {row : NameMap CellText} :
    (generate g).analysis.table[name]? = some row ↔
      ∃ left ∈ g.nonterminals, g.name left = name ∧
        (generate g).rowByName ⟨left, g.terminals.map (g.cellOf g.lookahead left)⟩ = row := by
  rw [← NameMap.getElem?_ofList_map_iff (Grammar.nodup_map_name_nonterminals hg)]
  show (NameMap.ofList ((g.nonterminals.map _).map _))[name]? = _ ↔ _
  rw [List.map_map]
  rfl

/-- **A cell that is found** in a row is that of a terminal with this name. -/
theorem getElem?_rowByName_iff (hg : g.WellFormed) {left : Nat} {text : CellText} :
    ((generate g).rowByName ⟨left, g.terminals.map (g.cellOf g.lookahead left)⟩)[name]? =
        some text ↔
      ∃ t ∈ g.terminals, g.name t = name ∧
        (generate g).cellText left (g.cellOf g.lookahead left t) = text := by
  rw [rowByName_eq, NameMap.getElem?_ofList_map_iff (Grammar.nodup_map_name_terminals hg)]

/-- A cell is written as productions if it lists alternatives. -/
theorem cellText_eq_productions_iff {left : Nat} {cell : Cell} {texts : List String} :
    p.cellText left cell = .productions texts ↔
      cell.numbers ≠ [] ∧ cell.numbers.map (p.grammar.productionText left) = texts := by
  cases cell <;> simp [cellText, Cell.numbers]

/-- The verdict can be read off the cells that are found by name. -/
theorem isLL1_analysis_iff (hg : g.WellFormed) : (generate g).analysis.isLL1 = true ↔
    ∀ (left t : String) (row : NameMap CellText) (texts : List String),
      (generate g).analysis.table[left]? = some row → row[t]? = some (.productions texts) →
        texts.length ≤ 1 := by
  have hcells : (generate g).analysis.isLL1 = true ↔ ∀ left, g.isNonterminal left = true →
      ∀ t, g.isTerminal t = true → (g.selected g.lookahead left t).length ≤ 1 :=
    Grammar.isLL1_table_iff
  rw [hcells]
  constructor
  · intro hall left t row texts hrow hcell
    obtain ⟨s, hs, -, rfl⟩ := (getElem?_table_iff hg).mp hrow
    obtain ⟨u, hu, -, htext⟩ := (getElem?_rowByName_iff hg).mp hcell
    obtain ⟨-, rfl⟩ := cellText_eq_productions_iff.mp htext
    rw [List.length_map, Grammar.numbers_cellOf]
    exact hall s (Catalog.mem_nonterminals.mp hs) u (Catalog.mem_terminals.mp hu)
  · intro hall left hleft t ht
    by_contra hlength
    have hnumbers : (g.cellOf g.lookahead left t).numbers ≠ [] := by
      rw [Grammar.numbers_cellOf]
      intro hnil
      rw [hnil] at hlength
      exact hlength (Nat.zero_le 1)
    have hshort := hall (g.name left) (g.name t) _ _
      ((getElem?_table_iff hg).mpr ⟨left, Catalog.mem_nonterminals.mpr hleft, rfl, rfl⟩)
      ((getElem?_rowByName_iff hg).mpr ⟨t, Catalog.mem_terminals.mpr ht, rfl,
        cellText_eq_productions_iff.mpr ⟨hnumbers, rfl⟩⟩)
    rw [List.length_map, Grammar.numbers_cellOf] at hshort
    exact hlength hshort

/-- The table has a row for each nonterminal. -/
theorem keys_table_analysis (hg : g.WellFormed) :
    (generate g).analysis.table.keys.Perm (g.nonterminals.map g.name) := by
  show (NameMap.ofList ((g.nonterminals.map _).map _)).keys.Perm _
  rw [List.map_map]
  exact NameMap.keys_ofList_map (Grammar.nodup_map_name_nonterminals hg)

/-- A row has a cell for each terminal. -/
theorem keys_row_analysis (hg : g.WellFormed) {row : NameMap CellText}
    (hrow : (generate g).analysis.table[name]? = some row) :
    row.keys.Perm (g.terminals.map g.name) := by
  obtain ⟨left, -, -, rfl⟩ := (getElem?_table_iff hg).mp hrow
  rw [rowByName_eq]
  exact NameMap.keys_ofList_map (Grammar.nodup_map_name_terminals hg)

/-- What a nonterminal can start with is found by its name. -/
theorem getElem?_firstSets (hg : g.WellFormed) {left : Nat} (hleft : g.isNonterminal left = true) :
    let first := First.ofSymbol (generate g).lookahead.first left
    (generate g).analysis.firstSets[g.name left]? = some
      (if first.nullable then (generate g).names first.terminals ++ [Mark.epsilon]
      else (generate g).names first.terminals) := by
  refine (NameMap.getElem?_ofList_map_iff (Grammar.nodup_map_name_nonterminals hg)).mpr
    ⟨left, Catalog.mem_nonterminals.mpr hleft, rfl, ?_⟩
  show (generate g).firstNames left = _
  rw [firstNames]
  split <;> simp

/-- The cell of a nonterminal and a terminal is found by their names. -/
theorem exists_row_analysis (hg : g.WellFormed) {left t : Nat}
    (hleft : g.isNonterminal left = true) (ht : g.isTerminal t = true) :
    ∃ row, (generate g).analysis.table[g.name left]? = some row ∧
      row[g.name t]? = some ((generate g).cellText left (g.cellOf g.lookahead left t)) :=
  ⟨_, (getElem?_table_iff hg).mpr ⟨left, Catalog.mem_nonterminals.mpr hleft, rfl, rfl⟩,
    (getElem?_rowByName_iff hg).mpr ⟨t, Catalog.mem_terminals.mpr ht, rfl, rfl⟩⟩

/-- **The analysis by names loses nothing**: it says what the parser knows, and the verdict, the
conflicts and the cells in it agree. -/
theorem describes_analysis (hp : build rules start config = .ok p) : p.analysis.Describes p := by
  obtain ⟨g, h, rfl⟩ := exists_ofRules_of_build hp
  have hg := Grammar.wellFormed_of_ofRules h
  have hnonterminals := Grammar.nodup_map_name_nonterminals hg
  have hepsilon : ∀ symbols : List Nat, (∀ s ∈ symbols, s < g.size) →
      Mark.epsilon ∉ symbols.map g.name := by
    intro symbols hlt hmem
    obtain ⟨s, hs, heq⟩ := List.mem_map.mp hmem
    exact Grammar.name_ne_epsilon h (hlt s hs) heq
  refine {
    nonterminals_eq := rfl
    terminals_eq := rfl
    nodup_nonterminals := hnonterminals
    nodup_terminals := Grammar.nodup_map_name_terminals hg
    disjoint := Grammar.disjoint_map_name hg
    epsilon_notMem_terminals := hepsilon g.terminals fun s hs =>
      Catalog.lt_size_of_isTerminal (Catalog.mem_terminals.mp hs)
    epsilon_notMem_nonterminals := hepsilon g.nonterminals fun s hs =>
      Catalog.lt_size_of_isNonterminal (Catalog.mem_nonterminals.mp hs)
    keys_firstSets := NameMap.keys_ofList_map hnonterminals
    keys_followSets := NameMap.keys_ofList_map hnonterminals
    keys_table := keys_table_analysis hg
    keys_row := keys_row_analysis hg
    firstSets_eq := fun hleft => ⟨_, rfl, hepsilon _ fun t ht => ?_, getElem?_firstSets hg hleft⟩
    followSets_eq := fun {left} hleft => (NameMap.getElem?_ofList_map_iff hnonterminals).mpr
      ⟨left, Catalog.mem_nonterminals.mpr hleft, rfl, rfl⟩
    table_eq := fun hleft ht => ?_
    grammar_eq := congrArg (List.map _) g.defined_eq_filter
    isLL1_iff_conflicts := (Grammar.isLL1_iff_conflicts_eq_nil hg).trans List.map_eq_nil_iff.symm
    isLL1_iff_cells := isLL1_analysis_iff hg }
  · exact Catalog.lt_size_of_isTerminal (isTerminal_of_mem_first hg hleft ht).1
  · obtain ⟨row, hrow, hcell⟩ := exists_row_analysis hg hleft ht
    refine ⟨row, _, hrow, hcell, Grammar.cell?_table hleft ht, ?_,
      fun hne => cellText_eq_productions_iff.mpr ⟨hne, rfl⟩, fun hsync => ?_, fun hskip => ?_⟩
    · rw [Grammar.numbers_cellOf]
      exact g.pairwise_selected g.lookahead _ _
    · rw [hsync]
      rfl
    · rw [hskip]
      rfl

/-- Rules of a nonterminal in conflict, and of one without alternatives. -/
def contestedRules : List Rule :=
  [⟨"S", [["A", "b"], ["U"]], []⟩, ⟨"A", [["b"], ["_"]], []⟩]

/-- The grammar of these rules. -/
def contestedGrammar : Grammar :=
  ⟨⟨#[.nonterminal "S" [[1, 2], [3]], .nonterminal "A" [[2], []], .terminal "b",
    .nonterminal "U" [], .terminal "$"]⟩, 0, 4⟩

theorem describes_analysis_contested :
    build contestedRules none {} = .ok (generate contestedGrammar) ∧
      (generate contestedGrammar).analysis.table.keys.Perm ["S", "A", "U"] ∧
      (generate contestedGrammar).analysis.firstSets["A"]? = some ["b", Mark.epsilon] ∧
      (∃ row : NameMap CellText, (generate contestedGrammar).analysis.table["A"]? = some row ∧
        row["b"]? = some (.productions ["A -> b", "A -> ε"]) ∧ row.keys.Perm ["b", "$"]) ∧
      (generate contestedGrammar).analysis.conflicts ≠ [] := by
  have hp : build contestedRules none {} = .ok (generate contestedGrammar) :=
    build_eq_ok (by decide +kernel)
  have hall := describes_analysis hp
  have hterminals : (generate contestedGrammar).analysis.terminals = ["b", "$"] := by
    decide +kernel
  have hnonterminals : (generate contestedGrammar).analysis.nonterminals = ["S", "A", "U"] := by
    decide +kernel
  have hleft : (generate contestedGrammar).grammar.isNonterminal 1 = true := by decide
  have hterminal : (generate contestedGrammar).grammar.isTerminal 2 = true := by decide
  refine ⟨hp, hnonterminals ▸ hall.keys_table, ?_, ?_, ?_⟩
  · obtain ⟨names, hnames, -, hfirst⟩ := hall.firstSets_eq hleft
    obtain rfl : names = ["b"] := hnames.trans (by decide +kernel)
    exact hfirst
  · obtain ⟨row, cell, hrow, htext, hcell, -, hproductions, -⟩ :=
      hall.table_eq hleft hterminal
    have hpredict : (generate contestedGrammar).table.cell? 1 2 = some (.predict 0 [1]) := by
      decide +kernel
    obtain rfl : cell = .predict 0 [1] := Option.some.inj (hcell.symm.trans hpredict)
    rw [hproductions (by decide)] at htext
    exact ⟨row, hrow, htext.trans (by decide +kernel), hterminals ▸ hall.keys_row hrow⟩
  · intro hnil
    have hverdict := hall.isLL1_iff_conflicts.mpr hnil
    revert hverdict
    decide +kernel

end Parser

end TopDown
