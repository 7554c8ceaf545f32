import TopDown.Proofs.Display.Latex
import TopDown.Proofs.Display.Listing
import TopDown.Proofs.Table.Exact

/-!
# Productions in formulas

A production is set in a formula in two ways: in the listing from the symbols of an alternative, and
on the sheet of the parse table from a text that has to be taken apart again, at its first arrow and
then at blanks. Where the grammar comes from a text both ways agree. Left sides hold no blank, so
that nothing in them can be taken for an arrow with its spaces, and the names of an alternative are
words, so that they are found again; so is the sign of the empty string.

## Main definitions

* `Parser.latexRight`: an alternative in a formula, from its symbols
* `Parser.latexListingRow`, `Parser.latexTableRow`: rows of the two displays, from symbols

## Main results

* `Grammar.sides?_productionText`: a production that is one text is taken apart
* `Parser.formulas_agree`: the sheet and the listing set productions alike
-/

namespace TopDown

/-- A mark is found where its first character does not stand before it. -/
theorem Text.cutAt_append {c : Char} {mark before : List Char} (h : c ∉ before)
    (after : List Char) :
    Text.cutAt (c :: mark) (before ++ (c :: mark ++ after)) = some (before, after) := by
  induction before with
  | nil =>
    have hprefix : (c :: mark).isPrefixOf (c :: (mark ++ after)) = true :=
      List.isPrefixOf_iff_prefix.mpr (List.prefix_append (c :: mark) after)
    rw [List.nil_append, List.cons_append, Text.cutAt, if_pos hprefix]
    simp
  | cons b before ih =>
    obtain ⟨hne, hbefore⟩ := List.ne_and_not_mem_of_not_mem_cons h
    have hnot : ¬ (c :: mark).isPrefixOf (b :: (before ++ (c :: mark ++ after))) = true := by
      simp [List.isPrefixOf, hne]
    rw [List.cons_append, Text.cutAt, if_neg hnot, ih hbefore]
    rfl

namespace Grammar

variable {rules : List Rule} {start : Option String} {config : Config} {g : Grammar}
  {left number : Nat} {α : List Nat}

/-- The left sides of plain rules are words. -/
theorem isWord_name (h : ofRules rules start config = .ok g)
    (hplain : ∀ rule ∈ rules, rule.IsPlain) (hα : α ∈ g.alternatives left) :
    Text.IsWord (g.name left) := by
  have hlt := Catalog.lt_size_of_isNonterminal (Catalog.isNonterminal_of_mem hα)
  have hleft := (alternatives_ne_nil_iff h hlt).mp (List.ne_nil_of_mem hα)
  obtain ⟨rule, hrule, hname⟩ := List.mem_map.mp hleft
  rw [← hname, name_eq_left hplain rule hrule]
  exact (hplain rule hrule).isWord_left

/-- What is written for an alternative of plain rules is made of words. -/
theorem isWord_spell (h : ofRules rules start config = .ok g)
    (hplain : ∀ rule ∈ rules, rule.IsPlain) (hα : α ∈ g.alternatives left) :
    ∀ name ∈ g.spell α, Text.IsWord name := by
  rw [Catalog.spell_eq]
  have hwords := isPlainWord_listedNames fun name hname =>
    (isPlainWord_of_mem h hplain hα name hname).1
  exact fun name hname => (hwords.2 name hname).isWord

/-- **A production that is one text is taken apart** into its left side and the names of its right
side. -/
theorem sides?_productionText (h : ofRules rules start config = .ok g)
    (hplain : ∀ rule ∈ rules, rule.IsPlain) (hα : (g.alternatives left)[number]? = some α) :
    Display.sides? (g.productionText left number) =
        some (g.name left, " ".intercalate (g.spell α)) ∧
      Text.words (" ".intercalate (g.spell α)).toList = g.spell α := by
  have hmem := List.mem_of_getElem? hα
  have hspace : ' ' ∉ (g.name left).toList := fun hmem' =>
    Bool.false_ne_true (((isWord_name h hplain hmem).isBlank_eq_false ' ' hmem').symm.trans
      Text.isBlank_space)
  have htext : (g.productionText left number).toList = (g.name left).toList ++
      (Display.spacedArrow ++ (" ".intercalate (g.spell α)).toList) := by
    simp [Catalog.productionText, Display.spacedArrow, alternative_eq hα]
  refine ⟨?_, Text.words_intercalate (isWord_spell h hplain hmem)⟩
  rw [Display.sides?, htext, Display.spacedArrow, Text.cutAt_append hspace, Option.map_some]
  simp only [String.ofList_toList]

end Grammar

namespace Parser

/-! ## Displays from symbols -/

/-- An alternative in a formula, from its symbols. -/
def latexRight (p : Parser) (left number : Nat) : String :=
  Display.latexSymbols p.listing.terminals (p.grammar.spell (p.grammar.alternative left number))

/-- The row of a left side in the listing, from symbols. -/
def latexListingRow (p : Parser) (left : Nat) : String :=
  Text.Tex.row [Text.Tex.escape (p.grammar.name left), "\\rightarrow",
    " \\mid ".intercalate
      ((List.range (p.grammar.alternatives left).length).map (p.latexRight left))]

/-- A cell of the parse table, from symbols: the productions with their left side, in red if there
are two of them. -/
def latexCell (p : Parser) (left : Nat) : Cell → String
  | .sync => Text.Tex.command "textit" "sync"
  | .skip => ""
  | .predict number rivals =>
    let body := "; ".intercalate <| (number :: rivals).map fun n =>
      Text.Tex.escape (p.grammar.name left) ++ " \\rightarrow " ++ p.latexRight left n
    if rivals.isEmpty then body else Text.Tex.braced (Text.Tex.command "color" "red" ++ body)

/-- A row of the parse table, from symbols. -/
def latexTableRow (p : Parser) (row : Row) : String :=
  Text.Tex.row (Text.Tex.escape (p.grammar.name row.left) :: row.cells.map (p.latexCell row.left))

variable {rules : List Rule} {start : Option String} {config : Config} {g : Grammar}
  {left number : Nat} {α : List Nat} {text : String} {p : Parser}

/-- The listing is made from symbols. -/
theorem latex_listing (p : Parser) : p.listing.latex =
    Text.Tex.rows (("\\[" ++ Text.Tex.command "begin" "array" ++ Text.Tex.braced "cll") ::
      p.grammar.defined.map p.latexListingRow) ++
    "\n" ++ Text.Tex.command "end" "array" ++ "\\]" := by
  have hrow : ∀ left, ListedGroup.latexRow p.listing.terminals
      ⟨p.grammar.name left, (p.grammar.alternatives left).map p.grammar.spell⟩ =
        p.latexListingRow left := by
    intro left
    have hrights : (List.range (p.grammar.alternatives left).length).map (p.latexRight left) =
        (p.grammar.alternatives left).map
          (Display.latexSymbols p.listing.terminals ∘ p.grammar.spell) := by
      refine List.ext_getElem (by simp) fun i _ hi => ?_
      rw [List.length_map] at hi
      simp [latexRight, Catalog.alternative, hi]
    rw [latexListingRow, hrights, ListedGroup.latexRow, List.map_map]
  rw [Listing.latex, listing, List.map_map]
  congr 6
  funext left
  exact hrow left

/-- A production is set on the sheet as it is from symbols. -/
theorem latexFormula_productionText (h : Grammar.ofRules rules start config = .ok g)
    (hplain : ∀ rule ∈ rules, rule.IsPlain) (hα : (g.alternatives left)[number]? = some α) :
    Display.latexFormula (generate g).tableSheet.terminals (g.productionText left number) =
      Text.Tex.escape (g.name left) ++ " \\rightarrow " ++ (generate g).latexRight left number := by
  obtain ⟨hsides, hwords⟩ := Grammar.sides?_productionText h hplain hα
  rw [Display.latexFormula, hsides, Option.getD_some]
  show _ ++ Display.latexSymbols _ (Text.words (" ".intercalate (g.spell α)).toList) = _ ++
    Display.latexSymbols _ (g.spell (g.alternative left number))
  rw [hwords, Grammar.alternative_eq hα]
  rfl

/-- A cell is set on the sheet as it is from symbols. -/
theorem latex_cellText (h : Grammar.ofRules rules start config = .ok g)
    (hplain : ∀ rule ∈ rules, rule.IsPlain) {cell : Cell}
    (hcell : ∀ n ∈ cell.numbers, ∃ α, (g.alternatives left)[n]? = some α) :
    ((generate g).cellText left cell).latex (generate g).tableSheet.terminals =
      (generate g).latexCell left cell := by
  cases cell with
  | sync => rfl
  | skip => rfl
  | predict number rivals =>
    have hbody : ((number :: rivals).map ((generate g).grammar.productionText left)).map
        (Display.latexFormula (generate g).tableSheet.terminals) = (number :: rivals).map fun n =>
          Text.Tex.escape (g.name left) ++ " \\rightarrow " ++ (generate g).latexRight left n := by
      rw [List.map_map]
      refine List.map_congr_left fun n hn => ?_
      obtain ⟨α, hα⟩ := hcell n hn
      exact latexFormula_productionText h hplain hα
    rw [cellText, CellText.latex, hbody, latexCell]
    cases rivals <;> rfl

/-- The cells of the table list alternatives of their left side. -/
theorem exists_alternative_of_mem {row : Row} (hrow : row ∈ (generate g).table.rows) {cell : Cell}
    (hcell : cell ∈ row.cells) (hnumber : number ∈ cell.numbers) :
    ∃ α, (g.alternatives row.left)[number]? = some α := by
  obtain ⟨left, -, rfl⟩ := List.mem_map.mp hrow
  obtain ⟨t, -, rfl⟩ := List.mem_map.mp hcell
  rw [Grammar.numbers_cellOf, Grammar.mem_selected_iff] at hnumber
  obtain ⟨α, hα, -⟩ := hnumber
  exact ⟨α, hα⟩

/-- **The sheet of the parse table and the listing set productions alike**, if the rules come from a
text. A production that is one text is taken apart into the name of its left side and the names of
its alternative. So the sheet can be made from symbols: a cell holds its productions with a
semicolon between any two of them, in red if there are two, and a production is the escaped left
side, an arrow, and what the listing shows for the alternative. The listing has a row for the left
side of each of these productions, and shows the alternative in it. -/
theorem formulas_agree (hread : RuleText.readRules config text = .ok rules)
    (hp : build rules start config = .ok p) :
    (∀ left number α, (p.grammar.alternatives left)[number]? = some α →
      ∃ right, Display.sides? (p.grammar.productionText left number) =
          some (p.grammar.name left, right) ∧
        Text.words right.toList = p.grammar.spell α) ∧
    p.tableSheet.latex = p.tableSheet.latexHeading ++ Text.Tex.rowEnd ++ "\\hline\n" ++
      Text.Tex.rows (p.table.rows.map p.latexTableRow) ++ "\n" ++
      Text.Tex.command "end" "array" ++ "\\]" ∧
    p.listing.latex =
      Text.Tex.rows (("\\[" ++ Text.Tex.command "begin" "array" ++ Text.Tex.braced "cll") ::
        p.grammar.defined.map p.latexListingRow) ++
      "\n" ++ Text.Tex.command "end" "array" ++ "\\]" ∧
    ∀ row ∈ p.table.rows, ∀ cell ∈ row.cells, ∀ number ∈ cell.numbers,
      row.left ∈ p.grammar.defined ∧ number < (p.grammar.alternatives row.left).length := by
  have hplain := RuleText.isPlain_of_readRules hread
  obtain ⟨g, h, rfl⟩ := exists_ofRules_of_build hp
  refine ⟨fun left number α hα => ⟨_, Grammar.sides?_productionText h hplain hα⟩, ?_,
    latex_listing _, ?_⟩
  · have hrows : (generate g).tableSheet.rows.map
        (SheetRow.latexRow (generate g).tableSheet.terminals) =
          (generate g).table.rows.map (generate g).latexTableRow := by
      show ((generate g).table.rows.map _).map _ = _
      rw [List.map_map]
      refine List.map_congr_left fun row hrow => ?_
      have hcells : (row.cells.map ((generate g).cellText row.left)).map
          (CellText.latex (generate g).tableSheet.terminals) =
            row.cells.map ((generate g).latexCell row.left) := by
        rw [List.map_map]
        exact List.map_congr_left fun cell hcell =>
          latex_cellText h hplain fun n hn => exists_alternative_of_mem hrow hcell hn
      exact congrArg (fun cells => Text.Tex.row (Text.Tex.escape (g.name row.left) :: cells)) hcells
    rw [← hrows]
    rfl
  · intro row hrow cell hcell number hnumber
    obtain ⟨α, hα⟩ := exists_alternative_of_mem hrow hcell hnumber
    obtain ⟨hlt, -⟩ := List.getElem?_eq_some_iff.mp hα
    have hleft := Catalog.isNonterminal_of_mem (List.mem_of_getElem? hα)
    have hne : (generate g).grammar.alternatives row.left ≠ [] :=
      List.ne_nil_of_mem (List.mem_of_getElem? hα)
    exact ⟨List.mem_filter.mpr ⟨Catalog.mem_nonterminals.mpr hleft, by simpa using hne⟩, hlt⟩

/-- A text with dashes and angles in its names, and two alternatives in conflict. -/
def dashedText : String := "S> -> >a | >a -- | _"

/-- The rules of this text. -/
def dashedRules : List Rule :=
  [⟨"S>", [[">a"], [">a", "--"], ["_"]], [1, 1, 1]⟩]

/-- The grammar of these rules. -/
def dashedGrammar : Grammar :=
  ⟨⟨#[.nonterminal "S>" [[1], [1, 2], []], .terminal ">a", .terminal "--", .terminal "$"]⟩, 0, 3⟩

theorem formulas_agree_dashed :
    RuleText.readRules {} dashedText = .ok dashedRules ∧
      build dashedRules none {} = .ok (generate dashedGrammar) ∧
      (∃ right, Display.sides? ((generate dashedGrammar).grammar.productionText 0 1) =
          some ("S>", right) ∧ Text.words right.toList = [">a", "--"]) ∧
      (generate dashedGrammar).tableSheet.latex =
        (generate dashedGrammar).tableSheet.latexHeading ++ Text.Tex.rowEnd ++ "\\hline\n" ++
        Text.Tex.row ["S\\textgreater\x7b\x7d",
          "\x7b\\color\x7bred\x7dS\\textgreater\x7b\x7d \\rightarrow " ++
            "\\text\x7b\\textgreater\x7b\x7da\x7d; S\\textgreater\x7b\x7d \\rightarrow " ++
            "\\text\x7b\\textgreater\x7b\x7da\x7d\\ \\text\x7b-\x7b\x7d-\x7d\x7d",
          "", "S\\textgreater\x7b\x7d \\rightarrow \\epsilon"] ++ "\n" ++
        Text.Tex.command "end" "array" ++ "\\]" := by
  have hread : RuleText.readRules {} dashedText = .ok dashedRules := by decide +kernel
  have hp : build dashedRules none {} = .ok (generate dashedGrammar) :=
    build_eq_ok (by decide +kernel)
  obtain ⟨hsides, hsheet, -⟩ := formulas_agree hread hp
  refine ⟨hread, hp, hsides 0 1 [1, 2] rfl, hsheet.trans ?_⟩
  decide +kernel

end Parser

end TopDown
