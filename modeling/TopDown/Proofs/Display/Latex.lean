import TopDown.Display.Analysis
import TopDown.Proofs.Grammar.Names
import TopDown.Proofs.Run.Outcome
import TopDown.Proofs.Text.TexTable

/-!
# Displays in LaTeX

The names of a grammar may have any characters, and what is shown of a grammar or of a run is set in
tables. Whatever the names are, LaTeX finds the rows in these tables that were meant, with the cells
that were meant, and nothing in a cell that is not allowed there (`Parser.latex_tables`). This holds
because everything that is put in a cell is made of escaped names and of pieces that fit in cells.

## Main results

* `Listing.isTable_latex`, `SetSummary.isTable_latex`, `TableSheet.isTable_latex`,
  `Analysis.isTable_conflictsLatex`, `Run.isTable_latex`: what is shown is a table
* `Parser.latex_tables`: the tables of a parser and of its runs
-/

namespace TopDown

open Text.Tex (FitsCell IsRowText IsTable fitsCell_escape fitsCell_typeset)

/-! ## Symbols and productions -/

namespace Display

theorem fitsCell_latexSymbol (terminals : List String) (name : String) :
    FitsCell (latexSymbol terminals name) := by
  rw [latexSymbol]
  split_ifs
  · decide
  · exact .command (by decide) (fitsCell_escape name)
  · exact fitsCell_escape name

theorem fitsCell_latexSymbols (terminals names : List String) :
    FitsCell (latexSymbols terminals names) :=
  .intercalate (by decide)
    (List.forall_mem_map.mpr fun name _ => fitsCell_latexSymbol terminals name)

theorem fitsCell_latexProduction (production : String) :
    FitsCell (latexProduction production) := by
  rw [latexProduction]
  split
  · next left right _ =>
    have harrow : FitsCell " $\\rightarrow$ " := by decide
    exact ((fitsCell_typeset left).append harrow).append (fitsCell_typeset right)
  · exact fitsCell_typeset production

theorem fitsCell_latexFormula (terminals : List String) (production : String) :
    FitsCell (latexFormula terminals production) := by
  have harrow : FitsCell " \\rightarrow " := by decide
  exact ((fitsCell_escape _).append harrow).append (fitsCell_latexSymbols terminals _)

end Display

theorem CellText.fitsCell_latex (terminals : List String) (cell : CellText) :
    FitsCell (cell.latex terminals) := by
  cases cell with
  | empty => exact .empty
  | skip => exact .empty
  | sync =>
    rw [CellText.latex]
    decide
  | productions texts =>
    have hbody : FitsCell ("; ".intercalate (texts.map (Display.latexFormula terminals))) :=
      .intercalate (by decide)
        (List.forall_mem_map.mpr fun text _ => Display.fitsCell_latexFormula terminals text)
    have hcolor : FitsCell (Text.Tex.command "color" "red") := by decide
    rw [CellText.latex]
    split_ifs
    · exact (hcolor.append hbody).braced
    · exact hbody

theorem SetLine.fitsCell_latexNames (names : List String) :
    FitsCell (SetLine.latexNames names) := by
  refine .intercalate (by decide) (List.forall_mem_map.mpr fun name _ => ?_)
  split_ifs
  · decide
  · exact fitsCell_escape name

theorem SetLine.fitsCell_truth (b : Bool) : FitsCell (SetLine.truth b) := by
  cases b <;> decide

/-! ## Tables -/

/-- **The listing of a grammar is a table** with a row for each group. -/
theorem Listing.isTable_latex (listing : Listing) (h : listing.groups ≠ []) :
    IsTable 3 (listing.groups.map (ListedGroup.latexRow listing.terminals)) [] listing.latex := by
  have hrows : ∀ group ∈ listing.groups, IsRowText 3 (group.latexRow listing.terminals) := by
    intro group _
    have hrights : FitsCell (" \\mid ".intercalate
        (group.rights.map (Display.latexSymbols listing.terminals))) :=
      .intercalate (by decide)
        (List.forall_mem_map.mpr fun names _ => Display.fitsCell_latexSymbols _ names)
    refine ⟨_, rfl, ?_, rfl⟩
    simp only [List.forall_mem_cons]
    exact ⟨fitsCell_escape _, by decide, hrights, by simp⟩
  have hheading : IsRowText 1 ("\\[" ++ Text.Tex.command "begin" "array" ++
      Text.Tex.braced "cll") :=
    Text.Tex.isRowText_singleton (by decide)
  have hlatex : listing.latex = ("\\[" ++ Text.Tex.command "begin" "array" ++
      Text.Tex.braced "cll") ++ (Text.Tex.rowEnd ++ ("\n" ++
        (Text.Tex.rows (listing.groups.map (ListedGroup.latexRow listing.terminals)) ++
          ("\n" ++ Text.Tex.command "end" "array" ++ "\\]")))) := by
    rw [Listing.latex, Text.Tex.rows, String.intercalate_cons_of_ne_nil (by simpa using h)]
    simp only [Text.Tex.rows, String.append_assoc]
  rw [hlatex]
  exact Text.Tex.isTable_array (List.forall_mem_map.mpr hrows) (by decide) (by simpa using h)
    hheading (by decide) (by decide) (by decide)

/-- **The summary of the sets is a table** with a row for each nonterminal. -/
theorem SetSummary.isTable_latex (summary : SetSummary) (h : summary.lines ≠ []) :
    IsTable 4 (summary.lines.map SetLine.latexRow) ["\n" ++ Text.Tex.command "end" "tabular"]
      summary.latex := by
  have hrows : ∀ line ∈ summary.lines, IsRowText 4 line.latexRow := by
    intro line _
    refine ⟨_, rfl, ?_, rfl⟩
    simp only [List.forall_mem_cons]
    exact ⟨fitsCell_escape _, SetLine.fitsCell_truth _, SetLine.fitsCell_latexNames _,
      SetLine.fitsCell_latexNames _, by simp⟩
  have hheadings : IsRowText 4 (Text.Tex.row SetSummary.headings) :=
    ⟨_, rfl, by decide, rfl⟩
  exact Text.Tex.isTable_tabular (List.forall_mem_map.mpr hrows) (by decide) (by simpa using h)
    (by decide) hheadings (by decide)

/-- The row of a left side on the sheet, in LaTeX. -/
def SheetRow.latexRow (terminals : List String) (row : SheetRow) : String :=
  Text.Tex.row (Text.Tex.escape row.left :: row.cells.map (CellText.latex terminals))

/-- What stands on the sheet before the rows, in LaTeX. -/
def TableSheet.latexHeading (sheet : TableSheet) : String :=
  Text.Tex.row <|
    ("\\[" ++ Text.Tex.command "begin" "array" ++
      Text.Tex.braced ("c" ++ String.join (sheet.terminals.map fun _ => "|l")) ++ "\n") ::
    sheet.terminals.map fun t => Text.Tex.command "text" (Text.Tex.escape t)

theorem TableSheet.isRowText_latexHeading (sheet : TableSheet) :
    IsRowText (sheet.terminals.length + 1) sheet.latexHeading := by
  have hcolumns : ∀ terminals : List String,
      FitsCell (String.join (terminals.map fun _ => "|l")) := by
    intro terminals
    induction terminals with
    | nil => exact .empty
    | cons t terminals ih =>
      rw [List.map_cons, String.join_cons]
      exact .append (by decide) ih
  have hspec : FitsCell ("c" ++ String.join (sheet.terminals.map fun _ => "|l")) :=
    .append (by decide) (hcolumns sheet.terminals)
  have hbegin : FitsCell ("\\[" ++ Text.Tex.command "begin" "array") := by decide
  refine ⟨_, by simp, List.forall_mem_cons.mpr ⟨?_, List.forall_mem_map.mpr fun t _ => ?_⟩, rfl⟩
  · exact (hbegin.append hspec.braced).append (by decide)
  · exact .command (by decide) (fitsCell_escape t)

/-- **The sheet of a parse table is a table** with a row for each of its rows, a column for the left
sides and one for each terminal. -/
theorem TableSheet.isTable_latex (sheet : TableSheet) (h : sheet.rows ≠ [])
    (hcells : ∀ row ∈ sheet.rows, row.cells.length = sheet.terminals.length) :
    IsTable (sheet.terminals.length + 1) (sheet.rows.map (SheetRow.latexRow sheet.terminals)) []
      sheet.latex := by
  have hrows : ∀ row ∈ sheet.rows,
      IsRowText (sheet.terminals.length + 1) (row.latexRow sheet.terminals) := by
    intro row hrow
    refine ⟨_, ?_, ?_, rfl⟩
    · rw [List.length_cons, List.length_map, hcells row hrow]
    · exact List.forall_mem_cons.mpr ⟨fitsCell_escape _,
        List.forall_mem_map.mpr fun cell _ => cell.fitsCell_latex sheet.terminals⟩
  have hlatex : sheet.latex = sheet.latexHeading ++ (Text.Tex.rowEnd ++ ("\\hline\n" ++
      (Text.Tex.rows (sheet.rows.map (SheetRow.latexRow sheet.terminals)) ++
        ("\n" ++ Text.Tex.command "end" "array" ++ "\\]")))) := by
    simp only [TableSheet.latex, TableSheet.latexHeading, String.append_assoc]
    rfl
  rw [hlatex]
  exact Text.Tex.isTable_array (List.forall_mem_map.mpr hrows) (Nat.succ_ne_zero _)
    (by simpa using h) sheet.isRowText_latexHeading (Nat.succ_ne_zero _) (by decide)
    (by decide)

/-- **The conflicts of a grammar are a table** with a row for each of them. -/
theorem Analysis.isTable_conflictsLatex (a : Analysis) (h : a.conflicts ≠ []) :
    IsTable 5 (a.conflicts.map ConflictText.latexRow)
      ["\n" ++ Text.Tex.command "end" "tabular"] a.conflictsLatex := by
  have hrows : ∀ c ∈ a.conflicts, IsRowText 5 c.latexRow := by
    intro c _
    have hcomma : FitsCell ", " := by decide
    have hintersection : FitsCell (", ".intercalate (c.intersection.map Text.Tex.escape)) :=
      .intercalate hcomma (List.forall_mem_map.mpr fun name _ => fitsCell_escape name)
    refine ⟨_, rfl, ?_, rfl⟩
    simp only [List.forall_mem_cons]
    exact ⟨fitsCell_escape _, fitsCell_escape _, ((Display.fitsCell_latexProduction _).append
      hcomma).append (Display.fitsCell_latexProduction _), hintersection, fitsCell_typeset _,
      by simp⟩
  have hheadings : IsRowText 5
      (Text.Tex.row ["Symbol", "Kind", "Productions", "Intersection", "Hint"]) :=
    ⟨_, rfl, by decide, rfl⟩
  have htable := Text.Tex.isTable_tabular (List.forall_mem_map.mpr hrows) (by decide)
    (by simpa using h) (by decide : FitsCell "c|l|l|l|l") hheadings (by decide)
  rw [Analysis.conflictsLatex]
  split
  · next hnil => exact absurd hnil h
  · exact htable

/-- The row of an entry of a trace in LaTeX. -/
def TraceEntry.latexRow (e : TraceEntry) : String :=
  Text.Tex.row [e.step.repr, Text.Tex.escape (" ".intercalate e.stack),
    Text.Tex.escape (" ".intercalate e.input), Text.Tex.typeset e.action.text]

/-- **The trace of a run is a table** with a row for each entry. -/
theorem Run.isTable_latex (r : Run) (h : r.trace ≠ []) :
    IsTable 4 (r.trace.map TraceEntry.latexRow) ["\n" ++ Text.Tex.command "end" "tabular"]
      r.latex := by
  have hrows : ∀ e ∈ r.trace, IsRowText 4 e.latexRow := by
    intro e _
    refine ⟨_, rfl, ?_, rfl⟩
    simp only [List.forall_mem_cons]
    exact ⟨Text.Tex.fitsCell_repr _, fitsCell_escape _, fitsCell_escape _, fitsCell_typeset _,
      by simp⟩
  have hheadings : IsRowText 4 (Text.Tex.row ["Step", "Stack", "Input", "Action"]) :=
    ⟨_, rfl, by decide, rfl⟩
  exact Text.Tex.isTable_tabular (List.forall_mem_map.mpr hrows) (by decide) (by simpa using h)
    (by decide) hheadings (by decide)

/-! ## Tables of a parser -/

namespace Parser

/-- **Names cannot break the tables of a parser or of its runs**, whatever their characters are.
Taken apart as LaTeX does it, with every backslash belonging to the character after it, what is
shown of the grammar, of the sets, of the parse table, of the conflicts if there are any, and of a
run has a heading and exactly one row for each group of alternatives, nonterminal, row, conflict or
entry of the trace. Each row holds what was written for it and has as many cells as the table has
columns; in every cell braces are balanced, dollars come in pairs, and no character is bare that is
not allowed there. -/
theorem latex_tables {rules : List Rule} {start : Option String} {config : Config} {p : Parser}
    (hp : Parser.build rules start config = .ok p) :
    IsTable 3 (p.listing.groups.map (ListedGroup.latexRow p.listing.terminals)) []
      p.listing.latex ∧
    IsTable 4 (p.setSummary.lines.map SetLine.latexRow)
      ["\n" ++ Text.Tex.command "end" "tabular"] p.setSummary.latex ∧
    IsTable (p.tableSheet.terminals.length + 1)
      (p.tableSheet.rows.map (SheetRow.latexRow p.tableSheet.terminals)) [] p.tableSheet.latex ∧
    (p.analysis.conflicts ≠ [] → IsTable 5 (p.analysis.conflicts.map ConflictText.latexRow)
      ["\n" ++ Text.Tex.command "end" "tabular"] p.analysis.conflictsLatex) ∧
    ∀ input options, IsTable 4 ((p.run input options).trace.map TraceEntry.latexRow)
      ["\n" ++ Text.Tex.command "end" "tabular"] (p.run input options).latex := by
  obtain ⟨g, hg, rfl⟩ := exists_ofRules_of_build hp
  have hwell := Grammar.wellFormed_of_ofRules hg
  have hstart : g.start ∈ g.nonterminals := Catalog.mem_nonterminals.mpr hwell.isNonterminal_start
  have hne : g.nonterminals ≠ [] := List.ne_nil_of_mem hstart
  have hdefined : g.start ∈ g.defined := by
    have halternatives := (Grammar.alternatives_ne_nil_iff hg
      (Catalog.lt_size_of_isNonterminal hwell.isNonterminal_start)).mpr (Grammar.name_start_mem hg)
    exact List.mem_filter.mpr ⟨hstart, by simpa using halternatives⟩
  refine ⟨Listing.isTable_latex _ ?_, SetSummary.isTable_latex _ ?_,
    TableSheet.isTable_latex _ ?_ ?_, Analysis.isTable_conflictsLatex _,
    fun input options => Run.isTable_latex _ ?_⟩
  · show g.defined.map _ ≠ []
    simpa using List.ne_nil_of_mem hdefined
  · show g.nonterminals.map _ ≠ []
    simpa using hne
  · show (g.nonterminals.map _).map _ ≠ []
    simpa using hne
  · intro row hrow
    obtain ⟨r, hr, rfl⟩ := List.mem_map.mp hrow
    obtain ⟨left, -, rfl⟩ := List.mem_map.mp hr
    show ((g.terminals.map _).map _).length = (g.terminals.map _).length
    simp
  · obtain ⟨es, last, m, entry, -, -, htrace, -⟩ := exists_outcome hwell input options
    rw [htrace]
    simp

/-- Rules with names that mean something to LaTeX. Two of the alternatives are in conflict. -/
def breakingRules : List Rule :=
  [⟨"E_&", [["\x7b", "\\\\"], ["\x7b", "%$"], ["_"]], []⟩]

/-- The grammar of these rules. -/
def breakingGrammar : Grammar where
  entries := #[.nonterminal "E_&" [[1, 2], [1, 3], []], .terminal "\x7b", .terminal "\\\\",
    .terminal "%$", .terminal Mark.finish]
  start := 0
  finish := 4

theorem latex_tables_breaking :
    build breakingRules none {} = .ok (generate breakingGrammar) ∧
      IsTable 4 [Text.Tex.row ["E\\_\\&", "true", "\\\x7b\\ $\\epsilon$", "\\$"]]
        ["\n" ++ Text.Tex.command "end" "tabular"] (generate breakingGrammar).setSummary.latex ∧
      (generate breakingGrammar).analysis.conflicts.length = 1 ∧
      IsTable 5 ((generate breakingGrammar).analysis.conflicts.map ConflictText.latexRow)
        ["\n" ++ Text.Tex.command "end" "tabular"]
        (generate breakingGrammar).analysis.conflictsLatex := by
  have hp : build breakingRules none {} = .ok (generate breakingGrammar) :=
    build_eq_ok (by decide +kernel)
  have hconflicts : (generate breakingGrammar).analysis.conflicts.length = 1 := by decide +kernel
  have hlines : (generate breakingGrammar).setSummary.lines.map SetLine.latexRow =
      [Text.Tex.row ["E\\_\\&", "true", "\\\x7b\\ $\\epsilon$", "\\$"]] := by decide +kernel
  obtain ⟨-, hsets, -, hlist, -⟩ := latex_tables hp
  rw [hlines] at hsets
  refine ⟨hp, hsets, hconflicts, hlist fun hnil => ?_⟩
  rw [hnil] at hconflicts
  cases hconflicts

end Parser

end TopDown
