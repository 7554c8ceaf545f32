import TopDown.Display.SetSummary
import TopDown.Display.TableSheet
import TopDown.Proofs.Display.Listing
import TopDown.Proofs.Run.Trace
import TopDown.Proofs.Text.Columns

/-!
# Plain tables of a grammar

The names of a grammar that comes from a text hold no blank, and so no line end. Everything in a
plain table is made of names, of tokens and of fixed texts: the productions in the cells of the
parse table, the sets in the summary, and the stacks, inputs and actions in the trace of a run. So
each of these tables is a grid, and is set in columns with a line for its heading and one for each
of its rows.

The one thing that can go wrong is that there is no table, because something in it is too long for a
column: a name of the grammar, for example.

## Main definitions

* `TableSheet.plainRows`, `SetSummary.plainRows`, `Run.plainRows`: the cells of the plain tables

## Main results

* `Grammar.isOneLine_name`: names of plain rules hold no line ends
* `Parser.isGrid_tableSheet`, `Parser.isGrid_setSummary`, `Parser.isGrid_run`: tables of parsers
* `Parser.plain_tables_aligned`: tables are aligned, whatever their cells hold
-/

namespace TopDown

open Text (IsOneLine IsGrid SetInColumns)

/-! ## The cells of plain tables -/

/-- The cells of a row of the parse table. -/
def SheetRow.plainCells (row : SheetRow) : List String :=
  row.left :: row.cells.map CellText.plain

/-- The heading of the parse table, and its rows. -/
def TableSheet.plainRows (sheet : TableSheet) : List (List String) :=
  ("" :: sheet.terminals) :: sheet.rows.map SheetRow.plainCells

/-- The heading of the summary of the sets, and its lines. -/
def SetSummary.plainRows (summary : SetSummary) : List (List String) :=
  SetSummary.headings :: summary.lines.map SetLine.plainCells

/-- The cells of an entry of a trace. -/
def TraceEntry.plainCells (e : TraceEntry) : List String :=
  [e.step.repr, " ".intercalate e.stack, " ".intercalate e.input, e.action.text]

/-- The heading of the trace of a run, and its entries. -/
def Run.plainRows (r : Run) : List (List String) :=
  ["Step", "Stack", "Input", "Action"] :: r.trace.map TraceEntry.plainCells

/-- The verdict on a run stands on one line. -/
theorem Run.exists_verdictLine_eq (r : Run) :
    ∃ verdict, r.verdictLine = "\n" ++ verdict ∧ IsOneLine verdict := by
  refine ⟨_, rfl, ?_⟩
  have hrecoveries : IsOneLine r.recoveries :=
    .between (.between (by decide) (Text.isOneLine_repr _) (by decide)) (Text.isOneLine_repr _)
      (by decide)
  split
  · decide
  · exact .append (by decide) hrecoveries

/-! ## Names -/

namespace Grammar

variable {rules : List Rule} {start : Option String} {config : Config} {g : Grammar}

/-- **The names of plain rules hold no line ends**, and neither does the end mark. -/
theorem isOneLine_name (h : ofRules rules start config = .ok g)
    (hplain : ∀ rule ∈ rules, rule.IsPlain) (symbol : Nat) : IsOneLine (g.name symbol) := by
  cases hname : g.name? symbol with
  | none =>
    rw [Catalog.name, hname]
    decide
  | some name =>
    have hlt := Catalog.lt_size_of_name? hname
    have hfind := (wellFormed_of_ofRules h).find?_name hlt
    rcases (exists_find?_iff h).mp ⟨symbol, hfind⟩ with ⟨rule, hrule, hleft⟩ |
      ⟨rule, hrule, names, hnames, hmem⟩ | hfinish
    · rw [← hleft, name_eq_left hplain rule hrule]
      exact (hplain rule hrule).isWord_left.isOneLine
    · obtain ⟨raw, hraw, htrim, -⟩ := Config.mem_spelling_iff.mp hmem
      have hword := (((hplain rule hrule).words names hnames).2 raw hraw).isWord
      rw [← htrim, hword.trim_eq]
      exact hword.isOneLine
    · rw [hfinish]
      decide

end Grammar

namespace Parser

variable {p : Parser} {recovery : Recovery} {s : State} {m : Move}

/-! ## Tables of names without line ends -/

section Names

variable (hnames : ∀ symbol, IsOneLine (p.grammar.name symbol))

include hnames

theorem isOneLine_productionText (left number : Nat) :
    IsOneLine (p.grammar.productionText left number) := by
  have hspell : ∀ α : List Nat, ∀ name ∈ p.grammar.spell α, IsOneLine name := by
    intro α
    cases α with
    | nil => exact List.forall_mem_singleton.mpr (by decide)
    | cons symbol α => exact List.forall_mem_map.mpr fun symbol _ => hnames symbol
  exact .between (hnames left) (by decide) (.intercalate (by decide) (hspell _))

theorem isOneLine_plain_cellText (left : Nat) (cell : Cell) :
    IsOneLine (p.cellText left cell).plain := by
  cases cell with
  | predict number rivals =>
    exact .intercalate (by decide) (List.forall_mem_map.mpr fun n _ =>
      isOneLine_productionText hnames left n)
  | sync => show IsOneLine "sync"; decide
  | skip => show IsOneLine "skip"; decide

/-- The cells of the parse table, if every row has a cell for each column. -/
theorem isGrid_tableSheet
    (hcells : ∀ row ∈ p.table.rows, row.cells.length = p.table.columns.length) :
    IsGrid (p.tableSheet.terminals.length + 1) p.tableSheet.plainRows := by
  refine Text.isGrid_cons _ (List.cons_ne_nil _ _)
    (List.forall_mem_cons.mpr ⟨by decide, List.forall_mem_map.mpr fun t _ => hnames t⟩) ?_
  refine List.forall_mem_map.mpr fun row hrow => ⟨?_, ?_⟩
  · simp [SheetRow.plainCells, tableSheet, hcells row hrow]
  · refine List.forall_mem_cons.mpr ⟨hnames row.left, List.forall_mem_map.mpr ?_⟩
    exact List.forall_mem_map.mpr fun cell _ => isOneLine_plain_cellText hnames row.left cell

/-- The cells of the summary of the sets. -/
theorem isGrid_setSummary : IsGrid 4 p.setSummary.plainRows := by
  have hset : ∀ set : SymbolSet, ∀ name ∈ p.names set, IsOneLine name := fun set =>
    List.forall_mem_map.mpr fun symbol _ => hnames symbol
  refine Text.isGrid_cons SetSummary.headings (List.cons_ne_nil _ _) (by decide) ?_
  refine List.forall_mem_map.mpr fun symbol _ => ⟨rfl, ?_⟩
  have htruth : ∀ b, IsOneLine (SetLine.truth b) := by decide
  have hfirst : ∀ name ∈ p.firstNames symbol, IsOneLine name := by
    refine List.forall_mem_append.mpr ⟨hset _, fun name hname => ?_⟩
    split at hname
    · obtain rfl := List.mem_singleton.mp hname
      decide
    · cases hname
  simp only [SetLine.plainCells, List.forall_mem_cons]
  exact ⟨hnames symbol, htruth _, .intercalate (by decide) hfirst,
    .intercalate (by decide) (hset _), by simp⟩

theorem isOneLine_message {failure : Failure} (htoken : IsOneLine s.token)
    (h : p.move recovery s = .fail failure) : IsOneLine failure.message := by
  rcases failure_of_move h with ⟨symbol, rfl⟩ | ⟨symbol, rfl⟩ | ⟨symbol, rfl⟩
  · exact .between (.between (by decide) (hnames symbol) (by decide)) htoken (by decide)
  · exact .between (.between (by decide) (hnames symbol) (by decide)) htoken (by decide)
  · exact .between (by decide) (hnames symbol) (by decide)

/-- An action is worded on one line, also one that reports that the steps are used up. -/
theorem isOneLine_action {limit : Nat} (htoken : IsOneLine s.token)
    (hm : m = p.move recovery s ∨ m = .fail (.stepLimit limit)) :
    IsOneLine (p.action ⟨s, m⟩).text := by
  cases m with
  | accept => show IsOneLine "accept"; decide
  | shift => exact .between (by decide) htoken (by decide)
  | expand number => exact isOneLine_productionText hnames _ number
  | giveUp => exact .append (by decide) (hnames _)
  | passOver => exact .between (by decide) htoken (by decide)
  | fail failure =>
    refine .append (s := "error: ") (by decide) ?_
    rcases hm with hm | hm
    · exact isOneLine_message hnames htoken hm.symm
    · cases hm
      exact .between (by decide) (Text.isOneLine_repr limit) (by decide)

/-- The cells of the trace of a run on tokens without line ends. -/
theorem isGrid_run {input : List String} (hinput : ∀ token ∈ input, IsOneLine token)
    (options : RunOptions) : IsGrid 4 (p.run input options).plainRows := by
  have hfinish : IsOneLine Mark.finish := by decide
  refine Text.isGrid_cons ["Step", "Stack", "Input", "Action"] (List.cons_ne_nil _ _) (by decide) ?_
  refine List.forall_mem_map.mpr fun e he => ⟨rfl, ?_⟩
  obtain ⟨hsuffix, hmove⟩ := of_mem_history (List.fst_mem_of_mem_zipIdx he)
  have hleft : ∀ token ∈ e.1.state.input, IsOneLine token := fun token htoken =>
    hinput token (hsuffix.subset htoken)
  have htoken : IsOneLine e.1.state.token := by
    rw [State.token]
    cases hcase : e.1.state.input with
    | nil => exact hfinish
    | cons token rest => exact hleft token (hcase ▸ List.mem_cons_self)
  simp only [TraceEntry.plainCells, List.forall_mem_cons]
  refine ⟨Text.isOneLine_repr _, .intercalate (by decide) fun name hname => ?_,
    .intercalate (by decide) ?_, isOneLine_action hnames htoken hmove, by simp⟩
  · obtain ⟨symbol, -, rfl⟩ := List.mem_map.mp (List.mem_reverse.mp hname)
    exact hnames symbol
  · exact List.forall_mem_append.mpr ⟨hleft, List.forall_mem_singleton.mpr hfinish⟩

end Names

/-! ## Tables of a parser -/

open RuleText (readRules)

/-- **Plain tables are aligned, whatever their cells hold.** Rows with the same number of cells,
which may be any texts without line ends, are set in columns: there is one line for each row, in
order; all lines are of the same length and have their columns at the same places, with bars between
them; every cell stands in its column with nothing but spaces before it; and a column is as wide as
its longest cell. There is no table if a cell has 65536 characters or more, and only then.

So it is with the parse table, with the summary of the sets, and, above the line with the verdict,
with the trace of a run on the tokens of an input, if the rules of the parser come from a text. -/
theorem plain_tables_aligned (columns : Nat) (rows : List (List String)) :
    (IsGrid columns rows → SetInColumns rows (Text.alignColumns? rows)) ∧
    ∀ {config text rules start p}, readRules config text = .ok rules →
      build rules start config = .ok p →
      SetInColumns p.tableSheet.plainRows p.tableSheet.plain? ∧
      SetInColumns p.setSummary.plainRows p.setSummary.plain? ∧
      ∀ input options, let r := p.run (RuleText.tokens input) options
        SetInColumns r.plainRows (Run.traceTable? r.trace) ∧
        ∃ verdict, IsOneLine verdict ∧
          r.plain? = (Run.traceTable? r.trace).map (· ++ ("\n" ++ verdict)) := by
  refine ⟨Text.setInColumns_alignColumns?, ?_⟩
  intro config text rules start p hread hp
  have hplain := RuleText.isPlain_of_readRules hread
  obtain ⟨g, h, rfl⟩ := exists_ofRules_of_build hp
  have hnames : ∀ symbol, IsOneLine ((generate g).grammar.name symbol) :=
    Grammar.isOneLine_name h hplain
  have hcells : ∀ row ∈ (generate g).table.rows,
      row.cells.length = (generate g).table.columns.length :=
    List.forall_mem_map.mpr fun left _ => List.length_map _
  refine ⟨Text.setInColumns_alignColumns? (isGrid_tableSheet hnames hcells),
    Text.setInColumns_alignColumns? (isGrid_setSummary hnames), fun input options => ⟨?_, ?_⟩⟩
  · have htokens : ∀ token ∈ RuleText.tokens input, IsOneLine token := fun token htoken =>
      (Text.isWord_of_mem_words htoken).isOneLine
    exact Text.setInColumns_alignColumns? (isGrid_run hnames htokens options)
  · obtain ⟨verdict, hverdict, hline⟩ := Run.exists_verdictLine_eq _
    refine ⟨verdict, hline, ?_⟩
    rw [Run.plain?, hverdict]

/-- Rows of cells with bars, with spaces and with nothing in them. -/
def barredRows : List (List String) :=
  [["", "a | b"], [" |é", ""], ["x", " "]]

/-- The table of these rows. -/
def barredTable : String := "    | a | b\n |é |      \n  x |      "

/-- A text with names of more bytes than characters. -/
def accentedText : String := "É -> é É\n| _"

/-- The rules of this text. -/
def accentedRules : List Rule :=
  [⟨"É", [["é", "É"], ["_"]], [1, 2]⟩]

/-- The grammar of these rules. -/
def accentedGrammar : Grammar :=
  ⟨⟨#[.nonterminal "É" [[1, 0], []], .terminal "é", .terminal "$"]⟩, 0, 2⟩

/-- A run of its parser that passes over a token. -/
def accentedRun : Run :=
  (generate accentedGrammar).run (RuleText.tokens "à\né") {}

/-- The trace of this run as a table. -/
def accentedTrace : String :=
  "Step | Stack | Input |    Action\n" ++
  "   1 |   $ É | à é $ |  skip 'à'\n" ++
  "   2 |   $ É |   é $ |  É -> é É\n" ++
  "   3 | $ É é |   é $ | match 'é'\n" ++
  "   4 |   $ É |     $ |    É -> ε\n" ++
  "   5 |     $ |     $ |    accept"

theorem plain_tables_aligned_accented :
    IsGrid 2 barredRows ∧ Text.alignColumns? barredRows = some barredTable ∧
      Text.IsAligned barredRows barredTable ∧
      readRules {} accentedText = .ok accentedRules ∧
      build accentedRules none {} = .ok (generate accentedGrammar) ∧
      Text.IsAligned [["", "é", "$"], ["É", "É -> é É", "É -> ε"]]
        "  |        é |      $\nÉ | É -> é É | É -> ε" ∧
      Text.IsAligned [["Symbol", "Nullable", "First", "Follow"], ["É", "true", "é, ε", "$"]]
        "Symbol | Nullable | First | Follow\n     É |     true |  é, ε |      $" ∧
      accentedRun.plain? = some (accentedTrace ++ "\nnot accepted (0 sync, 1 skip)") ∧
      Text.IsAligned [["Step", "Stack", "Input", "Action"], ["1", "$ É", "à é $", "skip 'à'"],
        ["2", "$ É", "é $", "É -> é É"], ["3", "$ É é", "é $", "match 'é'"],
        ["4", "$ É", "$", "É -> ε"], ["5", "$", "$", "accept"]] accentedTrace := by
  have hgrid : IsGrid 2 barredRows := ⟨by decide, by decide, by decide, by decide⟩
  have hrows : Text.alignColumns? barredRows = some barredTable := by decide +kernel
  have hread : readRules {} accentedText = .ok accentedRules := by decide +kernel
  have hp : build accentedRules none {} = .ok (generate accentedGrammar) :=
    build_eq_ok (by decide +kernel)
  have htable : Run.traceTable? accentedRun.trace = some accentedTrace := by decide +kernel
  have htraceRows : accentedRun.plainRows = [["Step", "Stack", "Input", "Action"],
      ["1", "$ É", "à é $", "skip 'à'"], ["2", "$ É", "é $", "É -> é É"],
      ["3", "$ É é", "é $", "match 'é'"], ["4", "$ É", "$", "É -> ε"],
      ["5", "$", "$", "accept"]] := by decide +kernel
  obtain ⟨hbarred, hparser⟩ := plain_tables_aligned 2 barredRows
  obtain ⟨hsheet, hsummary, hruns⟩ := hparser hread hp
  obtain ⟨htrace, -⟩ := hruns "à\né" {}
  refine ⟨hgrid, hrows, (hbarred hgrid).isAligned _ hrows, hread, hp,
    hsheet.isAligned _ (by decide +kernel), hsummary.isAligned _ (by decide +kernel),
    by decide +kernel, ?_⟩
  rw [← htraceRows]
  exact htrace.isAligned accentedTrace htable

/-- **Not every table can be set.** A text with a long left side is read and has a parser, but
neither its parse table nor the summary of its sets can be shown in columns. -/
theorem exists_not_set : ∃ rules p, readRules {} (longLeft ++ " -> a") = .ok rules ∧
    build rules none {} = .ok p ∧ p.tableSheet.plain? = none ∧ p.setSummary.plain? = none := by
  obtain ⟨rules, hread, hlisted⟩ := Listing.readRules_plain {} 0 (List.cons_ne_nil _ _)
    (List.forall_mem_singleton.mpr isPlain_longLeft)
  rw [intercalate_plainLines_zero] at hread
  obtain ⟨rule, rfl, hrule⟩ := List.map_eq_singleton_iff.mp hlisted
  rw [Rule.listed, ListedGroup.mk.injEq] at hrule
  obtain ⟨hleft, halternatives⟩ := hrule
  have hname := Grammar.name_eq_left (RuleText.isPlain_of_readRules hread) rule List.mem_cons_self
  obtain ⟨g, h⟩ := exists_ofRules_longLeft (hname.trans hleft) halternatives
  have hstart : g.start ∈ g.nonterminals :=
    Catalog.mem_nonterminals.mpr (Grammar.wellFormed_of_ofRules h).isNonterminal_start
  have hlong : Text.widthBound ≤ (g.name g.start).length := by
    have hmem := Grammar.name_start_mem h
    rw [List.map_singleton, List.mem_singleton, hname, hleft] at hmem
    rw [hmem, length_longLeft]
  refine ⟨[rule], generate g, hread, congrArg (Except.map generate) h, ?_, ?_⟩
  · have hrow : _ ∈ (generate g).tableSheet.rows := List.mem_map_of_mem (List.mem_map_of_mem hstart)
    exact Text.alignColumns?_eq_none_iff.mpr ⟨_, List.mem_cons_of_mem _ (List.mem_map_of_mem hrow),
      g.name g.start, List.mem_cons_self, hlong⟩
  · have hline : _ ∈ (generate g).setSummary.lines := List.mem_map_of_mem hstart
    exact Text.alignColumns?_eq_none_iff.mpr ⟨_, List.mem_cons_of_mem _ (List.mem_map_of_mem hline),
      g.name g.start, List.mem_cons_self, hlong⟩

end Parser

end TopDown
