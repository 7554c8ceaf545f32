import TopDown.Display.Symbols
import TopDown.Json.Basic
import TopDown.Parser
import TopDown.Text.Columns

/-!
# The parse table on a sheet

The table with names for symbols and texts for productions. A cell may also be empty here, as in a
table that nobody has marked for recovery.

## Main definitions

* `CellText`, `Parser.cellText`
* `TableSheet`, `Parser.tableSheet`
* `TableSheet.plain?`, `TableSheet.latex`
-/

namespace TopDown

/-- What is written in a cell. -/
inductive CellText where
  | empty
  | sync
  | skip
  | productions (texts : List String)
  deriving DecidableEq, Repr

namespace CellText

/-- A cell as plain text. -/
def plain : CellText → String
  | empty => ""
  | sync => "sync"
  | skip => "skip"
  | productions texts => " / ".intercalate texts

/-- A cell in LaTeX. A cell with several productions is red. -/
def latex (terminals : List String) : CellText → String
  | empty | skip => ""
  | sync => Text.Tex.command "textit" "sync"
  | productions texts =>
    let body := "; ".intercalate (texts.map (Display.latexFormula terminals))
    if 1 < texts.length then Text.Tex.braced (Text.Tex.command "color" "red" ++ body) else body

/-- A cell as a JSON value. -/
def toJson : CellText → Json
  | empty => .object [("kind", .string "empty")]
  | sync => .object [("kind", .string "sync")]
  | skip => .object [("kind", .string "skip")]
  | productions texts =>
    .object [("kind", .string "production"), ("productions", Json.strings texts)]

end CellText

/-- A row of the sheet. -/
structure SheetRow where
  left : String
  cells : List CellText
  deriving DecidableEq, Repr

/-- The names of the columns, and the rows. -/
structure TableSheet where
  terminals : List String
  rows : List SheetRow
  deriving DecidableEq, Repr

namespace Parser

/-- What is written in a cell of the row of a left side. -/
def cellText (p : Parser) (left : Nat) : Cell → CellText
  | .predict number rivals =>
    .productions ((number :: rivals).map (p.grammar.productionText left))
  | .sync => .sync
  | .skip => .skip

/-- The table of a parser on a sheet. -/
def tableSheet (p : Parser) : TableSheet where
  terminals := p.table.columns.map p.grammar.name
  rows := p.table.rows.map fun row =>
    ⟨p.grammar.name row.left, row.cells.map (p.cellText row.left)⟩

end Parser

namespace TableSheet

/-- The sheet as a plain table, if its columns are not too wide. -/
def plain? (sheet : TableSheet) : Option String :=
  Text.alignColumns? <| ("" :: sheet.terminals) ::
    sheet.rows.map fun row => row.left :: row.cells.map CellText.plain

/-- The sheet in LaTeX. -/
def latex (sheet : TableSheet) : String :=
  let columns := "c" ++ String.join (sheet.terminals.map fun _ => "|l")
  let opening := "\\[" ++ Text.Tex.command "begin" "array" ++ Text.Tex.braced columns ++ "\n"
  let headings := sheet.terminals.map fun t => Text.Tex.command "text" (Text.Tex.escape t)
  let rows := sheet.rows.map fun row =>
    Text.Tex.row (Text.Tex.escape row.left :: row.cells.map (CellText.latex sheet.terminals))
  Text.Tex.row (opening :: headings) ++ Text.Tex.rowEnd ++ "\\hline\n" ++ Text.Tex.rows rows ++
    "\n" ++ Text.Tex.command "end" "array" ++ "\\]"

end TableSheet

end TopDown
