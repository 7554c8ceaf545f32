import Std.Data.TreeMap.Basic
import TopDown.Display.Listing
import TopDown.Display.SetSummary
import TopDown.Display.TableSheet

/-!
# The analysis of a grammar, by names

Everything that is known of a grammar in one value that needs no catalog to be read: symbols are
names, productions are texts, and sets and rows are found by the name of their nonterminal. This is
what is exchanged as JSON; the conflicts in it also have a plain and a LaTeX form.

## Main definitions

* `ConflictText`, `Analysis`
* `Parser.analysis`: the analysis of a parser
* `Analysis.conflictsPlain`, `Analysis.conflictsLatex`, `Analysis.toJson`
-/

namespace TopDown

/-- Values found by name, in the order of the names. -/
abbrev NameMap (α : Type) := Std.TreeMap String α compare

/-- The map of some entries; of two entries with one name the later one counts. -/
def NameMap.ofList {α : Type} (entries : List (String × α)) : NameMap α :=
  Std.TreeMap.ofList entries compare

/-- A map by name as a JSON value. -/
def NameMap.toJson {α : Type} (f : α → Json) (map : NameMap α) : Json :=
  .object (map.toList.map fun (name, a) => (name, f a))

/-- A conflict by names. -/
structure ConflictText where
  nonterminal : String
  kind : ConflictKind
  earlier : String
  later : String
  intersection : List String
  suggestion : String
  deriving DecidableEq, Repr

namespace ConflictText

/-- A conflict as plain text. -/
def plain (c : ConflictText) : String :=
  c.kind.name ++ " on " ++ c.nonterminal ++ ": " ++ c.earlier ++ " | " ++ c.later ++
    " share \x7b" ++ ", ".intercalate c.intersection ++ "\x7d\n  hint: " ++ c.suggestion

/-- The row of a conflict in LaTeX. -/
def latexRow (c : ConflictText) : String :=
  Text.Tex.row [Text.Tex.escape c.nonterminal, Text.Tex.escape c.kind.name,
    Display.latexProduction c.earlier ++ ", " ++ Display.latexProduction c.later,
    ", ".intercalate (c.intersection.map Text.Tex.escape), Text.Tex.typeset c.suggestion]

/-- A conflict as a JSON value. -/
def toJson (c : ConflictText) : Json :=
  .object [("non_terminal", .string c.nonterminal), ("type", .string c.kind.name),
    ("productions", Json.strings [c.earlier, c.later]),
    ("intersection", Json.strings c.intersection), ("suggestion", .string c.suggestion)]

end ConflictText

/-- A left side with its alternatives, each as one text. -/
structure GroupText where
  left : String
  rights : List String
  deriving DecidableEq, Repr

/-- A group as a JSON value. -/
def GroupText.toJson (group : GroupText) : Json :=
  .object [("lhs", .string group.left), ("rhs", Json.strings group.rights)]

/-- All that is known of a grammar, by names. -/
structure Analysis where
  grammar : List GroupText
  terminals : List String
  nonterminals : List String
  firstSets : NameMap (List String)
  followSets : NameMap (List String)
  isLL1 : Bool
  conflicts : List ConflictText
  table : NameMap (NameMap CellText)

namespace Parser

/-- A conflict by names. -/
def conflictText (p : Parser) (c : Conflict) : ConflictText where
  nonterminal := p.grammar.name c.left
  kind := c.kind
  earlier := p.grammar.productionText c.left c.earlier
  later := p.grammar.productionText c.left c.later
  intersection := p.names c.terminals
  suggestion := p.grammar.suggestion c

/-- A row of the table by names. -/
def rowByName (p : Parser) (row : Row) : NameMap CellText :=
  NameMap.ofList <| (p.table.columns.zip row.cells).map fun (terminal, cell) =>
    (p.grammar.name terminal, p.cellText row.left cell)

/-- The analysis of the grammar of a parser. -/
def analysis (p : Parser) : Analysis where
  grammar := p.grammar.defined.map fun left =>
    ⟨p.grammar.name left, (p.grammar.alternatives left).map fun alternative =>
      " ".intercalate (p.grammar.spell alternative)⟩
  terminals := p.grammar.terminals.map p.grammar.name
  nonterminals := p.grammar.nonterminals.map p.grammar.name
  firstSets := NameMap.ofList <| p.grammar.nonterminals.map fun symbol =>
    (p.grammar.name symbol, p.firstNames symbol)
  followSets := NameMap.ofList <| p.grammar.nonterminals.map fun symbol =>
    (p.grammar.name symbol, p.followNames symbol)
  isLL1 := p.table.isLL1
  conflicts := p.conflicts.map p.conflictText
  table := NameMap.ofList <| p.table.rows.map fun row => (p.grammar.name row.left, p.rowByName row)

end Parser

namespace Analysis

/-- The conflicts of one kind. -/
def conflictsOf (a : Analysis) (kind : ConflictKind) : List ConflictText :=
  a.conflicts.filter (·.kind == kind)

/-- What is said of a grammar without conflicts. -/
def noConflicts : String := "grammar is LL(1)"

/-- The conflicts as plain text. -/
def conflictsPlain (a : Analysis) : String :=
  match a.conflicts with
  | [] => noConflicts
  | conflicts => "\n".intercalate (conflicts.map ConflictText.plain)

/-- The conflicts in LaTeX. -/
def conflictsLatex (a : Analysis) : String :=
  match a.conflicts with
  | [] => noConflicts
  | conflicts =>
    Text.Tex.tabular "c|l|l|l|l"
      (Text.Tex.row ["Symbol", "Kind", "Productions", "Intersection", "Hint"])
      (conflicts.map ConflictText.latexRow)

/-- The conflicts as a JSON value. -/
def conflictsJson (a : Analysis) : Json :=
  .array (a.conflicts.map ConflictText.toJson)

/-- The analysis as a JSON value. -/
def toJson (a : Analysis) : Json :=
  .object [("grammar", .array (a.grammar.map GroupText.toJson)),
    ("terminals", Json.strings a.terminals), ("non_terminals", Json.strings a.nonterminals),
    ("first_sets", a.firstSets.toJson Json.strings),
    ("follow_sets", a.followSets.toJson Json.strings), ("is_LL1", .bool a.isLL1),
    ("conflicts", a.conflictsJson),
    ("parse_table", a.table.toJson fun row => row.toJson CellText.toJson)]

end Analysis

end TopDown
