import TopDown.Json.Basic
import TopDown.Parser
import TopDown.Text.Columns
import TopDown.Text.Tex

/-!
# The summary of the sets

One line for each nonterminal: its name, whether it derives the empty string, what it can start
with and what can follow it. The sign of the empty string stands last among what a nonterminal
that derives it can start with.

## Main definitions

* `SetLine`, `Parser.setSummary`
* `SetSummary.plain?`, `SetSummary.latex`, `SetSummary.toJson`
-/

namespace TopDown

/-- What is known of one nonterminal. -/
structure SetLine where
  name : String
  nullable : Bool
  first : List String
  follow : List String
  deriving DecidableEq, Repr

/-- The lines of all nonterminals. -/
structure SetSummary where
  lines : List SetLine
  deriving DecidableEq, Repr

namespace Parser

/-- The names of the symbols of a set. -/
def names (p : Parser) (set : SymbolSet) : List String :=
  set.members.map p.grammar.name

/-- What a nonterminal can start with, as names. -/
def firstNames (p : Parser) (symbol : Nat) : List String :=
  let first := First.ofSymbol p.lookahead.first symbol
  p.names first.terminals ++ if first.nullable then [Mark.epsilon] else []

/-- What can follow a nonterminal, as names. -/
def followNames (p : Parser) (symbol : Nat) : List String :=
  p.names (p.lookahead.followOf symbol)

/-- Whether a nonterminal derives the empty string. -/
def nullable (p : Parser) (symbol : Nat) : Bool :=
  (First.ofSymbol p.lookahead.first symbol).nullable

/-- The summary of the sets of a parser. -/
def setSummary (p : Parser) : SetSummary where
  lines := p.grammar.nonterminals.map fun symbol =>
    ⟨p.grammar.name symbol, p.nullable symbol, p.firstNames symbol, p.followNames symbol⟩

end Parser

namespace SetLine

/-- A truth value in words. -/
def truth : Bool → String
  | true => "true"
  | false => "false"

/-- The cells of a line as plain text. -/
def plainCells (line : SetLine) : List String :=
  [line.name, truth line.nullable, ", ".intercalate line.first, ", ".intercalate line.follow]

/-- Names in running LaTeX. -/
def latexNames (names : List String) : String :=
  "\\ ".intercalate <| names.map fun name =>
    if name = Mark.epsilon then Text.Tex.epsilonFormula else Text.Tex.escape name

/-- The row of a line in LaTeX. -/
def latexRow (line : SetLine) : String :=
  Text.Tex.row [Text.Tex.escape line.name, truth line.nullable, latexNames line.first,
    latexNames line.follow]

/-- A line as a JSON value. -/
def toJson (line : SetLine) : Json :=
  .object [("name", .string line.name), ("nullable", .bool line.nullable),
    ("first", Json.strings line.first), ("follow", Json.strings line.follow)]

end SetLine

namespace SetSummary

/-- The headings of the columns. -/
def headings : List String :=
  ["Symbol", "Nullable", "First", "Follow"]

/-- The summary as a plain table, if its columns are not too wide. -/
def plain? (summary : SetSummary) : Option String :=
  Text.alignColumns? (headings :: summary.lines.map SetLine.plainCells)

/-- The summary in LaTeX. -/
def latex (summary : SetSummary) : String :=
  Text.Tex.tabular "c|c|c|c" (Text.Tex.row headings) (summary.lines.map SetLine.latexRow)

/-- The summary as a JSON value. -/
def toJson (summary : SetSummary) : Json :=
  .object [("data", .array (summary.lines.map SetLine.toJson))]

end SetSummary

end TopDown
