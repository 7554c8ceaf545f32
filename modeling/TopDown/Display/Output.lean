import TopDown.Display.Analysis
import TopDown.Run.Report
import TopDown.RuleText

/-!
# What can be shown, and how

A parser can show its grammar, its sets, its table and its conflicts, and of a run the trace and
the tree; each in plain text, LaTeX or JSON. A plain table whose columns would be too wide is not
shown. The JSON form of the table is the whole analysis. Two
functions go all the way from texts to JSON with the default configuration.

## Main definitions

* `Topic`, `RunTopic`, `Format`
* `Parser.describe?`, `Run.describe?`
* `analysisOfText`, `runOfText`
-/

namespace TopDown

/-- What a parser can show without a run. -/
inductive Topic where
  | productions
  | sets
  | table
  | conflicts
  deriving DecidableEq, Repr

/-- What can be shown of a run. -/
inductive RunTopic where
  | trace
  | tree
  deriving DecidableEq, Repr

/-- The forms in which things are shown. -/
inductive Format where
  | plain
  | latex
  | json
  deriving DecidableEq, Repr

/-- A topic in a form, if it can be shown in it. -/
def Parser.describe? (p : Parser) : Topic → Format → Option String
  | .productions, .plain => p.listing.plain?
  | .productions, .latex => some p.listing.latex
  | .productions, .json => some p.listing.toJson.render
  | .sets, .plain => p.setSummary.plain?
  | .sets, .latex => some p.setSummary.latex
  | .sets, .json => some p.setSummary.toJson.render
  | .table, .plain => p.tableSheet.plain?
  | .table, .latex => some p.tableSheet.latex
  | .table, .json => some p.analysis.toJson.render
  | .conflicts, .plain => some p.analysis.conflictsPlain
  | .conflicts, .latex => some p.analysis.conflictsLatex
  | .conflicts, .json => some p.analysis.conflictsJson.render

/-- A topic of a run in a form, if it can be shown in it. -/
def Run.describe? (r : Run) : RunTopic → Format → Option String
  | .trace, .plain => r.plain?
  | .trace, .latex => some r.latex
  | .trace, .json => some r.toJson.render
  | .tree, .plain => some r.tree.bracketed
  | .tree, .latex => some r.tree.latex
  | .tree, .json => some r.tree.toJson.render

/-- The parser of a grammar text under the default configuration. -/
def Parser.ofText (text : String) : Except BuildError Parser := do
  let rules ← RuleText.readRules {} text
  Parser.build rules none {}

/-- An error as a JSON value. -/
def BuildError.toJson (e : BuildError) : Json :=
  .object [("error", .string e.message)]

/-- The analysis of a grammar text as JSON, or the error. -/
def analysisOfText (text : String) : Json :=
  match Parser.ofText text with
  | .ok p => p.analysis.toJson
  | .error e => e.toJson

/-- The run of the parser of a grammar text on an input as JSON, or the error. -/
def runOfText (text input : String) (maxSteps : Nat) : Json :=
  match Parser.ofText text with
  | .ok p => (p.run (RuleText.tokens input) { maxSteps }).toJson
  | .error e => e.toJson

end TopDown
