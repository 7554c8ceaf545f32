import TopDown.Text.Blank
import TopDown.Text.Cut
import TopDown.Text.Columns
import TopDown.Text.Tex
import TopDown.Text.LetterCase
import TopDown.Json.Basic
import TopDown.Json.Reader
import TopDown.Config.Json
import TopDown.Rule.Json
import TopDown.RuleText
import TopDown.SymbolSet
import TopDown.Grammar.Construction
import TopDown.Follow
import TopDown.Parser
import TopDown.Run.Report
import TopDown.Display.Output
import TopDown.Main
import TopDown.Proofs.Table.Exact
import TopDown.Proofs.Table.Conflicts
import TopDown.Proofs.Grammar.Front
import TopDown.Proofs.Run.Soundness
import TopDown.Proofs.Run.Completeness
import TopDown.Proofs.Run.Termination
import TopDown.Proofs.Run.Viable
import TopDown.Proofs.Run.Modes
import TopDown.Proofs.Run.Trace
import TopDown.Proofs.Run.Growth
import TopDown.Proofs.Run.Workspace
import TopDown.Proofs.Grammar.Declaration
import TopDown.Proofs.Grammar.Rearrangement
import TopDown.Proofs.Grammar.Renaming
import TopDown.Proofs.Table.Renaming
import TopDown.Proofs.Run.Rearrangement
import TopDown.Proofs.Table.LeftRecursion
import TopDown.Proofs.Follow.Reached
import TopDown.Proofs.Grammar.Registry
import TopDown.Proofs.Table.Lookup
import TopDown.Proofs.Parser
import TopDown.Proofs.RuleText
import TopDown.Proofs.RuleText.Layout
import TopDown.Proofs.RuleText.Faults
import TopDown.Proofs.Display.ListedText
import TopDown.Proofs.Display.Listing
import TopDown.Proofs.Display.Latex
import TopDown.Proofs.Lookahead
import TopDown.Proofs.Run.Outcome
import TopDown.Proofs.Run.Limit
import TopDown.Proofs.Run.Foreign
import TopDown.Proofs.Tree
import TopDown.Proofs.Display.Formulas
import TopDown.Proofs.Display.Analysis
import TopDown.Proofs.Display.Plain
import TopDown.Proofs.Json.RoundTrip
