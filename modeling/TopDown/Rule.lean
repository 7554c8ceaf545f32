/-!
# Rules

A rule is a left side and its alternatives, each a list of names. Rules that come from a text know
the line of every alternative.
-/

namespace TopDown

/-- A left side with its alternatives, and the line that each alternative stands on if the rule
comes from a text. -/
structure Rule where
  left : String
  alternatives : List (List String)
  lines : List Nat := []
  deriving DecidableEq, Repr

/-- The line to blame for an alternative. A rule that knows no line for it is blamed at its own
place among the rules. -/
def Rule.lineOf (rule : Rule) (alternative place : Nat) : Nat :=
  rule.lines[alternative]?.getD place

end TopDown
