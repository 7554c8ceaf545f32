import TopDown.Config

/-!
# Why there is no grammar

A text or a list of rules that does not make a grammar is refused with the first fault found. A
fault in a rule is located by its line and by the left side of the rule.
-/

namespace TopDown

/-- What is wrong with a rule. -/
inductive Flaw where
  | emptyLeft
  | blankInLeft
  | reservedLeft
  | noAlternatives
  /-- An alternative without symbols, given the placeholder that should have been written. -/
  | emptyAlternative (placeholder : String)
  | epsilonAmongSymbols
  | finishOnRight
  | secondArrow
  | noLeft
  deriving DecidableEq, Repr

/-- The wording of a flaw. -/
def Flaw.message : Flaw → String
  | .emptyLeft => "empty left side"
  | .blankInLeft => "left side contains whitespace"
  | .reservedLeft => "reserved symbol used as left side"
  | .noAlternatives => "no alternatives"
  | .emptyAlternative placeholder =>
    "empty alternative, write " ++ placeholder ++ " for the empty string"
  | .epsilonAmongSymbols => "ε must be the only symbol of its alternative"
  | .finishOnRight => "the end marker cannot appear in a production"
  | .secondArrow => "too many \"->\""
  | .noLeft => "cannot find left side"

/-- Why there is no grammar. -/
inductive BuildError where
  | noRules
  /-- A flaw in the rule with a left side, on a line. -/
  | malformedRule (line : Nat) (left : String) (flaw : Flaw)
  /-- The start symbol is no left side. -/
  | unknownStart (name : String)
  deriving DecidableEq, Repr

/-- The wording of an error. -/
def BuildError.message : BuildError → String
  | .noRules => "no rules supplied"
  | .malformedRule line left flaw => "line " ++ line.repr ++ " (" ++ left ++ "): " ++ flaw.message
  | .unknownStart name => "start symbol `" ++ name ++ "` has no rule"

end TopDown
