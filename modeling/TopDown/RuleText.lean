import TopDown.BuildError
import TopDown.Rule
import TopDown.Text.Blank
import TopDown.Text.Cut

/-!
# Rules written on lines

A line of a grammar text is blank, or a rule `LEFT -> ALTERNATIVE | ALTERNATIVE`, or starts with a
bar and adds alternatives to the rule above it. Alternatives are divided by bars and are lists of
words; the empty string has to be written by a placeholder. A line that ends in a carriage return
needs no care, since that character is blank.

## Main definitions

* `Line`: what one line says
* `readRules`: the rules of a text, or the first fault
* `tokens`: the tokens of an input
-/

namespace TopDown.RuleText

/-- What one line says; right sides are not divided yet. -/
inductive Line where
  | blank
  | rule (left : String) (right : List Char)
  | more (right : List Char)

/-- The arrow between the two sides of a rule. -/
def arrow : List Char := ['-', '>']

/-- What one line says, or what is wrong with it and with which left side. -/
def Line.read (line : List Char) : Except (String × Flaw) Line :=
  if line.all Text.isBlank then .ok .blank
  else
    match Text.cutAt arrow line with
    | some (left, right) =>
      let name := String.ofList (Text.trimChars left)
      if (Text.cutAt arrow right).isSome then .error ("", .secondArrow)
      else if name.isEmpty then .error ("", .emptyLeft)
      else if Text.hasBlank name then .error (name, .blankInLeft)
      else .ok (.rule name right)
    | none =>
      match Text.trimChars line with
      | '|' :: right => .ok (.more right)
      | _ => .error ("", .noLeft)

/-- The alternatives that bars divide a right side into; none of them is empty. -/
def readAlternatives (config : Config) (right : List Char) : Except Flaw (List (List String)) :=
  (right.splitOnP (· == '|')).mapM fun piece =>
    match Text.words piece with
    | [] => .error (.emptyAlternative config.epsilon)
    | word :: words => .ok (word :: words)

/-- A rule with more alternatives, all of them from one line. -/
def extend (rule : Rule) (line : Nat) (alternatives : List (List String)) : Rule :=
  { rule with
    alternatives := rule.alternatives ++ alternatives
    lines := rule.lines ++ List.replicate alternatives.length line }

/-- The rules so far, the latest first, with the alternatives of a right side added to the
latest. -/
def addAlternatives (config : Config) (line : Nat) (right : List Char) (rule : Rule)
    (earlier : List Rule) : Except BuildError (List Rule) :=
  match readAlternatives config right with
  | .error flaw => .error (.malformedRule line rule.left flaw)
  | .ok alternatives => .ok (extend rule line alternatives :: earlier)

/-- The rules so far, the latest first, after one more line. -/
def addLine (config : Config) (rules : List Rule) (line : List Char × Nat) :
    Except BuildError (List Rule) :=
  match Line.read line.1, rules with
  | .error (left, flaw), _ => .error (.malformedRule line.2 left flaw)
  | .ok .blank, rules => .ok rules
  | .ok (.rule left right), rules => addAlternatives config line.2 right ⟨left, [], []⟩ rules
  | .ok (.more right), rule :: earlier => addAlternatives config line.2 right rule earlier
  | .ok (.more _), [] => .error (.malformedRule line.2 "" .noLeft)

/-- The lines of a text with their numbers, which start at one. -/
def numberedLines (text : List Char) : List (List Char × Nat) :=
  (text.splitOnP (· == '\n')).zipIdx 1

/-- The rules of a text, or the first fault in it. -/
def readRules (config : Config) (text : String) : Except BuildError (List Rule) :=
  ((numberedLines text.toList).foldlM (addLine config) []).map List.reverse

/-- The tokens of an input: its words. -/
def tokens (input : String) : List String :=
  Text.words input.toList

end TopDown.RuleText
