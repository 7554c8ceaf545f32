import TopDown.Text.LetterCase

/-!
# Reserved marks and the configuration of a grammar text

Three names are reserved: the sign of the empty string, a character that is easier to type in its
place, and the mark that stands after the last token. A configuration adds one more way to write
the empty string, and says which names that are no left side of a rule are nonterminals.

## Main definitions

* `Mark.epsilon`, `Mark.underscore`, `Mark.finish`: the reserved names
* `Convention`: how the names on right sides are classified
* `Config`: a convention and a placeholder for the empty string
-/

namespace TopDown

namespace Mark

/-- The sign of the empty string. -/
def epsilon : String := "ε"

/-- What may be typed for the sign of the empty string. -/
def underscore : String := "_"

/-- The mark that stands after the last token. -/
def finish : String := "$"

end Mark

/-- How a name that is no left side of a rule is classified. Left sides are nonterminals under
either convention. -/
inductive Convention where
  /-- Names with an upper case letter and no lower case letter are nonterminals. -/
  | uppercase
  /-- Only left sides are nonterminals. -/
  | declared
  deriving DecidableEq, Repr

/-- Whether a name that is no left side of a rule is a nonterminal. -/
def Convention.isNonterminal : Convention → String → Bool
  | .uppercase, name => name.toList.any Text.isUpper && !name.toList.any Text.isLower
  | .declared, _ => false

/-- What a grammar text needs besides itself: the classification of names, and one more way to
write the empty string. -/
structure Config where
  convention : Convention := .uppercase
  epsilon : String := Mark.epsilon
  deriving DecidableEq, Repr

/-- Whether a name stands for the empty string. -/
def Config.isEpsilon (config : Config) (name : String) : Bool :=
  name == config.epsilon || name == Mark.epsilon || name == Mark.underscore

end TopDown
