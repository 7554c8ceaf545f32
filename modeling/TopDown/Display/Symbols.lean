import TopDown.Config
import TopDown.Text.Blank
import TopDown.Text.Cut
import TopDown.Text.Tex

/-!
# Symbols and productions in LaTeX

In a formula a terminal is set as text and a nonterminal as a variable, and the sign of the empty
string has a command. A production that is already one text is taken apart at its arrow; in running
text its two sides are set as they stand, and in a formula the right side symbol by symbol.

## Main definitions

* `latexSymbols`: a string of names in a formula
* `latexProduction`: a production in running text
* `latexFormula`: a production in a formula
-/

namespace TopDown.Display

open Text (Tex.escape Tex.typeset Tex.command)

/-- One name in a formula. -/
def latexSymbol (terminals : List String) (name : String) : String :=
  if name = Mark.epsilon then "\\epsilon"
  else if name ∈ terminals then Tex.command "text" (Tex.escape name)
  else Tex.escape name

/-- A string of names in a formula. -/
def latexSymbols (terminals names : List String) : String :=
  "\\ ".intercalate (names.map (latexSymbol terminals))

/-- The arrow of a production with the spaces around it. -/
def spacedArrow : List Char := [' ', '-', '>', ' ']

/-- The two sides of a production that is one text, divided at its first arrow. -/
def sides? (production : String) : Option (String × String) :=
  (Text.cutAt spacedArrow production.toList).map fun (left, right) =>
    (String.ofList left, String.ofList right)

/-- A production in running text. -/
def latexProduction (production : String) : String :=
  match sides? production with
  | some (left, right) => Tex.typeset left ++ " $\\rightarrow$ " ++ Tex.typeset right
  | none => Tex.typeset production

/-- A production in a formula. -/
def latexFormula (terminals : List String) (production : String) : String :=
  let (left, right) := (sides? production).getD (production, "")
  Tex.escape left ++ " \\rightarrow " ++ latexSymbols terminals (Text.words right.toList)

end TopDown.Display
