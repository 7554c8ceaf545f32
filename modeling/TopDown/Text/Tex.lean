/-!
# Text in LaTeX

A name may hold any character, and many of them mean something to LaTeX. `escape` replaces each
of these by what prints it: a backslashed character, a braced bracket, or a command. A hyphen
gets an empty group after it when another hyphen follows, since two in a row would be set as a
dash. `typeset` also sets the sign of the empty string as a formula.

Braces are written `\x7b` and `\x7d` in the strings of this module.
-/

namespace TopDown.Text.Tex

/-- What prints one character, given the character that follows it in the same text. -/
def escapeChar (next : Option Char) : Char → String
  | '&' => "\\&"
  | '%' => "\\%"
  | '$' => "\\$"
  | '#' => "\\#"
  | '_' => "\\_"
  | '{' => "\\\x7b"
  | '}' => "\\\x7d"
  | '[' => "\x7b[\x7d"
  | ']' => "\x7b]\x7d"
  | '~' => "\\textasciitilde\x7b\x7d"
  | '^' => "\\textasciicircum\x7b\x7d"
  | '<' => "\\textless\x7b\x7d"
  | '>' => "\\textgreater\x7b\x7d"
  | '!' => "!\x7b\x7d"
  | '\\' => "\\textbackslash\x7b\x7d"
  | '-' => if next = some '-' then "-\x7b\x7d" else "-"
  | c => c.toString

/-- A text, every character of it replaced by what prints it. -/
def escapeChars : List Char → List Char
  | [] => []
  | c :: cs => (escapeChar cs.head? c).toList ++ escapeChars cs

/-- A text, every character of it replaced by what prints it. -/
def escape (s : String) : String :=
  String.ofList (escapeChars s.toList)

/-- The sign of the empty string as a formula of its own. -/
def epsilonFormula : String := "$\\epsilon$"

/-- A text for running prose: escaped, and the sign of the empty string set as a formula. -/
def typeset (s : String) : String :=
  String.ofList <| (escapeChars s.toList).flatMap fun c =>
    if c = 'ε' then epsilonFormula.toList else [c]

/-- A text in a braced group. -/
def braced (s : String) : String :=
  "\x7b" ++ s ++ "\x7d"

/-- A command with one argument. -/
def command (name argument : String) : String :=
  "\\" ++ name ++ braced argument

/-- The end of a row in a table. -/
def rowEnd : String := "\\\\"

/-- Rows of a table, each but the last ended and all on lines of their own. -/
def rows (lines : List String) : String :=
  (rowEnd ++ "\n").intercalate lines

/-- A tabular environment: a column specification, a header line and rows, all of them ended. -/
def tabular (columns header : String) (lines : List String) : String :=
  command "begin" "tabular" ++ braced columns ++ "\n" ++ header ++ rowEnd ++ "\\hline\n" ++
    rows lines ++ rowEnd ++ "\n" ++ command "end" "tabular"

/-- The cells of a row. -/
def row (cells : List String) : String :=
  " & ".intercalate cells

end TopDown.Text.Tex
