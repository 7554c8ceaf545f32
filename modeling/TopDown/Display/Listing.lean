import TopDown.Display.Symbols
import TopDown.Json.Basic
import TopDown.Parser
import TopDown.Text.Columns

/-!
# The listing of a grammar

The alternatives of a grammar, grouped by their left sides. As plain text the listing is a grammar
text again: the first alternative of a group stands after its left side and an arrow, the others
stand below it after a bar. Nonterminals without alternatives are not listed. Left sides are set in
a column, which must not be too wide.

## Main definitions

* `Listing`, `Parser.listing`
* `Listing.plain?`, `Listing.latex`, `Listing.toJson`
-/

namespace TopDown

/-- A left side with its alternatives, as names. -/
structure ListedGroup where
  left : String
  rights : List (List String)
  deriving DecidableEq, Repr

/-- The groups of a grammar, and the names of its terminals. -/
structure Listing where
  groups : List ListedGroup
  terminals : List String
  deriving DecidableEq, Repr

/-- The nonterminals that have alternatives. -/
def Catalog.defined (c : Catalog) : List Nat :=
  c.nonterminals.filter fun symbol => !(c.alternatives symbol).isEmpty

/-- The listing of the grammar of a parser. -/
def Parser.listing (p : Parser) : Listing where
  groups := p.grammar.defined.map fun left =>
    ⟨p.grammar.name left, (p.grammar.alternatives left).map p.grammar.spell⟩
  terminals := p.grammar.terminals.map p.grammar.name

namespace ListedGroup

/-- The lines of a group; left sides are padded to a width. -/
def plainLines (width : Nat) (group : ListedGroup) : List String :=
  match group.rights with
  | [] => []
  | right :: rights =>
    (Text.padLeft width group.left ++ " -> " ++ " ".intercalate right) ::
      rights.map fun right => Text.padLeft width "" ++ "  | " ++ " ".intercalate right

/-- The row of a group in LaTeX. -/
def latexRow (terminals : List String) (group : ListedGroup) : String :=
  Text.Tex.row [Text.Tex.escape group.left, "\\rightarrow",
    " \\mid ".intercalate (group.rights.map (Display.latexSymbols terminals))]

/-- A group as a JSON value. -/
def toJson (group : ListedGroup) : Json :=
  .object [("left", .string group.left), ("rights", .array (group.rights.map Json.strings))]

end ListedGroup

namespace Listing

/-- The length of the longest left side. -/
def leftWidth (listing : Listing) : Nat :=
  listing.groups.foldr (fun group width => max group.left.length width) 0

/-- The listing as plain text, if the column of the left sides is not too wide. -/
def plain? (listing : Listing) : Option String :=
  if listing.leftWidth < Text.widthBound then
    some ("\n".intercalate (listing.groups.flatMap (ListedGroup.plainLines listing.leftWidth)))
  else none

/-- The listing in LaTeX. -/
def latex (listing : Listing) : String :=
  Text.Tex.rows (("\\[" ++ Text.Tex.command "begin" "array" ++ Text.Tex.braced "cll") ::
    listing.groups.map (ListedGroup.latexRow listing.terminals)) ++
  "\n" ++ Text.Tex.command "end" "array" ++ "\\]"

/-- The listing as a JSON value. -/
def toJson (listing : Listing) : Json :=
  .object [("productions", .array (listing.groups.map ListedGroup.toJson))]

end Listing

end TopDown
