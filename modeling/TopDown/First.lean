import TopDown.Grammar.Basic
import TopDown.Iteration
import TopDown.SymbolSet

/-!
# FIRST sets

What a string of symbols can start with: the terminals that come first in some sentential form
derived from it, and whether the empty string is derived. A table holds this for every symbol. It
is computed from the alternatives by passes over the nonterminals in order, each of which works
with the entries that the same pass has already renewed, until a pass changes nothing.

## Main definitions

* `First`: terminals and nullability, with `First.seq` for a string after another and `First.alt`
  for a choice
* `First.ofString`: what a string can start with, according to a table
* `Grammar.firstTable`: the table of a grammar
-/

namespace TopDown

/-- What a string of symbols can start with, and whether it derives the empty string. -/
structure First where
  terminals : SymbolSet
  nullable : Bool
  deriving DecidableEq

namespace First

/-- A string that derives nothing. -/
def nothing : First := ⟨∅, false⟩

/-- The empty string. -/
def vanishing : First := ⟨∅, true⟩

/-- A terminal. -/
def terminal (t : Nat) : First := ⟨{t}, false⟩

/-- A string after another. It can only be seen if the other derives the empty string. -/
def seq (f g : First) : First :=
  if f.nullable then ⟨f.terminals ∪ g.terminals, g.nullable⟩ else f

/-- A choice between two strings. -/
def alt (f g : First) : First :=
  ⟨f.terminals ∪ g.terminals, f.nullable || g.nullable⟩

instance : Inhabited First := ⟨nothing⟩

/-- What a symbol can start with, according to a table. -/
def ofSymbol (table : Array First) (symbol : Nat) : First :=
  table[symbol]?.getD nothing

/-- What a string can start with, according to a table. -/
def ofString (table : Array First) : List Nat → First
  | [] => vanishing
  | symbol :: symbols => (ofSymbol table symbol).seq (ofString table symbols)

/-- What a choice between strings can start with, according to a table. -/
def ofChoice (table : Array First) (choice : List (List Nat)) : First :=
  choice.foldl (fun f symbols => f.alt (ofString table symbols)) nothing

/-- The symbols of a string that can be seen: those up to the first that does not derive the empty
string. -/
def visible (table : Array First) : List Nat → List Nat
  | [] => []
  | symbol :: symbols =>
    symbol :: if (ofSymbol table symbol).nullable then visible table symbols else []

end First

namespace Grammar

/-- The table before the first pass: a terminal starts with itself, and nothing is known of the
nonterminals. -/
def initialFirst (g : Grammar) : Array First :=
  g.entries.mapIdx fun symbol entry =>
    match entry with
    | .terminal _ => First.terminal symbol
    | .nonterminal _ _ => First.nothing

/-- Renews the entry of one nonterminal from its alternatives. -/
def renewFirst (g : Grammar) (table : Array First) (symbol : Nat) : Array First :=
  table.setIfInBounds symbol (First.ofChoice table (g.alternatives symbol))

/-- One pass over the nonterminals in order. -/
def firstPass (g : Grammar) (table : Array First) : Array First :=
  g.nonterminals.foldl g.renewFirst table

/-- A bound on the passes: all but the last make some entry larger, and an entry cannot grow more
often than by each symbol and by its nullability. -/
def firstBound (g : Grammar) : Nat :=
  g.nonterminals.length * (g.size + 1) + 2

/-- What every symbol can start with. -/
def firstTable (g : Grammar) : Stable (Array First) :=
  stabilize g.firstPass g.firstBound g.initialFirst

end Grammar

end TopDown
