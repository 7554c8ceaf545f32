import TopDown.Config

/-!
# Grammars

The symbols of a grammar are kept in a catalog in the order in which they were first met, and are
known by their places there. An entry is a terminal or a nonterminal with its alternatives; an
alternative is a string of symbols, and the empty string is the empty alternative. A nonterminal
may have no alternative at all: then it derives nothing.

A grammar is a catalog with a start symbol and an end mark, the symbol that stands after the last
token.

## Main definitions

* `Catalog`, `Grammar`
* `Catalog.find?`, `Catalog.name?`: from names to symbols and back
* `Catalog.alternatives`: the alternatives of a symbol, none for a terminal
* `Catalog.productionText`: an alternative with its left side, as text
-/

namespace TopDown

/-- What the catalog knows of one symbol. -/
inductive Entry where
  | terminal (name : String)
  | nonterminal (name : String) (alternatives : List (List Nat))
  deriving DecidableEq, Repr

namespace Entry

/-- The name of a symbol. -/
def name : Entry → String
  | terminal name => name
  | nonterminal name _ => name

/-- Whether a symbol is a terminal. -/
def isTerminal : Entry → Bool
  | terminal _ => true
  | nonterminal _ _ => false

/-- The alternatives of a symbol: none for a terminal. -/
def alternatives : Entry → List (List Nat)
  | terminal _ => []
  | nonterminal _ alternatives => alternatives

/-- A nonterminal with one more alternative; a terminal stays as it is. -/
def addAlternative (alternative : List Nat) : Entry → Entry
  | terminal name => terminal name
  | nonterminal name alternatives => nonterminal name (alternatives ++ [alternative])

end Entry

/-- The symbols of a grammar in the order in which they were first met. -/
structure Catalog where
  entries : Array Entry
  deriving DecidableEq, Repr

namespace Catalog

/-- The catalog without symbols. -/
def empty : Catalog := ⟨#[]⟩

/-- The number of symbols. -/
def size (c : Catalog) : Nat := c.entries.size

/-- The symbol of a name. -/
def find? (c : Catalog) (name : String) : Option Nat :=
  c.entries.findIdx? (·.name == name)

/-- The name of a symbol, if there is such a symbol. -/
def name? (c : Catalog) (symbol : Nat) : Option String :=
  c.entries[symbol]?.map Entry.name

/-- The name of a symbol, empty if there is no such symbol. -/
def name (c : Catalog) (symbol : Nat) : String :=
  (c.name? symbol).getD ""

/-- Whether a number is that of a terminal. -/
def isTerminal (c : Catalog) (symbol : Nat) : Bool :=
  c.entries[symbol]?.any Entry.isTerminal

/-- Whether a number is that of a nonterminal. -/
def isNonterminal (c : Catalog) (symbol : Nat) : Bool :=
  c.entries[symbol]?.any fun e => !e.isTerminal

/-- The terminal of a name. -/
def findTerminal? (c : Catalog) (name : String) : Option Nat :=
  (c.find? name).filter c.isTerminal

/-- All terminals, in order. -/
def terminals (c : Catalog) : List Nat :=
  (List.range c.size).filter c.isTerminal

/-- All nonterminals, in order. -/
def nonterminals (c : Catalog) : List Nat :=
  (List.range c.size).filter c.isNonterminal

/-- The alternatives of a symbol, in the order of declaration. -/
def alternatives (c : Catalog) (symbol : Nat) : List (List Nat) :=
  (c.entries[symbol]?.map Entry.alternatives).getD []

/-- One alternative of a symbol; the empty one if there is no such alternative. -/
def alternative (c : Catalog) (symbol number : Nat) : List Nat :=
  (c.alternatives symbol)[number]?.getD []

/-- The names in a string of symbols; the empty string has a sign of its own. -/
def spell (c : Catalog) : List Nat → List String
  | [] => [Mark.epsilon]
  | symbols => symbols.map c.name

/-- An alternative with its left side, as text. -/
def productionText (c : Catalog) (left number : Nat) : String :=
  c.name left ++ " -> " ++ " ".intercalate (c.spell (c.alternative left number))

/-- The catalog with one more symbol. -/
def push (c : Catalog) (entry : Entry) : Catalog :=
  ⟨c.entries.push entry⟩

/-- The catalog with one more alternative for the nonterminal of a name. -/
def addAlternative (c : Catalog) (left : String) (alternative : List Nat) : Catalog :=
  match c.find? left with
  | none => c
  | some symbol => ⟨c.entries.modify symbol (Entry.addAlternative alternative)⟩

end Catalog

/-- A catalog with a start symbol and the symbol that stands after the last token. -/
structure Grammar extends Catalog where
  start : Nat
  finish : Nat
  deriving DecidableEq, Repr

end TopDown
