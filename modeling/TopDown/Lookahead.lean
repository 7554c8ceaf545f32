import TopDown.Follow

/-!
# Lookahead: which alternatives a terminal selects

The FIRST and the FOLLOW table of a grammar together say which terminals may come next when a
nonterminal is about to be expanded by an alternative: what the alternative starts with and, if it
derives the empty string, what follows the nonterminal.
-/

namespace TopDown

/-- The tables of a grammar, and the passes that each of them took. -/
structure Lookahead where
  first : Array First
  follow : Array SymbolSet
  firstPasses : Nat
  followPasses : Nat

namespace Lookahead

/-- What a string of symbols can start with. -/
def firstOf (l : Lookahead) (symbols : List Nat) : First :=
  First.ofString l.first symbols

/-- What can come right after a symbol. -/
def followOf (l : Lookahead) (symbol : Nat) : SymbolSet :=
  TopDown.followOf l.follow symbol

/-- The terminals that may come next when a left side is expanded by an alternative. -/
def selectors (l : Lookahead) (left : Nat) (alternative : List Nat) : SymbolSet :=
  let f := l.firstOf alternative
  if f.nullable then f.terminals ∪ l.followOf left else f.terminals

end Lookahead

/-- The tables of a grammar. -/
def Grammar.lookahead (g : Grammar) : Lookahead :=
  let first := g.firstTable
  let follow := g.followTable first.value
  ⟨first.value, follow.value, first.passes, follow.passes⟩

end TopDown
