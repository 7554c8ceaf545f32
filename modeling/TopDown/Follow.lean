import TopDown.First

/-!
# FOLLOW sets

What can come right after a nonterminal: the end mark after the start symbol, and, wherever an
alternative of a nonterminal `A` holds a nonterminal `B`, all that the rest of the alternative can
start with after `B`, and all that follows `A` if this rest derives the empty string. All
contributions of a pass are computed from the sets that it found, and the passes go on until one
of them adds nothing.

## Main definitions

* `Occurrence`: a nonterminal in an alternative, with what comes after it
* `Grammar.followPass`: one pass
* `Grammar.followTable`: the table of a grammar, given what its symbols can start with
-/

namespace TopDown

/-- A nonterminal in an alternative of a left side, and what comes after it. -/
structure Occurrence where
  left : Nat
  symbol : Nat
  rest : List Nat
  deriving DecidableEq, Repr

/-- What follows a symbol, according to a table. -/
def followOf (table : Array SymbolSet) (symbol : Nat) : SymbolSet :=
  table[symbol]?.getD ∅

/-- What an occurrence lets follow its symbol. -/
def Occurrence.contribution (first : Array First) (table : Array SymbolSet) (o : Occurrence) :
    SymbolSet :=
  let rest := First.ofString first o.rest
  if rest.nullable then rest.terminals ∪ followOf table o.left else rest.terminals

namespace Grammar

/-- The nonterminals in a string, each with what comes after it. -/
def occurrencesIn (g : Grammar) (left : Nat) : List Nat → List Occurrence
  | [] => []
  | symbol :: rest =>
    if g.isTerminal symbol then g.occurrencesIn left rest
    else ⟨left, symbol, rest⟩ :: g.occurrencesIn left rest

/-- All nonterminals in alternatives, in order. -/
def occurrences (g : Grammar) : List Occurrence :=
  g.nonterminals.flatMap fun left => (g.alternatives left).flatMap (g.occurrencesIn left)

/-- The table before the first pass: only the end mark is known to follow the start symbol. -/
def initialFollow (g : Grammar) : Array SymbolSet :=
  (Array.replicate g.size ∅).setIfInBounds g.start {g.finish}

/-- One pass over the occurrences: what each of them contributes is computed from the table as
the pass finds it. -/
def followPass (g : Grammar) (first : Array First) (table : Array SymbolSet) : Array SymbolSet :=
  -- The contribution is taken from `table` and not from `new`, so the order does not matter.
  g.occurrences.foldl (fun new o => new.modify o.symbol (· ∪ o.contribution first table)) table

/-- A bound on the passes: all but the last make some set larger. -/
def followBound (g : Grammar) : Nat :=
  g.nonterminals.length * g.size + 2

/-- What follows every symbol. -/
def followTable (g : Grammar) (first : Array First) : Stable (Array SymbolSet) :=
  stabilize (g.followPass first) g.followBound g.initialFollow

end Grammar

end TopDown
