import TopDown.Lookahead

/-!
# The parse table

A row for every nonterminal and a column for every terminal, both in order. A cell lists the
alternatives of the row that the terminal of the column selects. A cell that would list none says
how to recover from the error that the parser has met: give up the nonterminal if the terminal can
follow it or is the end mark, and pass over the token otherwise.

A grammar is LL(1) when no cell lists two alternatives.

## Main definitions

* `Cell`, `Row`, `Table`
* `Grammar.cellOf`: what a cell has to be
* `Grammar.table`: the table
* `Table.cell?`, `Table.isLL1`
-/

namespace TopDown

/-- A cell of the table. -/
inductive Cell where
  /-- The number of the earliest alternative that is selected, and the numbers of the others. -/
  | predict (number : Nat) (rivals : List Nat)
  /-- Give up the nonterminal. -/
  | sync
  /-- Pass over the token. -/
  | skip
  deriving DecidableEq, Repr

/-- The numbers of the alternatives that a cell lists. -/
def Cell.numbers : Cell → List Nat
  | predict number rivals => number :: rivals
  | sync | skip => []

/-- Whether a cell lists two alternatives. -/
def Cell.isConflict (cell : Cell) : Bool :=
  1 < cell.numbers.length

/-- A row of the table. -/
structure Row where
  left : Nat
  cells : List Cell
  deriving DecidableEq, Repr

/-- The parse table: the terminals of its columns, and its rows. -/
structure Table where
  columns : List Nat
  rows : List Row
  deriving DecidableEq, Repr

namespace Table

/-- The row of a nonterminal. -/
def row? (t : Table) (left : Nat) : Option Row :=
  t.rows.find? (·.left == left)

/-- The cell of a nonterminal and a terminal. -/
def cell? (t : Table) (left terminal : Nat) : Option Cell := do
  let row ← t.row? left
  let column ← t.columns.idxOf? terminal
  row.cells[column]?

/-- Whether no cell lists two alternatives. -/
def isLL1 (t : Table) : Bool :=
  t.rows.all fun row => row.cells.all fun cell => !cell.isConflict

end Table

namespace Grammar

/-- The numbers of the alternatives of a left side that a terminal selects, in order. -/
def selected (g : Grammar) (l : Lookahead) (left terminal : Nat) : List Nat :=
  ((g.alternatives left).zipIdx.filter fun a => terminal ∈ l.selectors left a.1).map Prod.snd

/-- How to recover when a terminal selects no alternative of a left side. -/
def recovery (g : Grammar) (l : Lookahead) (left terminal : Nat) : Cell :=
  if terminal = g.finish ∨ terminal ∈ l.followOf left then .sync else .skip

/-- The cell of a left side and a terminal. -/
def cellOf (g : Grammar) (l : Lookahead) (left terminal : Nat) : Cell :=
  match g.selected l left terminal with
  | number :: rivals => .predict number rivals
  | [] => g.recovery l left terminal

/-- The parse table. -/
def table (g : Grammar) (l : Lookahead) : Table where
  columns := g.terminals
  rows := g.nonterminals.map fun left => ⟨left, g.terminals.map (g.cellOf l left)⟩

end Grammar

end TopDown
