import TopDown.Table

/-!
# Conflicts

Two alternatives of a nonterminal that are selected by the same terminal are in conflict. Where
both can start with the terminal, the conflict is between their FIRST sets; where they cannot, one
of them derives the empty string and the terminal comes out of the FOLLOW set. The two kinds are
reported apart, each pair of alternatives once for each kind, with all the terminals.

A `Clash` is what one cell shows of one pair. Conflicts are listed in the order in which their first
clash is met, going through the table by rows.

## Main definitions

* `Conflict`: a kind, two alternatives and the terminals they compete for
* `Clash`: one pair in one cell
* `Grammar.conflicts`: the conflicts of a table
* `Grammar.suggestion`: what to do about a conflict
-/

namespace TopDown

/-- Where the terminals of a conflict come from. -/
inductive ConflictKind where
  | firstFirst
  | firstFollow
  deriving DecidableEq, Repr

/-- The name of a kind of conflict. -/
def ConflictKind.name : ConflictKind → String
  | .firstFirst => "FIRST/FIRST conflict"
  | .firstFollow => "FIRST/FOLLOW conflict"

/-- Two alternatives of a nonterminal, by number, and the terminals they compete for. -/
structure Conflict where
  kind : ConflictKind
  left : Nat
  earlier : Nat
  later : Nat
  terminals : SymbolSet
  deriving DecidableEq

/-- Two alternatives of a nonterminal that one terminal selects. -/
structure Clash where
  kind : ConflictKind
  left : Nat
  earlier : Nat
  later : Nat
  terminal : Nat
  deriving DecidableEq, Repr

/-- The pairs of an earlier and a later member of a list. -/
def orderedPairs {α : Type} : List α → List (α × α)
  | [] => []
  | a :: as => as.map (a, ·) ++ orderedPairs as

/-- Whether a conflict is of the kind and between the alternatives of a clash. -/
def Conflict.covers (c : Conflict) (clash : Clash) : Bool :=
  c.kind == clash.kind && c.left == clash.left && c.earlier == clash.earlier &&
    c.later == clash.later

/-- Conflicts with one more clash: its terminal joins the conflict that it belongs to, which is
added at the end if there is none. -/
def Conflict.record (clash : Clash) : List Conflict → List Conflict
  | [] => [⟨clash.kind, clash.left, clash.earlier, clash.later, {clash.terminal}⟩]
  | c :: cs =>
    if c.covers clash then { c with terminals := c.terminals.insert clash.terminal } :: cs
    else c :: record clash cs

namespace Grammar

/-- The kind of a clash between two alternatives over a terminal. -/
def clashKind (g : Grammar) (l : Lookahead) (left earlier later terminal : Nat) : ConflictKind :=
  if terminal ∈ (l.firstOf (g.alternative left earlier)).terminals ∧
      terminal ∈ (l.firstOf (g.alternative left later)).terminals then .firstFirst
  else .firstFollow

/-- The clashes in a cell. -/
def clashesIn (g : Grammar) (l : Lookahead) (left terminal : Nat) (cell : Cell) : List Clash :=
  (orderedPairs cell.numbers).map fun (earlier, later) =>
    ⟨g.clashKind l left earlier later terminal, left, earlier, later, terminal⟩

/-- The clashes in a table, by rows. -/
def clashes (g : Grammar) (l : Lookahead) (t : Table) : List Clash :=
  t.rows.flatMap fun row =>
    (t.columns.zip row.cells).flatMap fun (terminal, cell) => g.clashesIn l row.left terminal cell

/-- The conflicts in a table. -/
def conflicts (g : Grammar) (l : Lookahead) (t : Table) : List Conflict :=
  (g.clashes l t).foldl (fun cs clash => Conflict.record clash cs) []

/-- What to do about a conflict. -/
def suggestion (g : Grammar) (c : Conflict) : String :=
  let left := g.name c.left
  let terminals := "\x7b" ++ ", ".intercalate (c.terminals.members.map g.name) ++ "\x7d"
  match c.kind with
  | .firstFirst =>
    "left-factor the alternatives `" ++ g.productionText c.left c.earlier ++ "` and `" ++
      g.productionText c.left c.later ++ "`: both can start with " ++ terminals ++
      ", move the common prefix into " ++ left ++ " and the remainders into a new nonterminal"
  | .firstFollow =>
    left ++ " can derive ε while " ++ terminals ++ " may also follow it; rewrite " ++ left ++
      " so that FIRST of its alternatives and FOLLOW(" ++ left ++ ") are disjoint"

end Grammar

end TopDown
