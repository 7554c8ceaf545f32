import TopDown.Conflict
import TopDown.Grammar.Construction
import TopDown.Log

/-!
# Predictive parsers

The parser of a grammar: the grammar with its tables and its conflicts. It is generated once and
only read afterwards. A grammar that is not LL(1) has a parser too, which goes by the earliest
alternative of a cell.

## Main definitions

* `Parser`, `Parser.generate`
* `Parser.build`: the parser of a list of rules, or the first fault
* `Parser.log`: what is reported about the generation
* `Parser.first?`: FIRST of any string of numbers
-/

namespace TopDown

/-- A grammar with its tables. -/
structure Parser where
  grammar : Grammar
  lookahead : Lookahead
  table : Table
  conflicts : List Conflict

namespace Parser

/-- The parser of a grammar. -/
def generate (g : Grammar) : Parser :=
  let lookahead := g.lookahead
  let table := g.table lookahead
  ⟨g, lookahead, table, g.conflicts lookahead table⟩

/-- The parser of a list of rules, or the first fault in them. -/
def build (rules : List Rule) (start : Option String) (config : Config) :
    Except BuildError Parser :=
  (Grammar.ofRules rules start config).map generate

/-- What is reported about one conflict. -/
def conflictRecord (p : Parser) (c : Conflict) : LogRecord :=
  ⟨.warn, c.kind.name ++ " on " ++ p.grammar.name c.left ++ ": " ++
    p.grammar.productionText c.left c.earlier ++ " / " ++
    p.grammar.productionText c.left c.later⟩

/-- What is reported about the generation. -/
def log (p : Parser) : List LogRecord :=
  [⟨.debug, "FIRST sets converged after " ++ p.lookahead.firstPasses.repr ++ " passes"⟩,
   ⟨.debug, "FOLLOW sets converged after " ++ p.lookahead.followPasses.repr ++ " passes"⟩] ++
  p.conflicts.map p.conflictRecord ++
  [⟨.debug, "LL(1) table built: " ++ p.table.rows.length.repr ++ " rows x " ++
    p.table.columns.length.repr ++ " columns, " ++ p.conflicts.length.repr ++ " conflicts"⟩]

/-- What a string can start with, unless a number that is no symbol can be seen in it. -/
def first? (p : Parser) (symbols : List Nat) : Option First :=
  if (First.visible p.lookahead.first symbols).all (· < p.grammar.size) then
    some (p.lookahead.firstOf symbols)
  else none

end Parser

end TopDown
