import TopDown.Run.Machine

/-!
# From histories to reports

The report of a run is read off its history: symbols become names, steps are numbered from one,
and the end mark is shown below the stack and after the input.

## Main definitions

* `Parser.traceEntry`, `Parser.recoveryPoint?`: what one event adds to the report
* `Parser.report`: the report of a history
* `Parser.run`: the run of a parser on tokens
-/

namespace TopDown.Parser

/-- The symbol that is to be dealt with next, or the end mark. -/
def current (p : Parser) (s : State) : Nat :=
  (s.focus.stack p.grammar).headD p.grammar.finish

/-- A move in words. -/
def action (p : Parser) (e : Event) : Action :=
  let symbol := p.current e.state
  match e.move with
  | .accept => .accept
  | .shift => .matchToken e.state.token
  | .expand number => .apply (p.grammar.productionText symbol number)
  | .giveUp => .syncPop (p.grammar.name symbol)
  | .passOver => .skipToken e.state.token
  | .fail failure => .error failure

/-- The entry of the trace for a numbered event. -/
def traceEntry (p : Parser) (e : Event × Nat) : TraceEntry where
  step := e.2
  stack := ((e.1.state.focus.stack p.grammar).map p.grammar.name).reverse
  input := e.1.state.input ++ [Mark.finish]
  action := p.action e.1

/-- The place of recovery that a numbered event is, if it makes the given move. -/
def recoveryPoint? (p : Parser) (m : Move) (e : Event × Nat) : Option RecoveryPoint :=
  if e.1.move = m then
    some ⟨e.2, e.1.state.token, p.grammar.name (p.current e.1.state)⟩
  else none

/-- The tree at the end of a history. -/
def finalTree (p : Parser) (history : List Event) (start : State) : Tree :=
  ((history.getLast?.map Event.state).getD start).focus.tree p.grammar

/-- The report of a history that begins in a state. -/
def report (p : Parser) (history : List Event) (start : State) : Run :=
  let numbered := history.zipIdx 1
  let syncPoints := numbered.filterMap (p.recoveryPoint? .giveUp)
  let skipPoints := numbered.filterMap (p.recoveryPoint? .passOver)
  { trace := numbered.map p.traceEntry
    tree := p.finalTree history start
    syncPoints
    skipPoints
    accepted :=
      history.getLast?.any (·.move == .accept) && syncPoints.isEmpty && skipPoints.isEmpty }

/-- The run of a parser on tokens. -/
def run (p : Parser) (input : List String) (options : RunOptions) : Run :=
  p.report (p.history input options) (p.initial input)

end TopDown.Parser
