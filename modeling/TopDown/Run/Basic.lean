import TopDown.Log
import TopDown.Text.Columns
import TopDown.Tree

/-!
# Reports of runs

What a run of a parser leaves behind: a trace with an entry for every step, the tree, the places
where the parser recovered from an error, and the verdict. An entry of the trace shows the stack
and the input as they were before the step, and the action that was taken.

## Main definitions

* `Failure`, `Action`: what a step can do, with `Action.text`
* `TraceEntry`, `RecoveryPoint`, `Run`
* `Run.plain?`, `Run.latex`, `Run.toJson`: the written forms of a run
* `Run.log`: what is reported while a run is made
-/

namespace TopDown

/-- Why a run stopped without accepting. -/
inductive Failure where
  | mismatch (expected found : String)
  | noProduction (nonterminal token : String)
  | stepLimit (limit : Nat)
  | unknownSymbol (symbol : String)
  deriving DecidableEq, Repr

namespace Failure

/-- The wording of a failure. -/
def message : Failure → String
  | mismatch expected found => "expected '" ++ expected ++ "', found '" ++ found ++ "'"
  | noProduction nonterminal token =>
    "no production for " ++ nonterminal ++ " with '" ++ token ++ "'"
  | stepLimit limit => "max-steps limit (" ++ limit.repr ++ ") exceeded"
  | unknownSymbol symbol => "unknown symbol '" ++ symbol ++ "'"

/-- A failure as a JSON value. -/
def toJson : Failure → Json
  | mismatch expected found =>
    .object [("type", .string "mismatch"), ("expected", .string expected), ("found", .string found)]
  | noProduction nonterminal token =>
    .object [("type", .string "no_production"), ("non_terminal", .string nonterminal),
      ("token", .string token)]
  | stepLimit limit =>
    .object [("type", .string "max_steps_exceeded"), ("max_steps", .number limit)]
  | unknownSymbol symbol =>
    .object [("type", .string "unknown_symbol"), ("symbol", .string symbol)]

end Failure

/-- What a step did. -/
inductive Action where
  | accept
  | matchToken (terminal : String)
  | apply (production : String)
  | syncPop (nonterminal : String)
  | skipToken (token : String)
  | error (failure : Failure)
  deriving DecidableEq, Repr

namespace Action

/-- The wording of an action. -/
def text : Action → String
  | accept => "accept"
  | matchToken terminal => "match '" ++ terminal ++ "'"
  | apply production => production
  | syncPop nonterminal => "sync-pop " ++ nonterminal
  | skipToken token => "skip '" ++ token ++ "'"
  | error failure => "error: " ++ failure.message

/-- An action as a JSON value. -/
def toJson : Action → Json
  | accept => .object [("kind", .string "accept")]
  | matchToken terminal => .object [("kind", .string "match"), ("terminal", .string terminal)]
  | apply production => .object [("kind", .string "apply"), ("production", .string production)]
  | syncPop nonterminal =>
    .object [("kind", .string "sync_pop"), ("non_terminal", .string nonterminal)]
  | skipToken token => .object [("kind", .string "skip_token"), ("token", .string token)]
  | error failure => .object [("kind", .string "error"), ("error", failure.toJson)]

end Action

/-- One step: its number, the stack from the bottom to the top and the input before it, and what
it did. -/
structure TraceEntry where
  step : Nat
  stack : List String
  input : List String
  action : Action
  deriving DecidableEq, Repr

/-- A step at which the parser recovered from an error: the token it met, and the nonterminal it
was to expand. -/
structure RecoveryPoint where
  step : Nat
  token : String
  nonterminal : String
  deriving DecidableEq, Repr

/-- All that a run leaves behind. -/
structure Run where
  trace : List TraceEntry
  tree : Tree
  syncPoints : List RecoveryPoint
  skipPoints : List RecoveryPoint
  accepted : Bool
  deriving Repr

/-- An entry of a trace as a JSON value. -/
def TraceEntry.toJson (e : TraceEntry) : Json :=
  .object [("step", .number e.step), ("stack", Json.strings e.stack),
    ("input", Json.strings e.input), ("action", e.action.toJson)]

/-- A place of recovery as a JSON value. -/
def RecoveryPoint.toJson (r : RecoveryPoint) : Json :=
  .object [("step", .number r.step), ("token", .string r.token),
    ("non_terminal", .string r.nonterminal)]

namespace Run

/-- What the last step did. -/
def lastAction? (r : Run) : Option Action :=
  r.trace.getLast?.map TraceEntry.action

/-- Why the run failed, if its last step says so. -/
def failure? (r : Run) : Option Failure :=
  match r.lastAction? with
  | some (.error failure) => some failure
  | _ => none

/-- The numbers of the two kinds of recovery, in parentheses. -/
def recoveries (r : Run) : String :=
  "(" ++ r.syncPoints.length.repr ++ " sync, " ++ r.skipPoints.length.repr ++ " skip)"

/-- A trace as a plain table, if its columns are not too wide. -/
def traceTable? (trace : List TraceEntry) : Option String :=
  Text.alignColumns? <| ["Step", "Stack", "Input", "Action"] :: trace.map fun e =>
    [e.step.repr, " ".intercalate e.stack, " ".intercalate e.input, e.action.text]

/-- The verdict on a run, on a line below its trace. -/
def verdictLine (r : Run) : String :=
  "\n" ++ if r.accepted then "accepted" else "not accepted " ++ r.recoveries

/-- A run as plain text: the table of its trace, if it can be set, and the verdict. -/
def plain? (r : Run) : Option String :=
  (traceTable? r.trace).map (· ++ r.verdictLine)

/-- The trace of a run in LaTeX. -/
def latex (r : Run) : String :=
  Text.Tex.tabular "r|l|r|l" (Text.Tex.row ["Step", "Stack", "Input", "Action"]) <|
    r.trace.map fun e => Text.Tex.row
      [e.step.repr, Text.Tex.escape (" ".intercalate e.stack),
        Text.Tex.escape (" ".intercalate e.input), Text.Tex.typeset e.action.text]

/-- A run as a JSON value. -/
def toJson (r : Run) : Json :=
  .object [("trace", .array (r.trace.map TraceEntry.toJson)), ("tree", r.tree.toJson),
    ("sync_points", .array (r.syncPoints.map RecoveryPoint.toJson)),
    ("skip_points", .array (r.skipPoints.map RecoveryPoint.toJson)),
    ("accepted", .bool r.accepted)]

/-- What is reported about one step. A recovery is announced before its action, and the step that
was not taken for want of steps is a warning only. -/
def entryLog (e : TraceEntry) : List LogRecord :=
  let line (text : String) := "step " ++ e.step.repr ++ ": " ++ text
  let action : LogRecord := ⟨.trace, line e.action.text⟩
  match e.action with
  | .error (.stepLimit _) => [⟨.warn, line e.action.text⟩]
  | .syncPop nonterminal =>
    [⟨.warn, line ("sync-pop " ++ nonterminal ++ " on '" ++ e.input.headD "" ++ "'")⟩, action]
  | .skipToken token =>
    [⟨.warn, line ("skip '" ++ token ++ "' while expanding " ++ e.stack.getLastD "")⟩, action]
  | _ => [action]

/-- What is reported while a run is made. -/
def log (r : Run) : List LogRecord :=
  r.trace.flatMap entryLog ++
    [⟨.info, "parse finished after " ++ r.trace.length.repr ++ " steps: " ++
      (if r.accepted then "accepted " else "rejected ") ++ r.recoveries⟩]

end Run

end TopDown
