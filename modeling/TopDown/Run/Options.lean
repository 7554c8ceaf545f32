import TopDown.Json.Basic
import TopDown.Json.Reader
import TopDown.Rule.Json

/-!
# Options of a run

A run has a limit on the number of its steps, and either recovers from errors or stops at the
first. In JSON the options are an object with the members `max_steps` and `recovery`, either of
which may be left out for its default.
-/

namespace TopDown

open Json (Reader)

/-- What a parser does when no alternative is selected. -/
inductive Recovery where
  /-- Go by the marks of the table: give up the nonterminal, or pass over the token. -/
  | panic
  /-- Stop. -/
  | none
  deriving DecidableEq, Repr

/-- The names of the ways to recover. -/
def Recovery.names : List (String × Recovery) :=
  [("panic_mode", .panic), ("disabled", .none)]

/-- The name of a way to recover. -/
def Recovery.name : Recovery → String
  | .panic => "panic_mode"
  | .none => "disabled"

/-- A way to recover is found by its name. -/
theorem Recovery.lookup_name (recovery : Recovery) :
    Recovery.names.lookup recovery.name = some recovery := by
  cases recovery <;> decide

/-- The options of a run. -/
structure RunOptions where
  maxSteps : Nat := 100
  recovery : Recovery := .panic
  deriving DecidableEq, Repr

namespace RunOptions

/-- Options as a JSON value. -/
def toJson (options : RunOptions) : Json :=
  .object [("max_steps", .number options.maxSteps), ("recovery", .string options.recovery.name)]

/-- The members that have been read. -/
structure Members where
  maxSteps : Option Nat := .none
  recovery : Option Recovery := .none

/-- The members of options. -/
def fields : List (Reader.Field Members) :=
  [⟨"max_steps", fun m => m.maxSteps.isSome, fun m => do
      return { m with maxSteps := some (← Reader.natBelow wordBound) }⟩,
   ⟨"recovery", fun m => m.recovery.isSome, fun m => do
      return { m with recovery := some (← Reader.variant Recovery.names) }⟩]

/-- Reads options. -/
def reader : Reader RunOptions := do
  let m ← Reader.record "options" fields {}
  let default : RunOptions := {}
  return ⟨m.maxSteps.getD default.maxSteps, m.recovery.getD default.recovery⟩

/-- The options that a JSON text denotes. -/
def ofText (text : String) : Except Json.Refusal RunOptions :=
  Reader.readDocument reader text

end RunOptions

end TopDown
