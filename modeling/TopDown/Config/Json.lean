import TopDown.Config
import TopDown.Json.Basic
import TopDown.Json.Reader

/-!
# Configurations in JSON

A configuration is an object with the members `convention` and `epsilon`, either of which may be
left out for its default.
-/

namespace TopDown

open Json (Reader)

/-- The names of the conventions. -/
def Convention.names : List (String × Convention) :=
  [("uppercase", .uppercase), ("declared", .declared)]

/-- The name of a convention. -/
def Convention.name : Convention → String
  | .uppercase => "uppercase"
  | .declared => "declared"

/-- A convention is found by its name. -/
theorem Convention.lookup_name (convention : Convention) :
    Convention.names.lookup convention.name = some convention := by
  cases convention <;> decide

namespace Config

/-- A configuration as a JSON value. -/
def toJson (config : Config) : Json :=
  .object [("convention", .string config.convention.name), ("epsilon", .string config.epsilon)]

/-- The members that have been read. -/
structure Members where
  convention : Option Convention := none
  epsilon : Option String := none

/-- The members of a configuration. -/
def fields : List (Reader.Field Members) :=
  [⟨"convention", fun m => m.convention.isSome, fun m => do
      return { m with convention := some (← Reader.variant Convention.names) }⟩,
   ⟨"epsilon", fun m => m.epsilon.isSome, fun m => do
      return { m with epsilon := some (← Reader.string) }⟩]

/-- Reads a configuration. -/
def reader : Reader Config := do
  let m ← Reader.record "a configuration" fields {}
  let default : Config := {}
  return ⟨m.convention.getD default.convention, m.epsilon.getD default.epsilon⟩

/-- The configuration that a JSON text denotes. -/
def ofText (text : String) : Except Json.Refusal Config :=
  Reader.readDocument reader text

end Config

end TopDown
