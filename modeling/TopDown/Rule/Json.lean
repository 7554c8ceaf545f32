import TopDown.Rule
import TopDown.Json.Basic
import TopDown.Json.Reader

/-!
# Rules in JSON

A rule is an object with the members `left`, `alternatives` and `lines`; the last is left out when
there are no lines, and may be left out of what is read. Line numbers have sixty-four bits.
-/

namespace TopDown

open Json (Reader)

/-- The numbers that are read are below this bound: they have sixty-four bits. -/
def wordBound : Nat := UInt64.size

namespace Rule

/-- A rule as a JSON value. -/
def toJson (rule : Rule) : Json :=
  .object <|
    [("left", .string rule.left), ("alternatives", .array (rule.alternatives.map Json.strings))] ++
      if rule.lines.isEmpty then [] else [("lines", .array (rule.lines.map .number))]

/-- A list of rules as a JSON value. -/
def listToJson (rules : List Rule) : Json :=
  .array (rules.map toJson)

/-- The members that have been read. -/
structure Members where
  left : Option String := none
  alternatives : Option (List (List String)) := none
  lines : Option (List Nat) := none

/-- The members of a rule. -/
def fields : List (Reader.Field Members) :=
  [⟨"left", fun m => m.left.isSome, fun m => do
      return { m with left := some (← Reader.string) }⟩,
   ⟨"alternatives", fun m => m.alternatives.isSome, fun m => do
      return { m with alternatives := some (← Reader.list (Reader.list Reader.string)) }⟩,
   ⟨"lines", fun m => m.lines.isSome, fun m => do
      return { m with lines := some (← Reader.list (Reader.natBelow wordBound)) }⟩]

/-- Reads a rule. -/
def reader : Reader Rule := do
  let m ← Reader.record "a rule" fields {}
  match m.left, m.alternatives with
  | some left, some alternatives => return ⟨left, alternatives, m.lines.getD []⟩
  | none, _ => Reader.refuse (.missingField "left")
  | some _, none => Reader.refuse (.missingField "alternatives")

/-- The list of rules that a JSON text denotes. -/
def listOfText (text : String) : Except Json.Refusal (List Rule) :=
  Reader.readDocument (Reader.list reader) text

end Rule

end TopDown
