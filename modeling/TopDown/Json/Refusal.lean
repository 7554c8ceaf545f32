/-!
# Why a JSON text is refused

A refusal names its cause and keeps what had not been read when it arose, which determines the
place that its message gives: lines count from one, and the column is the number of bytes of the
line up to and including the last one that was looked at.

## Main definitions

* `Cause`: the causes
* `Refusal`: a cause and the rest of the text
* `Refusal.message`: the wording, with the place
-/

namespace TopDown.Json

/-- What is wrong with a JSON text, or with the value it denotes. -/
inductive Cause where
  | endInValue
  | endInList
  | endInObject
  | endInString
  | expectedColon
  | expectedListEnd
  | expectedObjectEnd
  | expectedWord
  | expectedValue
  | badEscape
  | unpairedSurrogate
  | unfinishedPair
  | controlCharacter
  | badNumber
  | keyNotString
  | trailingComma
  | trailingCharacters
  | unexpectedType (expected : String)
  | unknownVariant (name : String) (known : List String)
  | duplicateField (name : String)
  | missingField (name : String)

/-- A text and the rest of it at which reading stopped; `ahead` says that the first character of
the rest is the one at fault. -/
structure Refusal where
  cause : Cause
  unread : List Char
  ahead : Bool

/-- A name between backticks. -/
def ticked (name : String) : String :=
  "`" ++ name ++ "`"

/-- The names that would have been right. -/
def expectedNames : List String → String
  | [name] => "expected " ++ ticked name
  | [first, second] => "expected " ++ ticked first ++ " or " ++ ticked second
  | names => "expected one of " ++ ", ".intercalate (names.map ticked)

/-- The wording of a cause. -/
def Cause.message : Cause → String
  | .endInValue => "EOF while parsing a value"
  | .endInList => "EOF while parsing a list"
  | .endInObject => "EOF while parsing an object"
  | .endInString => "EOF while parsing a string"
  | .expectedColon => "expected `:`"
  | .expectedListEnd => "expected `,` or `]`"
  | .expectedObjectEnd => "expected `,` or `\x7d`"
  | .expectedWord => "expected ident"
  | .expectedValue => "expected value"
  | .badEscape => "invalid escape"
  | .unpairedSurrogate => "lone leading surrogate in hex escape"
  | .unfinishedPair => "unexpected end of hex escape"
  | .controlCharacter => "control character (\\u0000-\\u001F) found while parsing a string"
  | .badNumber => "invalid number"
  | .keyNotString => "key must be a string"
  | .trailingComma => "trailing comma"
  | .trailingCharacters => "trailing characters"
  | .unexpectedType expected => "invalid type: expected " ++ expected
  | .unknownVariant name known => "unknown variant " ++ ticked name ++ ", " ++ expectedNames known
  | .duplicateField name => "duplicate field " ++ ticked name
  | .missingField name => "missing field " ++ ticked name

/-- The line and the column after one more character. -/
def stepPlace (place : Nat × Nat) (c : Char) : Nat × Nat :=
  if c = '\n' then (place.1 + 1, 0) else (place.1, place.2 + c.utf8Size)

/-- The line and the column that a text which has been read this far ends at. -/
def placeAfter (read : List Char) : Nat × Nat :=
  read.foldl stepPlace (1, 0)

/-- The place that a refusal of `text` gives. A character at fault is counted with its first byte;
a line feed at fault starts a line. -/
def Refusal.place (r : Refusal) (text : List Char) : Nat × Nat :=
  let read := text.take (text.length - r.unread.length)
  let place := placeAfter read
  match r.ahead, r.unread with
  | true, '\n' :: _ => (place.1 + 1, 0)
  | true, _ :: _ => (place.1, place.2 + 1)
  | _, _ => place

/-- The wording of a refusal of `text`, with the place. -/
def Refusal.message (r : Refusal) (text : String) : String :=
  let (line, column) := r.place text.toList
  r.cause.message ++ " at line " ++ line.repr ++ " column " ++ column.repr

end TopDown.Json
