import TopDown.Json.Refusal

/-!
# Reading JSON

A `Reader` takes a value off the front of a text, or refuses the text. The readers here are strict:
no comments, no trailing commas, no leading zeros, no raw control characters in strings, and no
half of a surrogate pair in a string whose value is wanted. A value that nobody asked for is read
over by `skipValue`, which checks its form and not what it denotes.

Values of a structure may be written as an object, whose keys may come in any order, or as an
array of the fields in order (`record`); a name out of a fixed list may be written as a string or
as an object whose one member is null (`variant`).

Loops carry a bound on the number of rounds that is never reached: every round takes at least one
character off the text.
-/

namespace TopDown.Json

/-- A reader takes a value off the front of a text. -/
abbrev Reader := StateT (List Char) (Except Refusal)

namespace Reader

/-- Refuses because of what has been read. -/
def refuse {α : Type} (cause : Cause) : Reader α :=
  fun unread => .error ⟨cause, unread, false⟩

/-- Refuses because of the next character. -/
def refuseNext {α : Type} (cause : Cause) : Reader α :=
  fun unread => .error ⟨cause, unread, true⟩

/-- The four characters that may stand between the tokens. -/
def isSpace (c : Char) : Bool :=
  c == ' ' || c == '\n' || c == '\t' || c == '\r'

/-- The next character that is no space, left in place. -/
def next : Reader (Option Char) := fun unread =>
  let rest := unread.dropWhile isSpace
  .ok (rest.head?, rest)

/-- Takes one character off the text. -/
def advance : Reader Unit :=
  modify List.tail

/-! ## Strings -/

/-- The value of a hexadecimal digit. -/
def hexValue? (c : Char) : Option Nat :=
  let n := c.toNat
  if 48 ≤ n && n ≤ 57 then some (n - 48)
  else if 97 ≤ n && n ≤ 102 then some (n - 87)
  else if 65 ≤ n && n ≤ 70 then some (n - 55)
  else none

/-- Where a string is being read: between characters, after a backslash, in front of some
hexadecimal digits, or in front of the second half of a surrogate pair. -/
inductive StringPlace where
  | between
  | afterBackslash
  | inHex (high : Option Nat) (missing : Nat) (value : Nat)
  | afterHigh (high : Nat)
  | beforeLowHex (high : Nat)

/-- What the letter after a backslash stands for. -/
def shortEscape? : Char → Option Char
  | '"' => some '"'
  | '\\' => some '\\'
  | '/' => some '/'
  | 'b' => some '\x08'
  | 'f' => some '\x0c'
  | 'n' => some '\n'
  | 'r' => some '\r'
  | 't' => some '\t'
  | _ => none

/-- What four hexadecimal digits stand for: a character, or the first half of a pair, or
nothing. -/
inductive Unit16 where
  | char (c : Char)
  | high (n : Nat)
  | invalid

/-- The meaning of a 16 bit unit after an optional first half. -/
def Unit16.ofNat (high : Option Nat) (n : Nat) : Unit16 :=
  match high with
  | some h =>
    if 0xDC00 ≤ n && n ≤ 0xDFFF then
      .char (Char.ofNat (0x10000 + (h - 0xD800) * 0x400 + (n - 0xDC00)))
    else .invalid
  | none =>
    if 0xD800 ≤ n && n ≤ 0xDBFF then .high n
    else if 0xDC00 ≤ n && n ≤ 0xDFFF then .invalid
    else .char (Char.ofNat n)

/-- The characters of a string up to its closing quotation mark, given those read so far in
reverse. A string that is not `strict` may hold any unit, and its value does not matter. -/
def stringRest (strict : Bool) :
    StringPlace → List Char → List Char → Except Refusal (String × List Char)
  | _, _, [] => .error ⟨.endInString, [], false⟩
  | .between, seen, c :: rest =>
    if c = '"' then .ok (String.ofList seen.reverse, rest)
    else if c = '\\' then stringRest strict .afterBackslash seen rest
    else if c.toNat < 0x20 then .error ⟨.controlCharacter, rest, false⟩
    else stringRest strict .between (c :: seen) rest
  | .afterBackslash, seen, c :: rest =>
    if c = 'u' then stringRest strict (.inHex none 3 0) seen rest
    else
      match shortEscape? c with
      | some e => stringRest strict .between (e :: seen) rest
      | none => .error ⟨.badEscape, rest, false⟩
  | .inHex high missing value, seen, c :: rest =>
    match hexValue? c with
    | none => .error ⟨.badEscape, rest, false⟩
    | some d =>
      match missing with
      | m + 1 => stringRest strict (.inHex high m (value * 16 + d)) seen rest
      | 0 =>
        if strict then
          match Unit16.ofNat high (value * 16 + d) with
          | .char e => stringRest strict .between (e :: seen) rest
          | .high h => stringRest strict (.afterHigh h) seen rest
          | .invalid => .error ⟨.unpairedSurrogate, rest, false⟩
        else stringRest strict .between seen rest
  | .afterHigh high, seen, c :: rest =>
    if c = '\\' then stringRest strict (.beforeLowHex high) seen rest
    else .error ⟨.unfinishedPair, rest, false⟩
  | .beforeLowHex high, seen, c :: rest =>
    if c = 'u' then stringRest strict (.inHex (some high) 3 0) seen rest
    else .error ⟨.unfinishedPair, rest, false⟩

/-- A string whose value is wanted. -/
def string : Reader String := do
  match ← next with
  | none => refuseNext .endInValue
  | some '"' => advance; stringRest true .between []
  | some _ => refuseNext (.unexpectedType "a string")

/-! ## Words and numbers -/

/-- The letters of a word that must follow. -/
def word : List Char → Reader Unit
  | [] => pure ()
  | w :: ws => fun
    | [] => .error ⟨.endInValue, [], false⟩
    | c :: rest => if c = w then word ws rest else .error ⟨.expectedWord, rest, false⟩

/-- A number as it is written: its sign, its whole digits, and whether it has a fraction or an
exponent. -/
structure Numeral where
  negative : Bool
  digits : List Char
  whole : Bool

/-- One or more digits. -/
def someDigits : Reader (List Char) := fun unread =>
  match unread.takeWhile Char.isDigit with
  | [] => .error ⟨.badNumber, unread, true⟩
  | ds => .ok (ds, unread.dropWhile Char.isDigit)

/-- The whole digits of a number: a zero alone, or digits that start with another one. -/
def wholeDigits : Reader (List Char) := fun
  | '0' :: c :: rest =>
    if c.isDigit then .error ⟨.badNumber, c :: rest, true⟩ else .ok (['0'], c :: rest)
  | unread => someDigits unread

/-- Takes one of the given characters off the text if it comes next. -/
def optional (accept : Char → Bool) : Reader Bool := fun
  | [] => .ok (false, [])
  | c :: rest => if accept c then .ok (true, rest) else .ok (false, c :: rest)

/-- A number. -/
def numeral : Reader Numeral := do
  let negative ← optional (· == '-')
  let digits ← wholeDigits
  let fraction ← optional (· == '.')
  if fraction then
    let _ ← someDigits
  let exponent ← optional fun c => c == 'e' || c == 'E'
  if exponent then
    let _ ← optional fun c => c == '+' || c == '-'
    let _ ← someDigits
  return ⟨negative, digits, !fraction && !exponent⟩

/-- A natural number below a bound, written without sign, fraction and exponent. -/
def natBelow (bound : Nat) : Reader Nat := do
  match ← next with
  | none => refuseNext .endInValue
  | some c =>
    if c == '-' || c.isDigit then
      let numeral ← numeral
      let n := Nat.ofDigitChars 10 numeral.digits 0
      if numeral.negative || !numeral.whole || bound ≤ n then
        refuse (.unexpectedType "a natural number in range")
      else return n
    else refuseNext (.unexpectedType "a natural number")

/-! ## Arrays and objects -/

/-- The items of an array after its bracket; `first` says that none has been read. -/
def itemsRest {α : Type} (item : Reader α) : Nat → Bool → Reader (List α)
  | 0, _ => refuseNext .endInList
  | bound + 1, first => do
    match ← next with
    | none => refuseNext .endInList
    | some ']' => advance; return []
    | some c =>
      if first then
        let a ← item
        return a :: (← itemsRest item bound false)
      else if c = ',' then
        advance
        match ← next with
        | none => refuseNext .endInValue
        | some ']' => refuseNext .trailingComma
        | some _ =>
          let a ← item
          return a :: (← itemsRest item bound false)
      else refuseNext .expectedListEnd

/-- The items of an array after its bracket. -/
def items {α : Type} (item : Reader α) : Reader (List α) := do
  itemsRest item ((← get).length + 1) true

/-- The colon after a key. -/
def colon : Reader Unit := do
  match ← next with
  | none => refuseNext .endInObject
  | some ':' => advance
  | some _ => refuseNext .expectedColon

/-- The members of an object after its brace. The key is read without its first quotation mark by
`key`, and the value by `value`, which gets what has been collected so far. -/
def membersRest {κ σ : Type} (key : Reader κ) (value : κ → σ → Reader σ) :
    Nat → Bool → σ → Reader σ
  | 0, _, _ => refuseNext .endInObject
  | bound + 1, first, collected => do
    match ← next with
    | none => refuseNext .endInObject
    | some '}' => advance; return collected
    | some c =>
      if first then
        if c = '"' then
          advance
          let k ← key
          colon
          membersRest key value bound false (← value k collected)
        else refuseNext .keyNotString
      else if c = ',' then
        advance
        -- After a comma the object is no longer what is missing: a value is.
        match ← next with
        | none => refuseNext .endInValue
        | some '}' => refuseNext .trailingComma
        | some '"' =>
          advance
          let k ← key
          colon
          membersRest key value bound false (← value k collected)
        | some _ => refuseNext .keyNotString
      else refuseNext .expectedObjectEnd

/-- The members of an object after its brace. -/
def members {κ σ : Type} (key : Reader κ) (value : κ → σ → Reader σ) (collected : σ) :
    Reader σ := do
  membersRest key value ((← get).length + 1) true collected

/-! ## Values that nobody asked for -/

/-- Reads over a value of the given depth at most. -/
def skipWithin : Nat → Reader Unit
  | 0 => refuseNext .endInValue
  | depth + 1 => do
    match ← next with
    | none => refuseNext .endInValue
    | some 'n' => word "null".toList
    | some 't' => word "true".toList
    | some 'f' => word "false".toList
    | some '"' => do
      advance
      let _ ← (stringRest false .between [] : Reader String)
    | some '[' => do
      advance
      let _ ← items (skipWithin depth)
    | some '{' => do
      advance
      members (stringRest false .between [] : Reader String) (fun _ _ => skipWithin depth) ()
    | some c =>
      if c == '-' || c.isDigit then
        let _ ← numeral
      else refuseNext .expectedValue

/-- Reads over a value, checking its form only. -/
def skipValue : Reader Unit := do
  skipWithin ((← get).length + 1)

/-! ## Structures, names and documents -/

/-- A list of values. -/
def list {α : Type} (item : Reader α) : Reader (List α) := do
  match ← next with
  | none => refuseNext .endInValue
  | some '[' => advance; items item
  | some _ => refuseNext (.unexpectedType "a list")

/-- A field of a structure that is being collected in `σ`: its key, whether it is there, and how
its value is read into the collection. -/
structure Field (σ : Type) where
  name : String
  isSet : σ → Bool
  read : σ → Reader σ

/-- The value of one member of a structure written as an object: a known key may come once, and
the value of any other is read over. -/
def fieldValue {σ : Type} (fields : List (Field σ)) (key : String) (collected : σ) : Reader σ :=
  match fields.find? (·.name == key) with
  | none => do skipValue; return collected
  | some field =>
    if field.isSet collected then refuse (.duplicateField field.name)
    else field.read collected

/-- The end of an array whose items have all been read. -/
def listEnd : Reader Unit := do
  match ← next with
  | none => refuseNext .endInList
  | some ']' => advance
  | some ',' => do
    advance
    match ← next with
    | some ']' => refuseNext .trailingComma
    | _ => refuseNext .trailingCharacters
  | some _ => refuseNext .trailingCharacters

/-- A structure written as an array after its bracket: its fields in order, of which the last ones
may be missing. -/
def fieldsInOrder {σ : Type} : List (Field σ) → Bool → σ → Reader σ
  | [], _, collected => do listEnd; return collected
  | field :: fields, first, collected => do
    match ← next with
    | none => refuseNext .endInList
    | some ']' => advance; return collected
    | some c =>
      if first then
        fieldsInOrder fields false (← field.read collected)
      else if c = ',' then
        advance
        match ← next with
        | none => refuseNext .endInValue
        | some ']' => refuseNext .trailingComma
        | some _ => fieldsInOrder fields false (← field.read collected)
      else refuseNext .expectedListEnd

/-- A structure, written as an object or as an array. -/
def record {σ : Type} (expected : String) (fields : List (Field σ)) (collected : σ) :
    Reader σ := do
  match ← next with
  | none => refuseNext .endInValue
  | some '{' => advance; members (stringRest true .between []) (fieldValue fields) collected
  | some '[' => advance; fieldsInOrder fields true collected
  | some _ => refuseNext (.unexpectedType expected)

/-- What a name stands for. -/
def named {α : Type} (table : List (String × α)) : Reader α := do
  let name ← string
  match table.lookup name with
  | some a => return a
  | none => refuse (.unknownVariant name (table.map Prod.fst))

/-- The null value. -/
def nothing : Reader Unit := do
  match ← next with
  | none => refuseNext .endInValue
  | some 'n' => word "null".toList
  | some _ => refuseNext (.unexpectedType "null")

/-- One of some named values: its name, or an object with this name as its key and null as its
value. -/
def variant {α : Type} (table : List (String × α)) : Reader α := do
  match ← next with
  | none => refuseNext .endInValue
  | some '"' => named table
  | some '{' => do
    advance
    let a ← named table
    colon
    nothing
    match ← next with
    | none => refuse .endInObject
    | some '}' => do
      advance
      return a
    | some _ => refuse .expectedValue
  | some _ => refuseNext .expectedValue

/-- A text that holds one value and nothing else. -/
def readDocument {α : Type} (reader : Reader α) (text : String) : Except Refusal α := do
  let (a, unread) ← reader text.toList
  match unread.dropWhile isSpace with
  | [] => .ok a
  | rest => .error ⟨.trailingCharacters, rest, true⟩

end Reader

end TopDown.Json
