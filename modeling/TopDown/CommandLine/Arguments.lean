import TopDown.Display.Output
import TopDown.Run.Options

/-!
# Command line arguments

Arguments are read from left to right: options with their values, and the names of outputs in
between. An option takes its value from the same argument, after an equals sign or right after its
letter, or from the next argument, which must not look like an option. After a double hyphen
everything is the name of an output. The first argument that cannot be read ends the reading, and
so does a request for the version or for help, whichever comes first.

## Main definitions

* `OutputKind`: what can be asked for
* `Settings`: what the arguments have settled so far
* `Stop`: why there is nothing to do after the arguments have been read
* `readArguments`: the request that arguments make
-/

namespace TopDown.CommandLine

/-- What can be asked for. -/
inductive OutputKind where
  | grammar (topic : Topic)
  | run (topic : RunTopic)
  deriving DecidableEq, Repr

/-- The names of the outputs. -/
def outputNames : List (String × OutputKind) :=
  [("prod", .grammar .productions), ("nff", .grammar .sets), ("ll1", .grammar .table),
    ("conflicts", .grammar .conflicts), ("trace", .run .trace), ("tree", .run .tree)]

/-- The names of the forms. -/
def formatNames : List (String × Format) :=
  [("plain", .plain), ("latex", .latex), ("json", .json)]

/-- The options that take a value. -/
inductive ValueOption where
  | grammar
  | start
  | input
  | maxSteps
  | config
  | format
  deriving DecidableEq, Repr

/-- The options that take none. -/
inductive FlagOption where
  | noRecovery
  | version
  | help
  deriving DecidableEq, Repr

/-- An option. -/
inductive AnyOption where
  | value (option : ValueOption)
  | flag (option : FlagOption)
  deriving DecidableEq, Repr

/-- The long names of the options. -/
def longNames : List (String × AnyOption) :=
  [("grammar", .value .grammar), ("start", .value .start), ("input", .value .input),
    ("max-steps", .value .maxSteps), ("config", .value .config), ("format", .value .format),
    ("no-recovery", .flag .noRecovery), ("version", .flag .version), ("help", .flag .help)]

/-- The letters of the options. -/
def shortNames : List (Char × AnyOption) :=
  [('g', .value .grammar), ('s', .value .start), ('i', .value .input), ('c', .value .config),
    ('f', .value .format), ('V', .flag .version), ('h', .flag .help)]

/-- Why there is nothing to do. -/
inductive Stop where
  | misuse
  | version
  | help
  deriving DecidableEq, Repr

/-- What arguments have settled so far. -/
structure Settings where
  outputs : List OutputKind := []
  grammar : Option String := none
  start : Option String := none
  input : Option String := none
  maxSteps : Option Nat := none
  config : Option String := none
  format : Option Format := none
  noRecovery : Bool := false

/-- A natural number below the bound of words, with or without a plus sign. -/
def readCount (text : String) : Option Nat :=
  let digits :=
    match text.toList with
    | '+' :: digits => digits
    | digits => digits
  if digits.isEmpty || !digits.all Char.isDigit then none
  else
    let n := Nat.ofDigitChars 10 digits 0
    if n < wordBound then some n else none

/-- A value for an option that has none yet, if the value can be read. -/
def fill {α : Type} (current value : Option α) : Except Stop (Option α) :=
  if current.isSome || value.isNone then .error .misuse else .ok value

/-- The name of a file, which is never empty. -/
def fileName (text : String) : Option String :=
  if text.isEmpty then none else some text

namespace Settings

/-- Settles an option by a value. -/
def setValue (s : Settings) (option : ValueOption) (value : String) : Except Stop Settings :=
  match option with
  | .grammar => return { s with grammar := ← fill s.grammar (fileName value) }
  | .start => return { s with start := ← fill s.start (some value) }
  | .input => return { s with input := ← fill s.input (some value) }
  | .maxSteps => return { s with maxSteps := ← fill s.maxSteps (readCount value) }
  | .config => return { s with config := ← fill s.config (fileName value) }
  | .format => return { s with format := ← fill s.format (formatNames.lookup value) }

/-- Settles an option without a value. -/
def setFlag (s : Settings) : FlagOption → Except Stop Settings
  | .noRecovery => if s.noRecovery then .error .misuse else .ok { s with noRecovery := true }
  | .version => .error .version
  | .help => .error .help

/-- Adds an output by its name. -/
def addOutput (s : Settings) (name : String) : Except Stop Settings :=
  match outputNames.lookup name with
  | some output => .ok { s with outputs := s.outputs ++ [output] }
  | none => .error .misuse

end Settings

/-- What one argument is. -/
inductive Argument where
  /-- The double hyphen. -/
  | separator
  /-- The name of an output, or a value. -/
  | plain (text : String)
  /-- An option with its attached value. -/
  | option (name : AnyOption) (attached : Option String)
  /-- A name that is no option's. -/
  | unknown

/-- What stands before an equals sign, and what stands after it if there is one. -/
def splitAtEquals (text : List Char) : String × Option String :=
  match Text.cutAt ['='] text with
  | some (name, value) => (String.ofList name, some (String.ofList value))
  | none => (String.ofList text, none)

/-- What is attached to the letter of an option, without an equals sign in front. -/
def attachedToLetter : List Char → Option String
  | [] => none
  | '=' :: value => some (String.ofList value)
  | value => some (String.ofList value)

/-- Recognizes an argument. A single hyphen is no option. -/
def Argument.read (text : String) : Argument :=
  match text.toList with
  | ['-', '-'] => .separator
  | '-' :: '-' :: long =>
    let (name, attached) := splitAtEquals long
    match longNames.lookup name with
    | some found => .option found attached
    | none => .unknown
  | '-' :: letter :: rest =>
    match shortNames.lookup letter with
    | some (.value found) => .option (.value found) (attachedToLetter rest)
    | some (.flag found) => .option (.flag found) none
    | none => .unknown
  | _ => .plain text

/-- Reads arguments, given what those before them have settled. -/
def readFrom (s : Settings) : List String → Except Stop Settings
  | [] => .ok s
  | text :: rest =>
    match Argument.read text with
    | .separator => rest.foldlM Settings.addOutput s
    | .plain name => do readFrom (← s.addOutput name) rest
    | .option (.flag flag) none => do readFrom (← s.setFlag flag) rest
    | .option (.flag _) (some _) => .error .misuse
    | .option (.value option) (some value) => do readFrom (← s.setValue option value) rest
    | .option (.value option) none =>
      match rest with
      | [] => .error .misuse
      | value :: rest =>
        match Argument.read value with
        | .plain value => do readFrom (← s.setValue option value) rest
        | _ => .error .misuse
    | .unknown => .error .misuse

/-- What to do: the outputs to print, and what they are about. -/
structure Request where
  outputs : List OutputKind
  grammar : Option String
  start : Option String
  input : String
  options : RunOptions
  config : Option String
  format : Format

/-- The request that arguments make. At least one output must be asked for. -/
def readArguments (arguments : List String) : Except Stop Request := do
  let s ← readFrom {} arguments
  if s.outputs.isEmpty then .error .misuse
  else
    return {
      outputs := s.outputs
      grammar := s.grammar
      start := s.start
      input := s.input.getD ""
      options := ⟨s.maxSteps.getD 100, if s.noRecovery then .none else .panic⟩
      config := s.config
      format := s.format.getD .plain }

end TopDown.CommandLine
