import TopDown.CommandLine.Arguments
import TopDown.Config.Json

/-!
# Answering a command line

What the program prints for its arguments, as a function of the files and the standard input that
it finds. The function works in any monad that can look these up, so it runs in the real world and
on a table of files alike. The configuration is read before the grammar, and nothing is printed
but an error message if the grammar cannot be built. Outputs are printed up to the first that
cannot be shown.

## Main definitions

* `World`: where files and the standard input come from
* `Answer`: an exit code and the two output texts
* `answer`: what the program does
-/

namespace TopDown.CommandLine

/-- Why a file cannot be read. -/
inductive FileError where
  | missing
  | directory
  | other (message : String)
  deriving DecidableEq, Repr

/-- The wording of an error of the file system. -/
def FileError.message : FileError → String
  | .missing => "No such file or directory (os error 2)"
  | .directory => "Is a directory (os error 21)"
  | .other message => message

/-- Where files and the standard input come from. -/
structure World (m : Type → Type) where
  file : String → m (Except FileError ByteArray)
  input : m (Except FileError ByteArray)

/-- An exit code, and what is printed to the two outputs. -/
structure Answer where
  code : Nat
  stdout : String := ""
  stderr : String := ""
  deriving DecidableEq, Repr

/-- The text in some bytes, or the wording of the error. -/
def decode : Except FileError ByteArray → Except String String
  | .error e => .error e.message
  | .ok bytes =>
    match String.fromUTF8? bytes with
    | some text => .ok text
    | none => .error "stream did not contain valid UTF-8"

/-- An error about a file, with its name in front. -/
def about {α : Type} (path : String) (result : Except String α) : Except String α :=
  result.mapError fun message => path ++ ": " ++ message

/-- The configuration in a text, or the wording of the error. -/
def readConfig (text : String) : Except String Config :=
  (Config.ofText text).mapError (·.message text)

section

variable {m : Type → Type} [Monad m]

/-- The configuration that a request names. -/
def World.config (world : World m) : Option String → m (Except String Config)
  | none => return .ok {}
  | some path => do
    let contents ← world.file path
    return about path (decode contents >>= readConfig)

/-- The grammar text that a request names, the standard input if it names none. -/
def World.grammarText (world : World m) : Option String → m (Except String String)
  | none => return decode (← world.input)
  | some path => return about path (decode (← world.file path))

/-- The parser that a request is about. -/
def World.parser (world : World m) (request : Request) : m (Except String Parser) := do
  match ← world.config request.config with
  | .error message => return .error message
  | .ok config =>
    match ← world.grammarText request.grammar with
    | .error message => return .error message
    | .ok text =>
      return (do
        let rules ← RuleText.readRules config text
        Parser.build rules request.start config : Except BuildError Parser).mapError
          BuildError.message

end

/-- One output of a request, if it can be shown. -/
def output? (p : Parser) (request : Request) : OutputKind → Option String
  | .grammar topic => p.describe? topic request.format
  | .run topic =>
    (p.run (RuleText.tokens request.input) request.options).describe? topic request.format

/-- The exit code of a program that stops at an output that cannot be shown. -/
def brokenOff : Nat := 101

/-- What is printed for outputs, of which those after one that cannot be shown do not matter. -/
def Answer.ofOutputs : List (Option String) → Answer
  | [] => { code := 0 }
  | some text :: outputs =>
    let rest := ofOutputs outputs
    { rest with stdout := text ++ "\n" ++ rest.stdout }
  | none :: _ => { code := brokenOff, stderr := "error: a column is too wide\n" }

/-- The program and its version. -/
def versionLine : String := "ll1-workbench 0.1.0\n"

/-- How to call the program. -/
def usage : String :=
  "Usage: ll1-workbench [OPTIONS] <OUTPUTS>...\n\n" ++
  "Outputs: prod, nff, ll1, conflicts, trace, tree\n\n" ++
  "Options:\n" ++
  "  -g, --grammar <FILE>      file with the grammar (default: standard input)\n" ++
  "  -s, --start <SYMBOL>      start symbol (default: left side of the first rule)\n" ++
  "  -i, --input <TOKENS>      tokens to parse, divided by white space\n" ++
  "      --max-steps <NUMBER>  limit on the steps of a run (default: 100)\n" ++
  "      --no-recovery         stop at the first error\n" ++
  "  -c, --config <FILE>       JSON file with the configuration\n" ++
  "  -f, --format <FORMAT>     plain, latex or json (default: plain)\n" ++
  "  -h, --help                print this text\n" ++
  "  -V, --version             print the version\n"

/-- What the program prints when there is nothing to do. -/
def Stop.answer : Stop → Answer
  | .misuse => { code := 2, stderr := "error: unexpected arguments\n\n" ++ usage }
  | .version => { code := 0, stdout := versionLine }
  | .help => { code := 0, stdout := usage }

/-- What the program does. -/
def answer {m : Type → Type} [Monad m] (world : World m) (arguments : List String) :
    m Answer := do
  match readArguments arguments with
  | .error stop => return stop.answer
  | .ok request =>
    match ← world.parser request with
    | .error message => return { code := 1, stderr := "error: " ++ message ++ "\n" }
    | .ok p => return .ofOutputs (request.outputs.map (output? p request))

end TopDown.CommandLine
