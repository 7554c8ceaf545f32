import TopDown.BuildError
import TopDown.Grammar.Basic
import TopDown.Rule
import TopDown.Text.Blank

/-!
# Grammars from rules

The symbols of a list of rules are registered in a fixed order: first all left sides, then the
names on the right sides as they come, last the end mark. Names are trimmed before anything is
done with them. A rule that cannot be read stops the construction, and the first such rule is
reported: left sides are looked at before right sides, and the start symbol at the end.

## Main definitions

* `Catalog.declareLeft`: registers the left side of a rule
* `Catalog.addRule`: registers the right sides of a rule
* `Grammar.ofRules`: the grammar of a list of rules, or the first fault
-/

namespace TopDown

namespace Catalog

/-- What is wrong with a trimmed left side, if anything is. -/
def leftFlaw? (config : Config) (left : String) : Option Flaw :=
  if left.isEmpty then some .emptyLeft
  else if Text.hasBlank left then some .blankInLeft
  else if left == Mark.finish || config.isEpsilon left then some .reservedLeft
  else none

/-- Registers the left side of a rule, which stands at a place among the rules, as a nonterminal
if it is new. -/
def declareLeft (config : Config) (c : Catalog) (rule : Rule × Nat) :
    Except BuildError Catalog :=
  let left := Text.trim rule.1.left
  match leftFlaw? config left with
  | some flaw => .error (.malformedRule (rule.1.lineOf 0 rule.2) left flaw)
  | none =>
    match c.find? left with
    | some _ => .ok c
    | none => .ok (c.push (.nonterminal left []))

/-- The symbol of a name, registered if the name is new. -/
def intern (convention : Convention) (c : Catalog) (name : String) : Nat × Catalog :=
  match c.find? name with
  | some symbol => (symbol, c)
  | none =>
    if convention.isNonterminal name then (c.size, c.push (.nonterminal name []))
    else (c.size, c.push (.terminal name))

/-- The symbols of trimmed names, none of which may be reserved. -/
def internAll (config : Config) : List String → Catalog → Except Flaw (List Nat × Catalog)
  | [], c => .ok ([], c)
  | name :: names, c =>
    if config.isEpsilon name then .error .epsilonAmongSymbols
    else if name == Mark.finish then .error .finishOnRight
    else do
      let (symbol, c) := c.intern config.convention name
      let (symbols, c) ← internAll config names c
      return (symbol :: symbols, c)

/-- The symbols of an alternative. The placeholder for the empty string stands alone. -/
def readAlternative (config : Config) (c : Catalog) (names : List String) :
    Except Flaw (List Nat × Catalog) :=
  match names.map Text.trim with
  | [] => .error (.emptyAlternative config.epsilon)
  | [only] => if config.isEpsilon only then .ok ([], c) else internAll config [only] c
  | trimmed => internAll config trimmed c

/-- Registers one alternative of a rule. -/
def addRuleAlternative (config : Config) (rule : Rule) (place : Nat) (c : Catalog)
    (alternative : List String × Nat) : Except BuildError Catalog :=
  let left := Text.trim rule.left
  match c.readAlternative config alternative.1 with
  | .error flaw => .error (.malformedRule (rule.lineOf alternative.2 place) left flaw)
  | .ok (symbols, c) => .ok (c.addAlternative left symbols)

/-- Registers the alternatives of a rule, which stands at a place among the rules. -/
def addRule (config : Config) (c : Catalog) (rule : Rule × Nat) : Except BuildError Catalog :=
  if rule.1.alternatives.isEmpty then
    .error (.malformedRule (rule.1.lineOf 0 rule.2) (Text.trim rule.1.left) .noAlternatives)
  else rule.1.alternatives.zipIdx.foldlM (addRuleAlternative config rule.1 rule.2) c

end Catalog

namespace Grammar

/-- The grammar of a list of rules. The start symbol is the left side of the first rule unless
another left side is named. -/
def ofRules (rules : List Rule) (start : Option String) (config : Config) :
    Except BuildError Grammar :=
  match rules with
  | [] => .error .noRules
  | first :: _ => do
    let placed := rules.zipIdx 1
    let declared ← placed.foldlM (Catalog.declareLeft config) Catalog.empty
    let filled ← placed.foldlM (Catalog.addRule config) declared
    -- Only a left side can be the start symbol, so the name is looked up before right sides.
    let name := Text.trim (start.getD first.left)
    match declared.find? name with
    | none => .error (.unknownStart name)
    | some symbol =>
      return ⟨filled.push (.terminal Mark.finish), symbol, filled.size⟩

end Grammar

end TopDown
