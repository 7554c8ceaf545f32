import TopDown.Json.Basic
import TopDown.Text.Tex

/-!
# Labelled trees

The result of a parse is a tree whose nodes are nonterminals, terminals and signs of the empty
string, labelled with their names. Nothing is assumed of its shape here: any kind of node may have
children.

## Main definitions

* `Tree`, `Tree.leaves`
* `Tree.bracketed`: the tree on one line, children in parentheses
* `Tree.latex`: the tree as LaTeX, in brackets
* `Tree.toJson`: the tree as JSON
-/

namespace TopDown

/-- What a node of a tree stands for. -/
inductive NodeKind where
  | nonterminal
  | terminal
  | epsilon
  deriving DecidableEq, Repr, Inhabited

/-- The name of a kind of node. -/
def NodeKind.name : NodeKind → String
  | .nonterminal => "non_terminal"
  | .terminal => "terminal"
  | .epsilon => "epsilon"

/-- A tree with labelled nodes of three kinds. -/
inductive Tree where
  | node (kind : NodeKind) (label : String) (children : List Tree)
  deriving Repr, Inhabited

namespace Tree

/-- The kind of the root. -/
def kind : Tree → NodeKind
  | node kind _ _ => kind

/-- The label of the root. -/
def label : Tree → String
  | node _ label _ => label

/-- The subtrees below the root. -/
def children : Tree → List Tree
  | node _ _ children => children

mutual

/-- The labels of the terminal nodes, in order. -/
def leaves : Tree → List String
  | node kind label children =>
    (if kind = .terminal then [label] else []) ++ leavesAll children

/-- The labels of the terminal nodes of several trees, in order. -/
def leavesAll : List Tree → List String
  | [] => []
  | t :: ts => t.leaves ++ leavesAll ts

end

mutual

/-- A tree on one line: a label, and the subtrees in parentheses if there are any. -/
def bracketed : Tree → String
  | node _ label [] => label
  | node _ label (t :: ts) =>
    label ++ "(" ++ ", ".intercalate (t.bracketed :: bracketedAll ts) ++ ")"

/-- Several trees on one line each. -/
def bracketedAll : List Tree → List String
  | [] => []
  | t :: ts => t.bracketed :: bracketedAll ts

end

/-- The label of a node in LaTeX. -/
def latexLabel : NodeKind → String → String
  | .epsilon, _ => Text.Tex.epsilonFormula
  | .terminal, label => Text.Tex.command "text" (Text.Tex.escape label)
  | .nonterminal, label => Text.Tex.escape label

mutual

/-- A tree in brackets: its label in braces and its subtrees. -/
def forest : Tree → String
  | node kind label children =>
    "[" ++ Text.Tex.braced (latexLabel kind label) ++ forestAll children ++ "]"

/-- Several trees in brackets, each after a space. -/
def forestAll : List Tree → String
  | [] => ""
  | t :: ts => " " ++ t.forest ++ forestAll ts

end

/-- A tree as an environment that draws bracketed trees. -/
def latex (t : Tree) : String :=
  Text.Tex.command "begin" "forest" ++ "\n" ++ t.forest ++ "\n" ++ Text.Tex.command "end" "forest"

mutual

/-- A tree as a JSON value; nodes without children have no member for them. -/
def toJson : Tree → Json
  | node kind label children =>
    .object <|
      [("label", .string label), ("kind", .string kind.name)] ++
        if children.isEmpty then [] else [("children", .array (toJsonAll children))]

/-- Several trees as JSON values. -/
def toJsonAll : List Tree → List Json
  | [] => []
  | t :: ts => t.toJson :: toJsonAll ts

end

end Tree

end TopDown
