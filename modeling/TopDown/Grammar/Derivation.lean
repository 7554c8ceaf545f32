import TopDown.Grammar.Basic
import TopDown.Tree

/-!
# Derivations

What a grammar means, without any table. A string of symbols derives another one if it can be
rewritten into it, a nonterminal at a time, by one of its alternatives. A derivation tree records
such a derivation for one symbol: terminals are leaves, a nonterminal has the symbols of one of its
alternatives below it, and the empty alternative is a leaf with a sign of its own.

## Main definitions

* `Grammar.Derives`: rewriting in any number of steps
* `Grammar.LeftRecursive`: the nonterminals that come back in front of what they derive
* `Grammar.Viable`: the beginnings of sentential forms
* `Grammar.IsTree`, `Grammar.IsForest`: derivation trees, and rows of them

## Main results

* `Grammar.Derives.trans`, `Grammar.Derives.append`: derivations one after the other and side by
  side
* `Grammar.IsForest.append`: rows of trees side by side
-/

namespace TopDown

namespace Grammar

variable (g : Grammar)

/-- Rewriting of strings of symbols: in each step one nonterminal is replaced by one of its
alternatives. -/
inductive Derives (α : List Nat) : List Nat → Prop where
  | refl : Derives α α
  | step {β γ δ : List Nat} {symbol : Nat} (h : Derives α (β ++ symbol :: γ))
      (halt : δ ∈ g.alternatives symbol) : Derives α (β ++ (δ ++ γ))

/-- A nonterminal that derives a string which it stands in front of, in one or more steps. -/
def LeftRecursive (symbol : Nat) : Prop :=
  ∃ α ∈ g.alternatives symbol, ∃ β, g.Derives α (symbol :: β)

/-- A string of symbols that some sentential form begins with. -/
def Viable (α : List Nat) : Prop :=
  ∃ β, g.Derives [g.start] (α ++ β)

variable {g}

namespace Derives

variable {α β γ δ : List Nat}

/-- One derivation after another. -/
theorem trans (h : g.Derives α β) (h' : g.Derives β γ) : g.Derives α γ := by
  induction h' with
  | refl => exact h
  | step _ halt ih => exact ih.step halt

/-- A derivation with symbols around it. -/
theorem between (h : g.Derives α β) (before after : List Nat) :
    g.Derives (before ++ (α ++ after)) (before ++ (β ++ after)) := by
  induction h with
  | refl => exact .refl
  | @step β γ δ symbol _ halt ih =>
    have hin : g.Derives (before ++ (α ++ after)) ((before ++ β) ++ symbol :: (γ ++ after)) := by
      simpa using ih
    simpa using hin.step halt

/-- Two derivations side by side. -/
theorem append (h : g.Derives α β) (h' : g.Derives γ δ) : g.Derives (α ++ γ) (β ++ δ) := by
  have hleft : g.Derives (α ++ γ) (β ++ γ) := by simpa using h.between [] γ
  have hright : g.Derives (β ++ γ) (β ++ δ) := by simpa using h'.between β []
  exact hleft.trans hright

/-- A symbol derives its alternatives. -/
theorem single {symbol : Nat} (h : α ∈ g.alternatives symbol) : g.Derives [symbol] α := by
  have hstep : g.Derives [symbol] ([] ++ (α ++ [])) := step (β := []) (γ := []) .refl h
  simpa using hstep

end Derives

end Grammar

/-- A node for a nonterminal. -/
def Grammar.nodeOf (g : Grammar) (symbol : Nat) (children : List Tree) : Tree :=
  .node .nonterminal (g.name symbol) children

/-- A leaf for a terminal. -/
def Grammar.leafOf (g : Grammar) (symbol : Nat) : Tree :=
  .node .terminal (g.name symbol) []

/-- The leaf that stands for the empty string. -/
def Tree.empty : Tree :=
  .node .epsilon Mark.epsilon []

namespace Grammar

mutual

/-- The derivation trees of a symbol. -/
inductive IsTree (g : Grammar) : Nat → Tree → Prop where
  | leaf {symbol : Nat} (h : g.isTerminal symbol = true) : IsTree g symbol (g.leafOf symbol)
  | empty {symbol : Nat} (h : [] ∈ g.alternatives symbol) :
      IsTree g symbol (g.nodeOf symbol [Tree.empty])
  | node {symbol first : Nat} {α : List Nat} {ts : List Tree}
      (h : first :: α ∈ g.alternatives symbol) (hts : IsForest g (first :: α) ts) :
      IsTree g symbol (g.nodeOf symbol ts)

/-- The rows of derivation trees of the symbols of a string. -/
inductive IsForest (g : Grammar) : List Nat → List Tree → Prop where
  | nil : IsForest g [] []
  | cons {symbol : Nat} {α : List Nat} {t : Tree} {ts : List Tree} (ht : IsTree g symbol t)
      (hts : IsForest g α ts) : IsForest g (symbol :: α) (t :: ts)

end

/-- Rows of derivation trees side by side. -/
theorem IsForest.append {g : Grammar} {α β : List Nat} {ts us : List Tree}
    (hts : g.IsForest α ts) (hus : g.IsForest β us) : g.IsForest (α ++ β) (ts ++ us) := by
  induction α generalizing ts with
  | nil =>
    cases hts
    exact hus
  | cons symbol α ih =>
    cases hts with
    | cons ht hts => exact .cons ht (ih hts)

end Grammar

end TopDown
