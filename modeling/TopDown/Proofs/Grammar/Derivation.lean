import TopDown.Grammar.Derivation
import TopDown.Proofs.Grammar.WellFormed

/-!
# Properties of derivations

A derivation from a string of symbols falls apart into derivations from its parts, a terminal
derives only itself, and no derivation brings in the end mark. A derivation tree yields a string of
terminals that its symbol derives.

## Main results

* `Grammar.Derives.exists_append`: a derivation from two strings side by side
* `Grammar.Derives.eq_of_isTerminal`: a terminal derives itself
* `Grammar.Derives.lt_finish`: the end mark is not derived
* `Grammar.IsTree.exists_derives`, `Grammar.IsForest.exists_derives`: the yield of a tree
-/

namespace TopDown

namespace Grammar

variable {g : Grammar} {α β γ : List Nat}

namespace Derives

/-- A derivation from two strings side by side is made of derivations from either of them. -/
theorem exists_append (h : g.Derives (α ++ β) γ) :
    ∃ γ₁ γ₂, γ = γ₁ ++ γ₂ ∧ g.Derives α γ₁ ∧ g.Derives β γ₂ := by
  induction h with
  | refl => exact ⟨α, β, rfl, .refl, .refl⟩
  | @step before after δ symbol _ halt ih =>
    obtain ⟨γ₁, γ₂, heq, h₁, h₂⟩ := ih
    rcases List.append_eq_append_iff.mp heq with ⟨mid, rfl, hmid⟩ | ⟨mid, rfl, hmid⟩
    · cases mid with
      | nil =>
        rw [List.nil_append] at hmid
        rw [List.append_nil] at h₁
        subst hmid
        exact ⟨before, δ ++ after, rfl, h₁, step (β := []) h₂ halt⟩
      | cons first mid =>
        obtain ⟨rfl, rfl⟩ := List.cons.inj hmid
        exact ⟨before ++ (δ ++ mid), γ₂, by simp, h₁.step halt, h₂⟩
    · subst hmid
      exact ⟨γ₁, mid ++ (δ ++ after), by simp, h₁, h₂.step halt⟩

/-- A terminal derives only itself. -/
theorem eq_of_isTerminal {symbol : Nat} (hterminal : g.isTerminal symbol = true)
    (h : g.Derives [symbol] γ) : γ = [symbol] := by
  induction h with
  | refl => rfl
  | @step before after δ other _ halt ih =>
    have hmem : other ∈ [symbol] := by
      rw [← ih]
      simp
    obtain rfl := List.mem_singleton.mp hmem
    have hkind := Catalog.isTerminal_eq_false (Catalog.isNonterminal_of_mem halt)
    rw [hterminal] at hkind
    cases hkind

/-- The end mark, and what is no symbol, is not derived from other symbols. -/
theorem lt_finish (hg : g.WellFormed) (h : g.Derives α β) (hα : ∀ s ∈ α, s < g.finish) :
    ∀ s ∈ β, s < g.finish := by
  induction h with
  | refl => exact hα
  | step _ halt ih =>
    intro s hs
    simp only [List.mem_append] at hs
    rcases hs with hs | hs | hs
    · exact ih s (by simp [hs])
    · exact hg.closed halt s hs
    · exact ih s (by simp [hs])

end Derives

end Grammar

/-! ## The leaves of a tree -/

namespace Tree

@[simp] theorem leavesAll_nil : leavesAll [] = [] := rfl

@[simp] theorem leavesAll_cons (t : Tree) (ts : List Tree) :
    leavesAll (t :: ts) = t.leaves ++ leavesAll ts := rfl

@[simp] theorem leavesAll_append (ts us : List Tree) :
    leavesAll (ts ++ us) = leavesAll ts ++ leavesAll us := by
  induction ts with
  | nil => rfl
  | cons t ts ih => simp [ih]

@[simp] theorem leaves_empty : Tree.empty.leaves = [] := rfl

@[simp] theorem leaves_leafOf (g : Grammar) (symbol : Nat) :
    (g.leafOf symbol).leaves = [g.name symbol] := rfl

@[simp] theorem leaves_nodeOf (g : Grammar) (symbol : Nat) (ts : List Tree) :
    (g.nodeOf symbol ts).leaves = leavesAll ts := rfl

end Tree

namespace Grammar

variable {g : Grammar}

mutual

/-- A derivation tree yields a string of terminals that its symbol derives. -/
theorem IsTree.exists_derives {symbol : Nat} {t : Tree} (h : g.IsTree symbol t) :
    ∃ w, g.Derives [symbol] w ∧ (∀ s ∈ w, g.isTerminal s = true) ∧ w.map g.name = t.leaves := by
  cases h with
  | leaf hterminal => exact ⟨[symbol], .refl, by simpa using hterminal, rfl⟩
  | empty halt => exact ⟨[], .single halt, by simp, rfl⟩
  | node halt hts =>
    obtain ⟨w, hw, hterminal, hleaves⟩ := IsForest.exists_derives hts
    exact ⟨w, (Derives.single halt).trans hw, hterminal, by rw [hleaves, Tree.leaves_nodeOf]⟩

/-- A row of derivation trees yields a string of terminals that its symbols derive. -/
theorem IsForest.exists_derives {α : List Nat} {ts : List Tree} (h : g.IsForest α ts) :
    ∃ w, g.Derives α w ∧ (∀ s ∈ w, g.isTerminal s = true) ∧
      w.map g.name = Tree.leavesAll ts := by
  cases h with
  | nil => exact ⟨[], .refl, by simp, rfl⟩
  | cons ht hts =>
    obtain ⟨w₁, hw₁, hterminal₁, hleaves₁⟩ := IsTree.exists_derives ht
    obtain ⟨w₂, hw₂, hterminal₂, hleaves₂⟩ := IsForest.exists_derives hts
    refine ⟨w₁ ++ w₂, hw₁.append hw₂, fun s hs => ?_, ?_⟩
    · rcases List.mem_append.mp hs with hs | hs
      · exact hterminal₁ s hs
      · exact hterminal₂ s hs
    · rw [List.map_append, hleaves₁, hleaves₂, Tree.leavesAll_cons]

end

/-- A node over trees of the symbols of an alternative is a derivation tree. -/
theorem IsTree.of_isForest {left : Nat} {α : List Nat} {ts : List Tree}
    (halt : α ∈ g.alternatives left) (hne : α ≠ []) (hts : g.IsForest α ts) :
    g.IsTree left (g.nodeOf left ts) := by
  cases α with
  | nil => exact absurd rfl hne
  | cons first α => exact .node halt hts

end Grammar

end TopDown
