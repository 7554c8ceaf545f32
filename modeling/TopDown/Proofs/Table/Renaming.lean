import TopDown.Proofs.Grammar.Renaming
import TopDown.Proofs.Table.Conflicts

/-!
# Tables of renamed grammars

The sets and the table of a grammar are made by passes over the symbols in the order of their
numbers, so grammars that differ in numbers do not go through the same tables on the way. But what
they end with is a matter of derivations only, and derivations are renamed with the symbols
(`Grammar.Renames.derives_iff`). Hence a renamed symbol has the renamed sets; and a cell has the
same content, because it numbers alternatives and not symbols. The conflicts are met in another
order, but each of them has a counterpart.

## Main results

* `Grammar.Renames.mem_firstOf_iff`, `Grammar.Renames.mem_followOf_iff`: renamed sets
* `Grammar.Renames.cell?_eq`, `Grammar.Renames.isLL1_eq`: the same cells, and the same verdict
* `Grammar.Renames.exists_mem_conflicts`: the conflicts of a renamed grammar
-/

namespace TopDown

namespace Conflict

/-- The terminals of a conflict are those of the clashes of its kind and pair. -/
theorem Collects.mem_terminals_iff {clashes : List Clash} {cs : List Conflict}
    (h : Collects clashes cs) {c : Conflict} (hc : c ∈ cs) {t : Nat} :
    t ∈ c.terminals ↔ ∃ clash ∈ clashes, clash.key = c.key ∧ clash.terminal = t := by
  rw [← h.mem_iff]
  constructor
  · intro ht
    exact ⟨c, hc, rfl, ht⟩
  · rintro ⟨d, hd, hkey, ht⟩
    rwa [List.inj_on_of_nodup_map h.nodup hd hc hkey] at ht

end Conflict

/-- A clash is known by its kind and pair and its terminal. -/
theorem Clash.exists_key_iff {clashes : List Clash} {kind : ConflictKind}
    {left earlier later t : Nat} :
    (∃ clash ∈ clashes, clash.key = (kind, left, earlier, later) ∧ clash.terminal = t) ↔
      ⟨kind, left, earlier, later, t⟩ ∈ clashes := by
  constructor
  · rintro ⟨⟨kind, left, earlier, later, t⟩, hclash, hkey, rfl⟩
    cases hkey
    exact hclash
  · intro hclash
    exact ⟨_, hclash, rfl, rfl⟩

namespace Grammar

/-- Only terminals are in conflicts. -/
theorem isTerminal_of_mem_conflicts {g : Grammar} {l : Lookahead} {c : Conflict} {t : Nat}
    (hc : c ∈ g.conflicts l (g.table l)) (ht : t ∈ c.terminals) : g.isTerminal t = true := by
  obtain ⟨clash, hclash, -, rfl⟩ := ((g.collects_conflicts l _).mem_terminals_iff hc).mp ht
  exact (mem_clashes_iff.mp hclash).2.1

namespace Renames

variable {σ : Nat → Nat} {g g' : Grammar} {left s t : Nat} {α β : List Nat}

/-! ## Sets -/

theorem mem_firstOf_iff (h : Renames σ g g') :
    σ t ∈ (g'.lookahead.firstOf (α.map σ)).terminals ↔
      t ∈ (g.lookahead.firstOf α).terminals := by
  rw [Grammar.mem_firstOf_iff, Grammar.mem_firstOf_iff, h.isTerminal_eq,
    h.exists_derives_cons_iff]

theorem nullable_firstOf_eq (h : Renames σ g g') (α : List Nat) :
    (g'.lookahead.firstOf (α.map σ)).nullable = (g.lookahead.firstOf α).nullable := by
  rw [Bool.eq_iff_iff, nullable_firstOf_iff, nullable_firstOf_iff]
  exact h.derives_iff (β := [])

theorem mem_followOf_iff (h : Renames σ g g') (hg : g.WellFormed) (hg' : g'.WellFormed)
    (hs : g.isNonterminal s = true) :
    σ t ∈ g'.lookahead.followOf (σ s) ↔ t ∈ g.lookahead.followOf s := by
  rw [Grammar.mem_followOf_iff hg' ((h.isNonterminal_eq s).trans hs),
    Grammar.mem_followOf_iff hg hs, h.follows_iff]

theorem mem_selectors_iff (h : Renames σ g g') (hg : g.WellFormed) (hg' : g'.WellFormed)
    (hleft : g.isNonterminal left = true) :
    σ t ∈ g'.lookahead.selectors (σ left) (α.map σ) ↔ t ∈ g.lookahead.selectors left α := by
  rw [Lookahead.mem_selectors, Lookahead.mem_selectors, h.mem_firstOf_iff,
    h.nullable_firstOf_eq, h.mem_followOf_iff hg hg' hleft]

/-! ## Cells -/

theorem selected_eq (h : Renames σ g g') (hg : g.WellFormed) (hg' : g'.WellFormed)
    (hleft : g.isNonterminal left = true) (t : Nat) :
    g'.selected g'.lookahead (σ left) (σ t) = g.selected g.lookahead left t := by
  rw [selected, h.alternatives_eq, List.zipIdx_map, List.filter_map, List.map_map, selected]
  congr 1
  refine List.filter_congr fun a _ => ?_
  simp [h.mem_selectors_iff hg hg' hleft]

theorem cellOf_eq (h : Renames σ g g') (hg : g.WellFormed) (hg' : g'.WellFormed)
    (hleft : g.isNonterminal left = true) (t : Nat) :
    g'.cellOf g'.lookahead (σ left) (σ t) = g.cellOf g.lookahead left t := by
  have hrecovery : g'.recovery g'.lookahead (σ left) (σ t) = g.recovery g.lookahead left t := by
    rw [recovery, recovery, ← h.finish]
    simp only [h.injective.eq_iff, h.mem_followOf_iff hg hg' hleft]
  rw [cellOf, h.selected_eq hg hg' hleft, hrecovery, cellOf]

/-- **The cells of a renamed grammar are the same.** -/
theorem cell?_eq (h : Renames σ g g') (hg : g.WellFormed) (hg' : g'.WellFormed) (left t : Nat) :
    (g'.table g'.lookahead).cell? (σ left) (σ t) = (g.table g.lookahead).cell? left t := by
  by_cases hkinds : g.isNonterminal left = true ∧ g.isTerminal t = true
  · obtain ⟨hleft, ht⟩ := hkinds
    rw [cell?_table ((h.isNonterminal_eq left).trans hleft) ((h.isTerminal_eq t).trans ht),
      cell?_table hleft ht, h.cellOf_eq hg hg' hleft]
  · rw [cell?_table_eq_none_iff.mpr hkinds, cell?_table_eq_none_iff]
    rwa [h.isNonterminal_eq, h.isTerminal_eq]

theorem isSome_row?_eq (h : Renames σ g g') (left : Nat) :
    ((g'.table g'.lookahead).row? (σ left)).isSome =
      ((g.table g.lookahead).row? left).isSome := by
  cases hleft : g.isNonterminal left with
  | true => rw [row?_table ((h.isNonterminal_eq left).trans hleft), row?_table hleft]; rfl
  | false =>
    rw [row?_table_eq_none ((h.isNonterminal_eq left).trans hleft), row?_table_eq_none hleft]

/-- **The verdict on a renamed grammar is the same.** -/
theorem isLL1_eq (h : Renames σ g g') (hg : g.WellFormed) (hg' : g'.WellFormed) :
    (g'.table g'.lookahead).isLL1 = (g.table g.lookahead).isLL1 := by
  rw [Bool.eq_iff_iff, isLL1_table_iff, isLL1_table_iff]
  constructor
  · intro hcells left hleft t ht
    rw [← h.selected_eq hg hg' hleft]
    exact hcells _ ((h.isNonterminal_eq left).trans hleft) _ ((h.isTerminal_eq t).trans ht)
  · intro hcells left' hleft' t' ht'
    obtain ⟨left, rfl, hleft⟩ := h.exists_of_isNonterminal hleft'
    obtain ⟨t, rfl, ht⟩ := h.exists_of_isTerminal ht'
    rw [h.selected_eq hg hg' hleft]
    exact hcells left hleft t ht

/-! ## Conflicts -/

theorem clashKind_eq (h : Renames σ g g') (left earlier later t : Nat) :
    g'.clashKind g'.lookahead (σ left) earlier later (σ t) =
      g.clashKind g.lookahead left earlier later t := by
  simp only [clashKind, h.alternative_eq, h.mem_firstOf_iff]

/-- **A renamed pair clashes over the renamed terminals.** -/
theorem mem_clashes_iff (h : Renames σ g g') (hg : g.WellFormed) (hg' : g'.WellFormed)
    {kind : ConflictKind} {left earlier later t : Nat} :
    ⟨kind, σ left, earlier, later, σ t⟩ ∈ g'.clashes g'.lookahead (g'.table g'.lookahead) ↔
      ⟨kind, left, earlier, later, t⟩ ∈ g.clashes g.lookahead (g.table g.lookahead) := by
  rw [Grammar.mem_clashes_iff, Grammar.mem_clashes_iff]
  dsimp only
  rw [h.isNonterminal_eq, h.isTerminal_eq, mem_clashesIn_iff, mem_clashesIn_iff]
  refine and_congr_right fun hleft => ?_
  simp only [h.selected_eq hg hg' hleft, h.clashKind_eq]

/-- **The conflicts of a renamed grammar**: for each conflict there is one of the same kind between
the alternatives with the same numbers, over the renamed terminals. -/
theorem exists_mem_conflicts (h : Renames σ g g') (hg : g.WellFormed) (hg' : g'.WellFormed)
    {c : Conflict} (hc : c ∈ g.conflicts g.lookahead (g.table g.lookahead)) :
    ∃ c' ∈ g'.conflicts g'.lookahead (g'.table g'.lookahead),
      c'.key = (c.kind, σ c.left, c.earlier, c.later) ∧
        ∀ t, σ t ∈ c'.terminals ↔ t ∈ c.terminals := by
  have hcollects := g.collects_conflicts g.lookahead (g.table g.lookahead)
  have hcollects' := g'.collects_conflicts g'.lookahead (g'.table g'.lookahead)
  have hmem : ∀ t, t ∈ c.terminals ↔ _ := fun t => hcollects.mem_terminals_iff hc
  simp only [Conflict.key, Clash.exists_key_iff] at hmem
  obtain ⟨t, ht⟩ := hcollects.nonempty c hc
  have hclash := (h.mem_clashes_iff hg hg').mpr ((hmem t).mp ht)
  obtain ⟨c', hc', hkey, -⟩ := (hcollects'.mem_iff _ _).mpr (Clash.exists_key_iff.mpr hclash)
  refine ⟨c', hc', hkey, fun t => ?_⟩
  rw [hcollects'.mem_terminals_iff hc', hkey, Clash.exists_key_iff, h.mem_clashes_iff hg hg',
    hmem]

end Renames

end Grammar

end TopDown
