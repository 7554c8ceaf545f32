import TopDown.Parser
import TopDown.Proofs.Grammar.WellFormed

/-!
# The cells of the parse table

The table of a grammar has a row for every nonterminal and a cell in it for every terminal, the one
that `Grammar.cellOf` says. A cell lists the alternatives that its terminal selects. In a table
without conflicts an alternative that is selected is therefore the only one.

## Main results

* `Grammar.row?_table`, `Grammar.cell?_table`: looking up rows and cells
* `Grammar.mem_selected_iff`, `Lookahead.mem_selectors`: which alternatives a terminal selects
* `Grammar.cellOf_of_isLL1`: the cell of a selected alternative in a table without conflicts
* `Grammar.mem_selected_of_cellOf`: the alternative that a cell predicts is selected
-/

namespace TopDown

theorem Lookahead.mem_selectors {l : Lookahead} {left t : Nat} {α : List Nat} :
    t ∈ l.selectors left α ↔ t ∈ (l.firstOf α).terminals ∨
      (l.firstOf α).nullable = true ∧ t ∈ l.followOf left := by
  rw [selectors]
  split <;> simp_all

namespace Grammar

variable {g : Grammar} {l : Lookahead} {left t : Nat}

/-! ## Looking up -/

theorem row?_table (hleft : g.isNonterminal left = true) :
    (g.table l).row? left = some ⟨left, g.terminals.map (g.cellOf l left)⟩ := by
  have hmem := Catalog.mem_nonterminals.mpr hleft
  have hfind : g.nonterminals.find? (· == left) = some left := by
    cases hfound : g.nonterminals.find? (· == left) with
    | none => exact absurd (beq_self_eq_true left) (List.find?_eq_none.mp hfound left hmem)
    | some found =>
      have heq : found = left := by simpa using List.find?_some hfound
      rw [heq]
  simp only [Table.row?, table, List.find?_map, Function.comp_def, hfind, Option.map_some]

theorem row?_table_eq_none (hleft : g.isNonterminal left = false) :
    (g.table l).row? left = none := by
  have hfind : g.nonterminals.find? (· == left) = none := by
    refine List.find?_eq_none.mpr fun s hs heq => ?_
    obtain rfl : s = left := by simpa using heq
    rw [Catalog.mem_nonterminals.mp hs] at hleft
    cases hleft
  simp only [Table.row?, table, List.find?_map, Function.comp_def, hfind, Option.map_none]

/-- **The cell of a nonterminal and a terminal** is the one that the sets prescribe. -/
theorem cell?_table (hleft : g.isNonterminal left = true) (ht : g.isTerminal t = true) :
    (g.table l).cell? left t = some (g.cellOf l left t) := by
  have hmem := Catalog.mem_terminals.mpr ht
  cases hcolumn : g.terminals.idxOf? t with
  | none => exact absurd hmem (List.idxOf?_eq_none_iff.mp hcolumn)
  | some column =>
    obtain ⟨hlt, heq, -⟩ := List.idxOf?_eq_some_iff.mp hcolumn
    have hget : g.terminals[column]? = some t := List.getElem?_eq_some_iff.mpr ⟨hlt, heq⟩
    rw [Table.cell?, row?_table hleft]
    simp [table, hcolumn, hget]

/-! ## Selected alternatives -/

/-- A terminal selects the alternatives that have it among their selectors. -/
theorem mem_selected_iff {number : Nat} : number ∈ g.selected l left t ↔
    ∃ α, (g.alternatives left)[number]? = some α ∧ t ∈ l.selectors left α := by
  simp only [selected, List.mem_map, List.mem_filter, decide_eq_true_eq, Prod.exists,
    List.mem_zipIdx_iff_getElem?]
  constructor
  · rintro ⟨α, k, ⟨hα, ht⟩, rfl⟩
    exact ⟨α, hα, ht⟩
  · rintro ⟨α, hα, ht⟩
    exact ⟨α, number, ⟨hα, ht⟩, rfl⟩

theorem alternative_eq {number : Nat} {α : List Nat}
    (h : (g.alternatives left)[number]? = some α) : g.alternative left number = α := by
  simp [Catalog.alternative, h]

/-- The alternative that a cell predicts is selected. -/
theorem mem_selected_of_cellOf {number : Nat} {rivals : List Nat}
    (h : g.cellOf l left t = .predict number rivals) : number ∈ g.selected l left t := by
  rw [cellOf] at h
  split at h
  · next first rest hselected =>
    cases h
    rw [hselected]
    exact List.mem_cons_self
  · rw [recovery] at h
    split at h <;> cases h

theorem numbers_cellOf (g : Grammar) (l : Lookahead) (left t : Nat) :
    (g.cellOf l left t).numbers = g.selected l left t := by
  rw [cellOf]
  split
  · next hselected => rw [hselected, Cell.numbers]
  · next hselected =>
    rw [hselected, recovery]
    split <;> rfl

/-- A table has no conflicts if no terminal selects two alternatives. -/
theorem isLL1_table_iff : (g.table l).isLL1 = true ↔ ∀ left, g.isNonterminal left = true →
    ∀ t, g.isTerminal t = true → (g.selected l left t).length ≤ 1 := by
  simp [Table.isLL1, table, Cell.isConflict, numbers_cellOf, Catalog.mem_nonterminals,
    Catalog.mem_terminals]

/-- **In a table without conflicts an alternative that is selected is predicted**, alone. -/
theorem cellOf_of_isLL1 (hll1 : (g.table l).isLL1 = true) (ht : g.isTerminal t = true)
    {number : Nat} {α : List Nat} (hα : (g.alternatives left)[number]? = some α)
    (hselected : t ∈ l.selectors left α) : g.cellOf l left t = .predict number [] := by
  have hmem : number ∈ g.selected l left t := mem_selected_iff.mpr ⟨α, hα, hselected⟩
  have hleft := Catalog.isNonterminal_of_mem (List.mem_of_getElem? hα)
  have hlength := isLL1_table_iff.mp hll1 left hleft t ht
  have heq : g.selected l left t = [number] := by
    obtain ⟨only, honly⟩ := List.length_eq_one_iff.mp
      (Nat.le_antisymm hlength (List.length_pos_of_mem hmem))
    rw [honly] at hmem ⊢
    rw [List.mem_singleton.mp hmem]
  rw [cellOf, heq]

end Grammar

end TopDown
