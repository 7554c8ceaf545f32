import TopDown.Proofs.Follow.Exact
import TopDown.Proofs.Table

/-!
# The parse table is exact

There is a cell for every nonterminal and every terminal, and for nothing else. It lists, in order
of declaration and each of them once, the alternatives that the terminal selects: those that can
start with it, and those that derive the empty string if it follows the nonterminal. A cell that
would list none says how to recover.

FIRST and FOLLOW are exact, so the same can be said without them: a terminal selects an
alternative if it comes first in what the alternative derives, or if the alternative vanishes and
the terminal comes after the nonterminal in what some nonterminal derives
(`Grammar.mem_selectors_iff`). What a cell lists is a matter of derivations only.

## Main results

* `Grammar.pairwise_selected`: the alternatives of a cell are in order of declaration
* `Grammar.cell?_table_eq_none_iff`: where the table has no cell
* `Grammar.mem_selectors_iff`: what selects an alternative, by derivations
* `Grammar.Followed.mem_selectors`: what comes first in a followed string selects an alternative
* `Parser.cell_exact`: the cells of the parser of a list of rules
-/

namespace TopDown

namespace Grammar

variable {g : Grammar} {l : Lookahead} {left t : Nat}

/-! ## The list in a cell -/

/-- The selected alternatives are numbered in increasing order, and so none of them twice. -/
theorem pairwise_selected (g : Grammar) (l : Lookahead) (left t : Nat) :
    (g.selected l left t).Pairwise (· < ·) := by
  have hnumbers : ((g.alternatives left).zipIdx.map Prod.snd).Pairwise (· < ·) := by
    rw [List.zipIdx_map_snd]
    exact List.pairwise_lt_range'
  apply List.Pairwise.sublist _ hnumbers
  apply List.Sublist.map
  exact List.filter_sublist

/-- The first number in a cell is the least: the earliest alternative that is selected. -/
theorem le_of_selected_eq_cons {number : Nat} {rivals : List Nat}
    (h : g.selected l left t = number :: rivals) : ∀ n ∈ g.selected l left t, number ≤ n := by
  have hpairwise := g.pairwise_selected l left t
  rw [h] at hpairwise ⊢
  intro n hn
  rcases List.mem_cons.mp hn with rfl | hn
  · exact Nat.le_refl _
  · have hlt := (List.pairwise_cons.mp hpairwise).1 n hn
    exact Nat.le_of_lt hlt

theorem cellOf_of_selected_eq_nil (h : g.selected l left t = []) :
    g.cellOf l left t = g.recovery l left t := by
  rw [cellOf, h]

/-- The cells of a nonterminal without alternatives say how to recover. -/
theorem cellOf_of_alternatives_eq_nil (h : g.alternatives left = []) :
    g.cellOf l left t = .sync ∨ g.cellOf l left t = .skip := by
  have hselected : g.selected l left t = [] := by simp [selected, h]
  rw [cellOf_of_selected_eq_nil hselected]
  unfold recovery
  split
  · exact Or.inl rfl
  · exact Or.inr rfl

/-! ## Where there is a cell -/

/-- There is no cell except for a nonterminal and a terminal. -/
theorem kinds_of_cell?_table {cell : Cell} (h : (g.table l).cell? left t = some cell) :
    g.isNonterminal left = true ∧ g.isTerminal t = true := by
  have hleft : g.isNonterminal left = true := by
    by_contra hleft
    have hrow : (g.table l).row? left = none := row?_table_eq_none (by simpa using hleft)
    simp [Table.cell?, hrow] at h
  refine ⟨hleft, ?_⟩
  by_contra ht
  have hmem : t ∉ g.terminals := fun hmem => ht (Catalog.mem_terminals.mp hmem)
  have hcolumn : (g.table l).columns.idxOf? t = none := List.idxOf?_eq_none_iff.mpr hmem
  simp [Table.cell?, row?_table hleft, hcolumn] at h

theorem cell?_table_eq_none_iff : (g.table l).cell? left t = none ↔
    ¬ (g.isNonterminal left = true ∧ g.isTerminal t = true) := by
  constructor
  · rintro hnone ⟨hleft, ht⟩
    rw [cell?_table hleft ht] at hnone
    cases hnone
  · intro hkinds
    apply Option.eq_none_iff_forall_ne_some.mpr
    intro cell hcell
    exact hkinds (kinds_of_cell?_table hcell)

/-! ## Selection by derivations -/

/-- Only terminals select anything. -/
theorem isTerminal_of_mem_selectors (hg : g.WellFormed) {α : List Nat}
    (h : t ∈ g.lookahead.selectors left α) : g.isTerminal t = true := by
  rcases Lookahead.mem_selectors.mp h with hfirst | ⟨-, hfollow⟩
  · exact (mem_firstOf_iff.mp hfirst).1
  · exact isTerminal_of_mem_followOf hg hfollow

/-- **Selection, by derivations**: a terminal selects an alternative if it comes first in what the
alternative derives, or if the alternative vanishes and the terminal follows the left side. -/
theorem mem_selectors_iff (hg : g.WellFormed) (hleft : g.isNonterminal left = true)
    (ht : g.isTerminal t = true) {α : List Nat} : t ∈ g.lookahead.selectors left α ↔
      (∃ γ, g.Derives α (t :: γ)) ∨ g.Derives α [] ∧ g.Follows left t := by
  have hfirst : t ∈ (g.lookahead.firstOf α).terminals ↔ ∃ γ, g.Derives α (t :: γ) := by
    rw [mem_firstOf_iff]
    exact and_iff_right ht
  rw [Lookahead.mem_selectors, hfirst, nullable_firstOf_iff, mem_followOf_iff hg hleft]

/-- The terminal that comes first after a symbol has been replaced by an alternative selects this
alternative, if the string is followed. -/
theorem Followed.mem_selectors {α γ : List Nat} (h : g.Followed (left :: γ))
    (hα : α ∈ g.alternatives left) (ht : t ∈ (g.lookahead.firstOf (α ++ γ)).terminals) :
    t ∈ g.lookahead.selectors left α := by
  rw [Lookahead.firstOf, First.ofString_append] at ht
  rw [Lookahead.mem_selectors]
  rcases First.mem_seq.mp ht with ht | ⟨hnull, ht⟩
  · exact Or.inl ht
  · exact Or.inr ⟨hnull, h.1 (Catalog.isNonterminal_of_mem hα) t ht⟩

end Grammar

namespace Parser

/-- **The cells of the table are exact.** There is a cell for every nonterminal and every terminal,
and no other. Let `numbers` be the alternatives of the nonterminal, in increasing order, that can
start with the terminal or else vanish where the terminal follows the nonterminal. If there are
any, the cell predicts the first of them, which is the earliest, with the others as its rivals; if
there is none, the cell gives up the nonterminal at the end mark and at the terminals that follow
the nonterminal, and passes over all other tokens. In particular a nonterminal without
alternatives has only cells of these two kinds. -/
theorem cell_exact {rules : List Rule} {start : Option String} {config : Config} {p : Parser}
    (hp : Parser.build rules start config = .ok p) (left t : Nat) :
    (p.table.cell? left t = none ↔
      ¬ (p.grammar.isNonterminal left = true ∧ p.grammar.isTerminal t = true)) ∧
    (p.grammar.isNonterminal left = true → p.grammar.isTerminal t = true →
      ∃ numbers : List Nat, numbers.Pairwise (· < ·) ∧
        (∀ n, n ∈ numbers ↔ ∃ α, (p.grammar.alternatives left)[n]? = some α ∧
          (t ∈ (p.lookahead.firstOf α).terminals ∨
            (p.lookahead.firstOf α).nullable = true ∧ t ∈ p.lookahead.followOf left)) ∧
        (∀ n, n ∈ numbers ↔ ∃ α, (p.grammar.alternatives left)[n]? = some α ∧
          ((∃ γ, p.grammar.Derives α (t :: γ)) ∨
            p.grammar.Derives α [] ∧ p.grammar.Follows left t)) ∧
        (∀ number rivals, numbers = number :: rivals →
          p.table.cell? left t = some (.predict number rivals) ∧ ∀ n ∈ numbers, number ≤ n) ∧
        (numbers = [] → t = p.grammar.finish ∨ t ∈ p.lookahead.followOf left →
          p.table.cell? left t = some .sync) ∧
        (numbers = [] → ¬ (t = p.grammar.finish ∨ t ∈ p.lookahead.followOf left) →
          p.table.cell? left t = some .skip)) ∧
    (p.grammar.alternatives left = [] → ∀ cell, p.table.cell? left t = some cell →
      cell = .sync ∨ cell = .skip) := by
  obtain ⟨g, hg, rfl⟩ := exists_of_build hp
  refine ⟨Grammar.cell?_table_eq_none_iff, fun hleft ht => ?_, fun hnone cell hcell => ?_⟩
  · have hcell : (generate g).table.cell? left t = some (g.cellOf g.lookahead left t) :=
      Grammar.cell?_table hleft ht
    refine ⟨g.selected g.lookahead left t, g.pairwise_selected _ _ _, ?_, ?_, ?_, ?_, ?_⟩
    · intro n
      simp only [Grammar.mem_selected_iff, Lookahead.mem_selectors]
      exact Iff.rfl
    · intro n
      simp only [Grammar.mem_selected_iff, Grammar.mem_selectors_iff hg hleft ht]
      exact Iff.rfl
    · intro number rivals hselected
      refine ⟨?_, Grammar.le_of_selected_eq_cons hselected⟩
      rw [hcell, Grammar.cellOf, hselected]
    · intro hselected hrecovery
      rw [hcell, Grammar.cellOf_of_selected_eq_nil hselected]
      exact congrArg some (if_pos hrecovery)
    · intro hselected hrecovery
      rw [hcell, Grammar.cellOf_of_selected_eq_nil hselected]
      exact congrArg some (if_neg hrecovery)
  · obtain ⟨hleft, ht⟩ := Grammar.kinds_of_cell?_table hcell
    have hcell' : (generate g).table.cell? left t = some (g.cellOf g.lookahead left t) :=
      Grammar.cell?_table hleft ht
    obtain rfl : g.cellOf g.lookahead left t = cell := Option.some.inj (hcell'.symm.trans hcell)
    exact Grammar.cellOf_of_alternatives_eq_nil hnone

/-- Rules of a nonterminal that vanishes where its own first terminal follows it. -/
def vanishingRules : List Rule :=
  [⟨"S", [["A", "b"]], []⟩, ⟨"A", [["B"]], []⟩, ⟨"B", [["b"], ["_"]], []⟩]

/-- The grammar of these rules. -/
def vanishingGrammar : Grammar :=
  ⟨⟨#[.nonterminal "S" [[1, 3]], .nonterminal "A" [[2]], .nonterminal "B" [[3], []],
    .terminal "b", .terminal "$"]⟩, 0, 4⟩

theorem cell_exact_vanishing :
    build vanishingRules none {} = .ok (generate vanishingGrammar) ∧
      vanishingGrammar.isNonterminal 2 = true ∧ vanishingGrammar.isTerminal 3 = true ∧
      (∃ rivals, (generate vanishingGrammar).table.cell? 2 3 = some (.predict 0 rivals) ∧
        1 ∈ rivals) ∧
      (generate vanishingGrammar).table.cell? 3 3 = none := by
  have hp : build vanishingRules none {} = .ok (generate vanishingGrammar) :=
    build_eq_ok (by decide +kernel)
  have hleft : vanishingGrammar.isNonterminal 2 = true := by decide
  have ht : vanishingGrammar.isTerminal 3 = true := by decide
  refine ⟨hp, hleft, ht, ?_, (cell_exact hp 3 3).1.mpr (by decide)⟩
  obtain ⟨numbers, -, hsets, -, hpredict, -, -⟩ := (cell_exact hp 2 3).2.1 hleft ht
  have hzero : 0 ∈ numbers := (hsets 0).mpr ⟨[3], rfl, by decide⟩
  have hone : 1 ∈ numbers := (hsets 1).mpr ⟨[], rfl, by decide⟩
  cases numbers with
  | nil => cases hzero
  | cons number rivals =>
    obtain ⟨hcell, hle⟩ := hpredict number rivals rfl
    obtain rfl : number = 0 := Nat.le_zero.mp (hle 0 hzero)
    exact ⟨rivals, hcell, (List.mem_cons.mp hone).resolve_left (by decide)⟩

end Parser

end TopDown
