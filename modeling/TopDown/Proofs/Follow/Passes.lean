import TopDown.Follow
import TopDown.Proofs.Grammar.WellFormed
import TopDown.Proofs.First.Order
import TopDown.Proofs.Iteration

/-!
# The passes for FOLLOW

A pass lets the set of a nonterminal gain what its occurrences contribute, all of it computed from
the sets before the pass (`Grammar.mem_followPass`). Terminals do not mix: where a terminal is after
a pass depends only on where it is before. So each terminal has settled after as many passes as
there are nonterminals, and so have the sets.

## Main definitions

* `Grammar.followStage`: the table after a number of passes

## Main results

* `Grammar.mem_occurrences_iff`: the occurrences, by the alternatives that they are in
* `Grammar.mem_followPass`: what a pass adds
* `Grammar.followStage_settled`: the tables do not change after as many passes as there are
  nonterminals
* `Grammar.followPass_followTable`: the table of a grammar is final
-/

namespace TopDown

open First (ofString)

/-- Tables with the same sets are equal. -/
theorem followTable_ext {table table' : Array SymbolSet} (hsize : table.size = table'.size)
    (h : ∀ s t, t ∈ followOf table s ↔ t ∈ followOf table' s) : table = table' := by
  refine Array.ext hsize fun i hi hi' => ?_
  have heq : followOf table i = followOf table' i := SymbolSet.ext (h i)
  simpa [followOf, hi, hi'] using heq

theorem lt_size_of_mem_followOf {table : Array SymbolSet} {s t : Nat} (h : t ∈ followOf table s) :
    s < table.size := by
  rcases Nat.lt_or_ge s table.size with hlt | hge
  · exact hlt
  · rw [followOf, Array.getElem?_eq_none hge] at h
    exact absurd h (SymbolSet.not_mem_empty t)

/-- An entry that is joined with a set. -/
theorem mem_followOf_modify {table : Array SymbolSet} {added : SymbolSet} {i s t : Nat} :
    t ∈ followOf (table.modify i (· ∪ added)) s ↔
      t ∈ followOf table s ∨ s < table.size ∧ i = s ∧ t ∈ added := by
  rw [followOf, Array.getElem?_modify]
  rcases Nat.lt_or_ge s table.size with hlt | hge
  · by_cases hi : i = s <;> simp [followOf, hi, hlt]
  · simp [followOf, Nat.not_lt.mpr hge]

variable {first : Array First}

theorem Occurrence.mem_contribution {o : Occurrence} {table : Array SymbolSet} {t : Nat} :
    t ∈ o.contribution first table ↔ t ∈ (ofString first o.rest).terminals ∨
      (ofString first o.rest).nullable = true ∧ t ∈ followOf table o.left := by
  rw [contribution]
  split <;> simp_all

namespace Grammar

variable {g : Grammar} {table : Array SymbolSet} {s t : Nat}

/-! ## Occurrences -/

theorem mem_occurrencesIn_iff {o : Occurrence} {left : Nat} {α : List Nat} :
    o ∈ g.occurrencesIn left α ↔ o.left = left ∧ g.isTerminal o.symbol = false ∧
      ∃ before, α = before ++ o.symbol :: o.rest := by
  induction α with
  | nil => simp [occurrencesIn]
  | cons symbol α ih =>
    have hsplit : (∃ before, symbol :: α = before ++ o.symbol :: o.rest) ↔
        (symbol = o.symbol ∧ α = o.rest) ∨ ∃ before, α = before ++ o.symbol :: o.rest := by
      constructor
      · rintro ⟨_ | ⟨b, before⟩, hbefore⟩
        · exact Or.inl (List.cons.inj hbefore)
        · exact Or.inr ⟨before, (List.cons.inj hbefore).2⟩
      · rintro (⟨rfl, rfl⟩ | ⟨before, rfl⟩)
        · exact ⟨[], rfl⟩
        · exact ⟨symbol :: before, rfl⟩
    rw [occurrencesIn, hsplit]
    split
    · next hterminal =>
      rw [ih]
      constructor
      · rintro ⟨hleft, hkind, hbefore⟩
        exact ⟨hleft, hkind, Or.inr hbefore⟩
      · rintro ⟨hleft, hkind, ⟨rfl, -⟩ | hbefore⟩
        · rw [hterminal] at hkind
          cases hkind
        · exact ⟨hleft, hkind, hbefore⟩
    · next hterminal =>
      rw [List.mem_cons, ih]
      constructor
      · rintro (rfl | ⟨hleft, hkind, hbefore⟩)
        · exact ⟨rfl, by simpa using hterminal, Or.inl ⟨rfl, rfl⟩⟩
        · exact ⟨hleft, hkind, Or.inr hbefore⟩
      · rintro ⟨rfl, hkind, ⟨rfl, rfl⟩ | hbefore⟩
        · exact Or.inl rfl
        · exact Or.inr ⟨rfl, hkind, hbefore⟩

/-- The occurrences of a grammar, by the alternatives that they are in. -/
theorem mem_occurrences_iff {o : Occurrence} :
    o ∈ g.occurrences ↔ g.isTerminal o.symbol = false ∧
      ∃ before, before ++ o.symbol :: o.rest ∈ g.alternatives o.left := by
  simp only [occurrences, List.mem_flatMap, mem_occurrencesIn_iff]
  constructor
  · rintro ⟨left, -, α, hα, rfl, hkind, before, rfl⟩
    exact ⟨hkind, before, hα⟩
  · rintro ⟨hkind, before, hα⟩
    exact ⟨o.left, Catalog.mem_nonterminals.mpr (Catalog.isNonterminal_of_mem hα), _, hα, rfl,
      hkind, before, rfl⟩

/-! ## One pass -/

theorem size_followPass : (g.followPass first table).size = table.size := by
  suffices h : ∀ (os : List Occurrence) (new : Array SymbolSet),
      (os.foldl (fun new o => new.modify o.symbol (· ∪ o.contribution first table)) new).size =
        new.size from h _ _
  intro os
  induction os with
  | nil => exact fun _ => rfl
  | cons o os ih =>
    intro new
    rw [List.foldl_cons, ih, Array.size_modify]

/-- **What a pass adds**: the contributions of the occurrences of a symbol. -/
theorem mem_followPass : t ∈ followOf (g.followPass first table) s ↔
    t ∈ followOf table s ∨ s < table.size ∧
      ∃ o ∈ g.occurrences, o.symbol = s ∧ t ∈ o.contribution first table := by
  suffices h : ∀ (os : List Occurrence) (new : Array SymbolSet),
      t ∈ followOf (os.foldl (fun new o => new.modify o.symbol
        (· ∪ o.contribution first table)) new) s ↔
      t ∈ followOf new s ∨ s < new.size ∧
        ∃ o ∈ os, o.symbol = s ∧ t ∈ o.contribution first table from h _ _
  -- What is contributed does not depend on the sets that have been written already.
  intro os
  induction os with
  | nil => simp
  | cons o os ih =>
    intro new
    rw [List.foldl_cons, ih, mem_followOf_modify, Array.size_modify]
    simp only [List.mem_cons, exists_eq_or_imp, and_or_left, or_assoc]

/-- Where a terminal is after a pass depends on where it is before. -/
theorem mem_followPass_congr {table' : Array SymbolSet} (hsize : table.size = table'.size)
    (h : ∀ s, t ∈ followOf table s ↔ t ∈ followOf table' s) (s : Nat) :
    t ∈ followOf (g.followPass first table) s ↔ t ∈ followOf (g.followPass first table') s := by
  simp only [mem_followPass, Occurrence.mem_contribution, h, hsize]

theorem mem_followPass_of_mem (h : t ∈ followOf table s) :
    t ∈ followOf (g.followPass first table) s :=
  mem_followPass.mpr (Or.inl h)

/-- Only nonterminals gain anything. -/
theorem mem_followPass_of_not_isNonterminal (hs : g.isNonterminal s = false)
    (hsize : table.size = g.size) :
    t ∈ followOf (g.followPass first table) s ↔ t ∈ followOf table s := by
  rw [mem_followPass]
  refine or_iff_left ?_
  rintro ⟨hlt, o, ho, rfl, -⟩
  rw [hsize] at hlt
  rw [Catalog.isNonterminal_of_lt hlt (mem_occurrences_iff.mp ho).1] at hs
  cases hs

/-! ## The stages of the iteration -/

/-- The table after a number of passes. -/
def followStage (g : Grammar) (first : Array First) (k : Nat) : Array SymbolSet :=
  (g.followPass first)^[k] g.initialFollow

theorem followStage_succ (g : Grammar) (first : Array First) (k : Nat) :
    g.followStage first (k + 1) = g.followPass first (g.followStage first k) :=
  Function.iterate_succ_apply' _ _ _

theorem size_initialFollow (g : Grammar) : g.initialFollow.size = g.size := by
  simp [initialFollow]

theorem size_followStage (g : Grammar) (first : Array First) (k : Nat) :
    (g.followStage first k).size = g.size := by
  induction k with
  | zero => exact g.size_initialFollow
  | succ k ih => rw [followStage_succ, size_followPass, ih]

/-- The nonterminals that a terminal follows. -/
def followers (g : Grammar) (table : Array SymbolSet) (t : Nat) : Finset Nat :=
  g.nonterminals.toFinset.filter fun s => t ∈ followOf table s

theorem mem_followers :
    s ∈ g.followers table t ↔ g.isNonterminal s = true ∧ t ∈ followOf table s := by
  simp [followers, Catalog.mem_nonterminals]

/-- Symbols other than nonterminals keep the sets they have at first. -/
theorem mem_followStage_of_not_isNonterminal (hs : g.isNonterminal s = false) (k : Nat) :
    t ∈ followOf (g.followStage first k) s ↔ t ∈ followOf g.initialFollow s := by
  induction k with
  | zero => exact Iff.rfl
  | succ k ih =>
    rw [followStage_succ, mem_followPass_of_not_isNonterminal hs (g.size_followStage first k), ih]

/-- Stages in which a terminal follows the same nonterminals agree on it everywhere. -/
theorem mem_followStage_iff_of_followers_eq {i j : Nat}
    (h : g.followers (g.followStage first i) t = g.followers (g.followStage first j) t) (s : Nat) :
    t ∈ followOf (g.followStage first i) s ↔ t ∈ followOf (g.followStage first j) s := by
  cases hs : g.isNonterminal s with
  | true =>
    have hmem := Finset.ext_iff.mp h s
    rw [mem_followers, mem_followers] at hmem
    exact ⟨fun ht => (hmem.mp ⟨hs, ht⟩).2, fun ht => (hmem.mpr ⟨hs, ht⟩).2⟩
  | false =>
    rw [mem_followStage_of_not_isNonterminal hs, mem_followStage_of_not_isNonterminal hs]

/-- A terminal is followed up after as many passes as there are nonterminals. -/
theorem mem_followStage_settled {k : Nat} (hk : g.nonterminals.length ≤ k) (s t : Nat) :
    t ∈ followOf (g.followStage first k) s ↔
      t ∈ followOf (g.followStage first g.nonterminals.length) s := by
  refine mem_followStage_iff_of_followers_eq (settled_of_card_le
    (S := fun k => g.followers (g.followStage first k) t) (U := g.nonterminals.toFinset)
    (fun _ => Finset.filter_subset _ _) (fun k s hs => ?_) (fun k h => ?_)
    (List.toFinset_card_le _) hk) s
  · rw [mem_followers] at hs ⊢
    rw [followStage_succ]
    exact ⟨hs.1, mem_followPass_of_mem hs.2⟩
  · have hagree := mem_followStage_iff_of_followers_eq h
    have hsize : (g.followStage first k).size = (g.followStage first (k + 1)).size := by
      rw [size_followStage, size_followStage]
    ext s
    rw [mem_followers, mem_followers, followStage_succ, followStage_succ,
      mem_followPass_congr hsize hagree]

/-- **The passes settle**: after as many as there are nonterminals, a further one changes
nothing. -/
theorem followStage_settled (g : Grammar) (first : Array First) :
    g.followPass first (g.followStage first g.nonterminals.length) =
      g.followStage first g.nonterminals.length := by
  rw [← followStage_succ]
  refine followTable_ext ?_ fun s t => mem_followStage_settled (Nat.le_succ _) s t
  rw [size_followStage, size_followStage]

/-! ## The final table -/

theorem passes_followTable_le (g : Grammar) (first : Array First) :
    (g.followTable first).passes ≤ g.nonterminals.length + 1 :=
  passes_stabilize_le (g.followStage_settled first)

/-- The bound on the passes is never reached. -/
theorem lt_followBound (g : Grammar) : g.nonterminals.length + 1 < g.followBound := by
  have hle : g.nonterminals.length ≤ g.nonterminals.length * g.size := by
    rcases Nat.eq_zero_or_pos g.nonterminals.length with hzero | hpos
    · simp [hzero]
    · have hsize := g.length_nonterminals_le
      exact Nat.le_mul_of_pos_right _ (by omega)
  rw [followBound]
  omega

/-- The last pass changes nothing. -/
theorem followPass_followTable (g : Grammar) (first : Array First) :
    g.followPass first (g.followTable first).value = (g.followTable first).value :=
  step_stabilize_of_iterate (g.followStage_settled first) g.lt_followBound

theorem size_followTable (g : Grammar) (first : Array First) :
    (g.followTable first).value.size = g.size :=
  stabilizeAfter_induction (P := fun table => table.size = g.size) (g.followPass first)
    (fun _ h => size_followPass.trans h) g.size_initialFollow

/-- The table holds what every occurrence contributes to it. -/
theorem mem_followTable_of_contribution {o : Occurrence} (ho : o ∈ g.occurrences)
    (hlt : o.symbol < g.size) (ht : t ∈ o.contribution first (g.followTable first).value) :
    t ∈ followOf (g.followTable first).value o.symbol := by
  rw [← followPass_followTable]
  refine mem_followPass.mpr (Or.inr ⟨?_, o, ho, rfl, ht⟩)
  rw [size_followTable]
  exact hlt

/-- The end mark follows the start symbol. -/
theorem finish_mem_followTable (hstart : g.start < g.size) :
    g.finish ∈ followOf (g.followTable first).value g.start := by
  refine stabilizeAfter_induction (P := fun table => g.finish ∈ followOf table g.start)
    (g.followPass first) (fun _ => mem_followPass_of_mem) ?_
  simp [followOf, initialFollow, hstart]

end Grammar

end TopDown
