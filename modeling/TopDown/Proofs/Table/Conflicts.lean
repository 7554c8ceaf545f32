import TopDown.Proofs.Table.Exact

/-!
# The conflicts are exact

Conflicts are met cell by cell, one clash after another, and each clash joins the conflict of its
kind and its pair of alternatives. Whatever the order of the clashes, what is collected in this way
has one conflict for each kind and pair that clashes at all, with the terminals of its clashes
(`Conflict.Collects`). In a table the clashes of a pair are over the terminals that select both
alternatives, and where both can start with the terminal the kind is FIRST/FIRST. So the conflicts
say of each pair which terminals are contested, and why (`Lookahead.Contested`).

## Main definitions

* `Conflict.key`, `Clash.key`: the kind and the pair of alternatives
* `Conflict.Collects`: conflicts that sum up clashes
* `Lookahead.Contested`: the terminals that two alternatives compete for

## Main results

* `Conflict.Collects.foldl`: the conflicts that are met one after the other sum up the clashes
* `Grammar.mem_clashes_iff`: the clashes in a table
* `Grammar.exists_clash_iff`: the clashes of a pair are over its contested terminals
* `Parser.conflicts_exact`: the conflicts of the parser of a list of rules
-/

namespace TopDown

/-! ## Collecting clashes -/

/-- The kind of a conflict, its left side and its two alternatives. -/
def Conflict.key (c : Conflict) : ConflictKind × Nat × Nat × Nat :=
  (c.kind, c.left, c.earlier, c.later)

/-- The kind of a clash, its left side and its two alternatives. -/
def Clash.key (c : Clash) : ConflictKind × Nat × Nat × Nat :=
  (c.kind, c.left, c.earlier, c.later)

namespace Conflict

variable {c : Conflict} {cs : List Conflict} {clash : Clash} {clashes : List Clash}
  {k : ConflictKind × Nat × Nat × Nat} {t : Nat}

theorem covers_iff : c.covers clash = true ↔ c.key = clash.key := by
  simp [covers, key, Clash.key, and_assoc]

/-- The kinds and pairs stay as they are; that of the clash comes last if it is new. -/
theorem map_key_record : (record clash cs).map key =
    if clash.key ∈ cs.map key then cs.map key else cs.map key ++ [clash.key] := by
  induction cs with
  | nil => simp [record, key, Clash.key]
  | cons c cs ih =>
    by_cases hcovers : c.covers clash = true
    · have hkey := covers_iff.mp hcovers
      simp [record, hcovers, ← hkey, key]
    · have hkey : clash.key ≠ c.key := fun heq => hcovers (covers_iff.mpr heq.symm)
      rw [record, if_neg hcovers, List.map_cons, ih]
      by_cases hmem : clash.key ∈ cs.map key
      · simp [hmem]
      · simp [hmem, hkey]

/-- A clash adds its terminal to the conflict of its kind and pair. -/
theorem mem_record : (∃ c ∈ record clash cs, c.key = k ∧ t ∈ c.terminals) ↔
    (∃ c ∈ cs, c.key = k ∧ t ∈ c.terminals) ∨ clash.key = k ∧ clash.terminal = t := by
  induction cs with
  | nil => simp [record, key, Clash.key, eq_comm]
  | cons c cs ih =>
    by_cases hcovers : c.covers clash = true
    · have hkey := covers_iff.mp hcovers
      rw [record, if_pos hcovers]
      simp only [List.mem_cons, exists_eq_or_imp, SymbolSet.mem_insert]
      rw [← hkey]
      constructor
      · rintro (⟨rfl, rfl | ht⟩ | hrest)
        · exact Or.inr ⟨rfl, rfl⟩
        · exact Or.inl (Or.inl ⟨rfl, ht⟩)
        · exact Or.inl (Or.inr hrest)
      · rintro ((⟨rfl, ht⟩ | hrest) | ⟨rfl, rfl⟩)
        · exact Or.inl ⟨rfl, Or.inr ht⟩
        · exact Or.inr hrest
        · exact Or.inl ⟨rfl, Or.inl rfl⟩
    · rw [record, if_neg hcovers]
      simp only [List.mem_cons, exists_eq_or_imp, ih, or_assoc]

/-- No conflict is without terminals. -/
theorem exists_mem_of_mem_record (h : ∀ c ∈ cs, ∃ t, t ∈ c.terminals) :
    ∀ c ∈ record clash cs, ∃ t, t ∈ c.terminals := by
  induction cs with
  | nil =>
    intro c hc
    obtain rfl := List.mem_singleton.mp hc
    exact ⟨clash.terminal, SymbolSet.mem_singleton.mpr rfl⟩
  | cons d cs ih =>
    obtain ⟨hd, hcs⟩ := List.forall_mem_cons.mp h
    intro c hc
    rw [record] at hc
    split at hc
    · rcases List.mem_cons.mp hc with rfl | hc
      · exact ⟨clash.terminal, SymbolSet.mem_insert.mpr (Or.inl rfl)⟩
      · exact hcs c hc
    · rcases List.mem_cons.mp hc with rfl | hc
      · exact hd
      · exact ih hcs c hc

/-- Conflicts that sum up clashes: one for each kind and pair, with the terminals of its clashes. -/
structure Collects (clashes : List Clash) (cs : List Conflict) : Prop where
  nodup : (cs.map key).Nodup
  nonempty : ∀ c ∈ cs, ∃ t, t ∈ c.terminals
  mem_iff : ∀ k t, (∃ c ∈ cs, c.key = k ∧ t ∈ c.terminals) ↔
    ∃ clash ∈ clashes, clash.key = k ∧ clash.terminal = t

namespace Collects

theorem nil : Collects [] [] where
  nodup := List.nodup_nil
  nonempty := by simp
  mem_iff := by simp

theorem record (h : Collects clashes cs) (clash : Clash) :
    Collects (clashes ++ [clash]) (Conflict.record clash cs) where
  nodup := by
    rw [map_key_record]
    split
    · exact h.nodup
    · next hnew =>
      rw [List.nodup_append]
      refine ⟨h.nodup, List.nodup_singleton _, ?_⟩
      rintro k hk k' hk' rfl
      rw [List.mem_singleton.mp hk'] at hk
      exact hnew hk
  nonempty := exists_mem_of_mem_record h.nonempty
  mem_iff k t := by
    rw [mem_record, h.mem_iff]
    simp [or_and_right, exists_or]

/-- **Clashes that are met one after the other are summed up.** -/
theorem foldl (h : Collects clashes cs) (more : List Clash) :
    Collects (clashes ++ more) (more.foldl (fun cs clash => Conflict.record clash cs) cs) := by
  induction more generalizing clashes cs with
  | nil => simpa using h
  | cons clash more ih =>
    have hnext := ih (h.record clash)
    rwa [List.append_assoc, List.singleton_append] at hnext

/-- There is one conflict of a kind and pair that clashes, with the terminals of the clashes. -/
theorem filter_eq_singleton (h : Collects clashes cs)
    (hk : ∃ t, ∃ clash ∈ clashes, clash.key = k ∧ clash.terminal = t) :
    ∃ c, cs.filter (·.key = k) = [c] ∧
      ∀ t, t ∈ c.terminals ↔ ∃ clash ∈ clashes, clash.key = k ∧ clash.terminal = t := by
  obtain ⟨t, hclash⟩ := hk
  obtain ⟨c, hc, hkey, -⟩ := (h.mem_iff k t).mpr hclash
  have hunique : ∀ d ∈ cs, d.key = k → d = c := by
    intro d hd hdkey
    exact List.inj_on_of_nodup_map h.nodup hd hc (hdkey.trans hkey.symm)
  refine ⟨c, ?_, fun t => ?_⟩
  · have hnodup : (cs.filter (·.key = k)).Nodup := (h.nodup.of_map _).filter _
    apply List.perm_singleton.mp
    apply (List.perm_ext_iff_of_nodup hnodup (List.nodup_singleton c)).mpr
    intro d
    rw [List.mem_filter, List.mem_singleton]
    constructor
    · rintro ⟨hd, hdkey⟩
      exact hunique d hd (by simpa using hdkey)
    · rintro rfl
      exact ⟨hc, by simpa using hkey⟩
  · rw [← h.mem_iff]
    constructor
    · intro ht
      exact ⟨c, hc, hkey, ht⟩
    · rintro ⟨d, hd, hdkey, ht⟩
      rwa [hunique d hd hdkey] at ht

/-- There is no conflict of a kind and pair that does not clash. -/
theorem filter_eq_nil (h : Collects clashes cs)
    (hk : ¬ ∃ t, ∃ clash ∈ clashes, clash.key = k ∧ clash.terminal = t) :
    cs.filter (·.key = k) = [] := by
  rw [List.filter_eq_nil_iff]
  intro c hc hkey
  obtain ⟨t, ht⟩ := h.nonempty c hc
  exact hk ⟨t, (h.mem_iff k t).mp ⟨c, hc, by simpa using hkey, ht⟩⟩

end Collects

end Conflict

/-! ## Pairs in a list -/

/-- The pairs of a list in increasing order are the pairs of members of which one is less. -/
theorem mem_orderedPairs_iff {ns : List Nat} (h : ns.Pairwise (· < ·)) {a b : Nat} :
    (a, b) ∈ orderedPairs ns ↔ a ∈ ns ∧ b ∈ ns ∧ a < b := by
  induction ns with
  | nil => simp [orderedPairs]
  | cons n ns ih =>
    obtain ⟨hn, hns⟩ := List.pairwise_cons.mp h
    have hhead : (a, b) ∈ ns.map (n, ·) ↔ a = n ∧ b ∈ ns := by
      simp [eq_comm, and_comm]
    rw [orderedPairs, List.mem_append, hhead, ih hns]
    constructor
    · rintro (⟨rfl, hb⟩ | ⟨ha, hb, hlt⟩)
      · exact ⟨List.mem_cons_self, List.mem_cons_of_mem _ hb, hn b hb⟩
      · exact ⟨List.mem_cons_of_mem _ ha, List.mem_cons_of_mem _ hb, hlt⟩
    · rintro ⟨ha, hb, hlt⟩
      have hlater : b ∈ ns := by
        rcases List.mem_cons.mp ha with rfl | hmem
        · exact (List.mem_cons.mp hb).resolve_left (Nat.ne_of_gt hlt)
        · have hna := hn a hmem
          exact (List.mem_cons.mp hb).resolve_left (by omega)
      rcases List.mem_cons.mp ha with rfl | hmem
      · exact Or.inl ⟨rfl, hlater⟩
      · exact Or.inr ⟨hmem, hlater, hlt⟩

/-! ## The clashes in a table -/

namespace Lookahead

variable {l : Lookahead} {left t : Nat} {α β : List Nat}

/-- The terminals that two alternatives of a left side compete for. Those that both can start with
are contested between their FIRST sets; the others that select both are contested between a FIRST
set and the FOLLOW set of the left side. -/
def Contested (l : Lookahead) (left : Nat) (α β : List Nat) (t : Nat) : ConflictKind → Prop
  | .firstFirst => t ∈ (l.firstOf α).terminals ∧ t ∈ (l.firstOf β).terminals
  | .firstFollow => (t ∈ l.selectors left α ∧ t ∈ l.selectors left β) ∧
      ¬ (t ∈ (l.firstOf α).terminals ∧ t ∈ (l.firstOf β).terminals)

instance (kind : ConflictKind) : Decidable (l.Contested left α β t kind) :=
  match kind with
  | .firstFirst => inferInstanceAs (Decidable (_ ∧ _))
  | .firstFollow => inferInstanceAs (Decidable (_ ∧ _))

theorem Contested.selects {kind : ConflictKind} (h : l.Contested left α β t kind) :
    t ∈ l.selectors left α ∧ t ∈ l.selectors left β := by
  cases kind with
  | firstFirst => exact ⟨mem_selectors.mpr (Or.inl h.1), mem_selectors.mpr (Or.inl h.2)⟩
  | firstFollow => exact h.1

/-- Terminals that select both of two alternatives are contested, in one way or the other. -/
theorem exists_contested_iff : (∃ kind, l.Contested left α β t kind) ↔
    t ∈ l.selectors left α ∧ t ∈ l.selectors left β := by
  constructor
  · rintro ⟨kind, h⟩
    exact h.selects
  · intro h
    by_cases hfirst : t ∈ (l.firstOf α).terminals ∧ t ∈ (l.firstOf β).terminals
    · exact ⟨.firstFirst, hfirst⟩
    · exact ⟨.firstFollow, h, hfirst⟩

/-- A terminal that is not contested between FIRST sets comes out of the FOLLOW set, by an
alternative that vanishes. -/
theorem Contested.of_firstFollow (h : l.Contested left α β t .firstFollow) :
    ((l.firstOf α).nullable = true ∨ (l.firstOf β).nullable = true) ∧ t ∈ l.followOf left := by
  obtain ⟨⟨hα, hβ⟩, hfirst⟩ := h
  rcases mem_selectors.mp hα with hα | ⟨hnull, hfollow⟩
  · rcases mem_selectors.mp hβ with hβ | ⟨hnull, hfollow⟩
    · exact absurd ⟨hα, hβ⟩ hfirst
    · exact ⟨Or.inr hnull, hfollow⟩
  · exact ⟨Or.inl hnull, hfollow⟩

end Lookahead

namespace Grammar

variable {g : Grammar} {l : Lookahead} {left earlier later t : Nat} {α β : List Nat}

/-- The clashes in a cell: two of its numbers, the smaller one first, with their kind. -/
theorem mem_clashesIn_iff {clash : Clash} : clash ∈ g.clashesIn l left t (g.cellOf l left t) ↔
    clash.left = left ∧ clash.terminal = t ∧ clash.earlier ∈ g.selected l left t ∧
      clash.later ∈ g.selected l left t ∧ clash.earlier < clash.later ∧
      clash.kind = g.clashKind l left clash.earlier clash.later t := by
  simp only [clashesIn, numbers_cellOf, List.mem_map, Prod.exists,
    mem_orderedPairs_iff (g.pairwise_selected l left t)]
  constructor
  · rintro ⟨earlier, later, ⟨hearlier, hlater, hlt⟩, rfl⟩
    exact ⟨rfl, rfl, hearlier, hlater, hlt, rfl⟩
  · rintro ⟨rfl, rfl, hearlier, hlater, hlt, hkind⟩
    refine ⟨_, _, ⟨hearlier, hlater, hlt⟩, ?_⟩
    rw [← hkind]

/-- The clashes in a table are those in the cells of nonterminals and terminals. -/
theorem mem_clashes_iff {clash : Clash} : clash ∈ g.clashes l (g.table l) ↔
    g.isNonterminal clash.left = true ∧ g.isTerminal clash.terminal = true ∧
      clash ∈ g.clashesIn l clash.left clash.terminal
        (g.cellOf l clash.left clash.terminal) := by
  have hcells : ∀ left, g.terminals.zip (g.terminals.map (g.cellOf l left)) =
      g.terminals.map fun t => (t, g.cellOf l left t) := fun left =>
    List.map_prod_left_eq_zip.symm
  simp only [clashes, table, List.flatMap_map, hcells, List.mem_flatMap,
    Catalog.mem_nonterminals, Catalog.mem_terminals]
  constructor
  · rintro ⟨left, hleft, t, ht, hclash⟩
    obtain ⟨rfl, rfl, -⟩ := mem_clashesIn_iff.mp hclash
    exact ⟨hleft, ht, hclash⟩
  · rintro ⟨hleft, ht, hclash⟩
    exact ⟨_, hleft, _, ht, hclash⟩

theorem clashKind_eq_iff (hα : (g.alternatives left)[earlier]? = some α)
    (hβ : (g.alternatives left)[later]? = some β)
    (h : t ∈ l.selectors left α ∧ t ∈ l.selectors left β) (kind : ConflictKind) :
    g.clashKind l left earlier later t = kind ↔ l.Contested left α β t kind := by
  rw [clashKind, alternative_eq hα, alternative_eq hβ]
  split
  · next hfirst => cases kind <;> simp [Lookahead.Contested, hfirst]
  · next hfirst => cases kind <;> simp [Lookahead.Contested, hfirst, h]

/-- **The clashes of a pair are over its contested terminals.** -/
theorem exists_clash_iff (hg : g.WellFormed) (hα : (g.alternatives left)[earlier]? = some α)
    (hβ : (g.alternatives left)[later]? = some β) (hlt : earlier < later)
    (kind : ConflictKind) : (∃ clash ∈ g.clashes g.lookahead (g.table g.lookahead),
      clash.key = (kind, left, earlier, later) ∧ clash.terminal = t) ↔
    g.lookahead.Contested left α β t kind := by
  constructor
  · rintro ⟨clash, hclash, hkey, rfl⟩
    obtain ⟨-, -, hclash⟩ := mem_clashes_iff.mp hclash
    obtain ⟨-, -, hearlier, hlater, -, hkind⟩ := mem_clashesIn_iff.mp hclash
    simp only [Clash.key, Prod.mk.injEq] at hkey
    obtain ⟨rfl, rfl, rfl, rfl⟩ := hkey
    obtain ⟨α', hα', htα⟩ := mem_selected_iff.mp hearlier
    obtain ⟨β', hβ', htβ⟩ := mem_selected_iff.mp hlater
    obtain rfl : α = α' := Option.some.inj (hα.symm.trans hα')
    obtain rfl : β = β' := Option.some.inj (hβ.symm.trans hβ')
    exact (clashKind_eq_iff hα hβ ⟨htα, htβ⟩ _).mp hkind.symm
  · intro h
    have hleft := Catalog.isNonterminal_of_mem (List.mem_of_getElem? hα)
    have hselects := h.selects
    have hterminal := isTerminal_of_mem_selectors hg hselects.1
    have hkind := (clashKind_eq_iff hα hβ hselects kind).mpr h
    refine ⟨⟨kind, left, earlier, later, t⟩, mem_clashes_iff.mpr ⟨hleft, hterminal, ?_⟩, rfl, rfl⟩
    exact mem_clashesIn_iff.mpr ⟨rfl, rfl, mem_selected_iff.mpr ⟨α, hα, hselects.1⟩,
      mem_selected_iff.mpr ⟨β, hβ, hselects.2⟩, hlt, hkind.symm⟩

/-! ## The conflicts of a grammar -/

theorem collects_conflicts (g : Grammar) (l : Lookahead) (t : Table) :
    Conflict.Collects (g.clashes l t) (g.conflicts l t) :=
  Conflict.Collects.nil.foldl (g.clashes l t)

/-- A conflict is between two alternatives of its left side, the earlier one first, and its
terminals are contested. -/
theorem contested_of_mem_conflicts (hg : g.WellFormed) {c : Conflict}
    (hc : c ∈ g.conflicts g.lookahead (g.table g.lookahead)) :
    ∃ α β, c.earlier < c.later ∧ (g.alternatives c.left)[c.earlier]? = some α ∧
      (g.alternatives c.left)[c.later]? = some β ∧
      ∀ t ∈ c.terminals, g.lookahead.Contested c.left α β t c.kind := by
  have hcollects := g.collects_conflicts g.lookahead (g.table g.lookahead)
  obtain ⟨t₀, ht₀⟩ := hcollects.nonempty c hc
  obtain ⟨clash, hclash, hkey, -⟩ := (hcollects.mem_iff c.key t₀).mp ⟨c, hc, rfl, ht₀⟩
  obtain ⟨-, -, hclash⟩ := mem_clashes_iff.mp hclash
  obtain ⟨-, -, hearlier, hlater, hlt, -⟩ := mem_clashesIn_iff.mp hclash
  simp only [Clash.key, Conflict.key, Prod.mk.injEq] at hkey
  obtain ⟨-, hkeyLeft, hkeyEarlier, hkeyLater⟩ := hkey
  rw [hkeyLeft, hkeyEarlier] at hearlier
  rw [hkeyLeft, hkeyLater] at hlater
  rw [hkeyEarlier, hkeyLater] at hlt
  obtain ⟨α, hα, -⟩ := mem_selected_iff.mp hearlier
  obtain ⟨β, hβ, -⟩ := mem_selected_iff.mp hlater
  refine ⟨α, β, hlt, hα, hβ, ?_⟩
  intro t ht
  apply (exists_clash_iff hg hα hβ hlt c.kind).mp
  exact (hcollects.mem_iff c.key t).mp ⟨c, hc, rfl, ht⟩

/-- No terminal selects two different alternatives of a left side. -/
def SelectorsDisjoint (g : Grammar) (l : Lookahead) : Prop :=
  ∀ (left i j : Nat) (α β : List Nat), i ≠ j → (g.alternatives left)[i]? = some α →
    (g.alternatives left)[j]? = some β → ∀ t, ¬ (t ∈ l.selectors left α ∧ t ∈ l.selectors left β)

/-- The verdict reads off the cells whether the alternatives can be told apart. -/
theorem isLL1_iff_selectorsDisjoint (hg : g.WellFormed) :
    (g.table g.lookahead).isLL1 = true ↔ g.SelectorsDisjoint g.lookahead := by
  rw [isLL1_table_iff]
  constructor
  · rintro hcells left i j α β hne hα hβ t ⟨htα, htβ⟩
    have hleft := Catalog.isNonterminal_of_mem (List.mem_of_getElem? hα)
    have ht := isTerminal_of_mem_selectors hg htα
    have hi : i ∈ g.selected g.lookahead left t := mem_selected_iff.mpr ⟨α, hα, htα⟩
    have hj : j ∈ g.selected g.lookahead left t := mem_selected_iff.mpr ⟨β, hβ, htβ⟩
    obtain ⟨only, honly⟩ := List.length_eq_one_iff.mp
      (Nat.le_antisymm (hcells left hleft t ht) (List.length_pos_of_mem hi))
    rw [honly, List.mem_singleton] at hi hj
    exact hne (hi.trans hj.symm)
  · intro hdisjoint left hleft t ht
    have hpairwise := g.pairwise_selected g.lookahead left t
    by_contra hlength
    match hselected : g.selected g.lookahead left t with
    | [] => simp [hselected] at hlength
    | [_] => simp [hselected] at hlength
    | i :: j :: _ =>
      rw [hselected] at hpairwise
      have hlt : i < j := (List.pairwise_cons.mp hpairwise).1 j List.mem_cons_self
      obtain ⟨α, hα, htα⟩ := mem_selected_iff.mp (hselected ▸ List.mem_cons_self :
        i ∈ g.selected g.lookahead left t)
      obtain ⟨β, hβ, htβ⟩ := mem_selected_iff.mp
        (hselected ▸ List.mem_cons_of_mem _ List.mem_cons_self :
          j ∈ g.selected g.lookahead left t)
      exact hdisjoint left i j α β (Nat.ne_of_lt hlt) hα hβ t ⟨htα, htβ⟩

/-- The list of conflicts is empty if the alternatives can be told apart, and only then. -/
theorem conflicts_eq_nil_iff (hg : g.WellFormed) :
    g.conflicts g.lookahead (g.table g.lookahead) = [] ↔ g.SelectorsDisjoint g.lookahead := by
  have hcollects := g.collects_conflicts g.lookahead (g.table g.lookahead)
  constructor
  · intro hnil left i j α β hne hα hβ t hselects
    wlog hlt : i < j generalizing i j α β with hwlog
    · exact hwlog j i β α hne.symm hβ hα hselects.symm (by omega)
    obtain ⟨kind, hcontested⟩ := Lookahead.exists_contested_iff.mpr hselects
    have hclash := (exists_clash_iff hg hα hβ hlt kind).mpr hcontested
    obtain ⟨c, hc, -⟩ := (hcollects.mem_iff _ t).mpr hclash
    rw [hnil] at hc
    cases hc
  · intro hdisjoint
    apply List.eq_nil_iff_forall_not_mem.mpr
    intro c hc
    obtain ⟨t, ht⟩ := hcollects.nonempty c hc
    obtain ⟨α, β, hlt, hα, hβ, hcontested⟩ := contested_of_mem_conflicts hg hc
    exact hdisjoint c.left _ _ α β (Nat.ne_of_lt hlt) hα hβ t (hcontested t ht).selects

end Grammar

namespace Parser

/-- **The conflicts are exact.** Of two alternatives of a nonterminal, by number, there is one
conflict of a kind if any terminal is contested in this way, with the contested terminals, and
none otherwise: between FIRST sets the terminals that both alternatives can start with, between a
FIRST and a FOLLOW set the others that select both. In the second case the nonterminal derives the
empty string, and the terminals follow it. There are no conflicts but these. Hence the verdict is
that the grammar is LL(1) if and only if there is no conflict, and if and only if no terminal
selects two alternatives of a nonterminal. -/
theorem conflicts_exact {rules : List Rule} {start : Option String} {config : Config} {p : Parser}
    (hp : Parser.build rules start config = .ok p) :
    (∀ (kind : ConflictKind) (left earlier later : Nat) (α β : List Nat), earlier < later →
      (p.grammar.alternatives left)[earlier]? = some α →
      (p.grammar.alternatives left)[later]? = some β →
      ((∃ t, p.lookahead.Contested left α β t kind) →
        ∃ c, p.conflicts.filter (·.key = (kind, left, earlier, later)) = [c] ∧
          ∀ t, t ∈ c.terminals ↔ p.lookahead.Contested left α β t kind) ∧
      ((¬ ∃ t, p.lookahead.Contested left α β t kind) →
        p.conflicts.filter (·.key = (kind, left, earlier, later)) = [])) ∧
    (∀ c ∈ p.conflicts, c.kind = .firstFollow →
      (First.ofSymbol p.lookahead.first c.left).nullable = true ∧
        ∀ t ∈ c.terminals, t ∈ p.lookahead.followOf c.left) ∧
    (∀ c ∈ p.conflicts,
      c.earlier < c.later ∧ c.later < (p.grammar.alternatives c.left).length) ∧
    (p.table.isLL1 = true ↔ p.conflicts = []) ∧
    (p.table.isLL1 = true ↔ p.grammar.SelectorsDisjoint p.lookahead) := by
  obtain ⟨g, hg, rfl⟩ := exists_of_build hp
  have hcollects := g.collects_conflicts g.lookahead (g.table g.lookahead)
  have hverdict := Grammar.isLL1_iff_selectorsDisjoint hg
  refine ⟨?_, ?_, ?_, hverdict.trans (Grammar.conflicts_eq_nil_iff hg).symm, hverdict⟩
  · intro kind left earlier later α β hlt hα hβ
    have hclash : ∀ t, _ ↔ g.lookahead.Contested left α β t kind := fun t =>
      Grammar.exists_clash_iff (t := t) hg hα hβ hlt kind
    constructor
    · rintro ⟨t, ht⟩
      obtain ⟨c, hfilter, hmem⟩ := hcollects.filter_eq_singleton ⟨t, (hclash t).mpr ht⟩
      exact ⟨c, hfilter, fun t => (hmem t).trans (hclash t)⟩
    · intro hnone
      apply hcollects.filter_eq_nil
      rintro ⟨t, ht⟩
      exact hnone ⟨t, (hclash t).mp ht⟩
  · intro c hc hkind
    obtain ⟨α, β, -, hα, hβ, hcontested⟩ := Grammar.contested_of_mem_conflicts hg hc
    rw [hkind] at hcontested
    refine ⟨?_, fun t ht => (hcontested t ht).of_firstFollow.2⟩
    obtain ⟨t, ht⟩ := hcollects.nonempty c hc
    change (First.ofSymbol g.lookahead.first c.left).nullable = true
    rw [← Grammar.firstOf_singleton, Grammar.nullable_firstOf_iff]
    rcases (hcontested t ht).of_firstFollow.1 with hnull | hnull
    · exact (Grammar.Derives.single (List.mem_of_getElem? hα)).trans
        (Grammar.nullable_firstOf_iff.mp hnull)
    · exact (Grammar.Derives.single (List.mem_of_getElem? hβ)).trans
        (Grammar.nullable_firstOf_iff.mp hnull)
  · intro c hc
    obtain ⟨α, β, hlt, -, hβ, -⟩ := Grammar.contested_of_mem_conflicts hg hc
    exact ⟨hlt, (List.getElem?_eq_some_iff.mp hβ).1⟩

/-- Rules of a nonterminal whose two alternatives are in conflict in both ways. -/
def rivalRules : List Rule :=
  [⟨"S", [["A", "b"]], []⟩, ⟨"A", [["B"], ["C"]], []⟩, ⟨"B", [["a"], ["_"]], []⟩,
    ⟨"C", [["a"], ["b"]], []⟩]

/-- The grammar of these rules. -/
def rivalGrammar : Grammar :=
  ⟨⟨#[.nonterminal "S" [[1, 4]], .nonterminal "A" [[2], [3]], .nonterminal "B" [[5], []],
    .nonterminal "C" [[5], [4]], .terminal "b", .terminal "a", .terminal "$"]⟩, 0, 6⟩

theorem conflicts_exact_rivals :
    build rivalRules none {} = .ok (generate rivalGrammar) ∧
      (∃ c, (generate rivalGrammar).conflicts.filter (·.key = (.firstFirst, 1, 0, 1)) = [c] ∧
        5 ∈ c.terminals ∧ 4 ∉ c.terminals) ∧
      (∃ c, (generate rivalGrammar).conflicts.filter (·.key = (.firstFollow, 1, 0, 1)) = [c] ∧
        4 ∈ c.terminals ∧ 5 ∉ c.terminals) ∧
      (generate rivalGrammar).table.isLL1 = false := by
  have hp : build rivalRules none {} = .ok (generate rivalGrammar) :=
    build_eq_ok (by decide +kernel)
  obtain ⟨hpairs, -, -, -, hverdict⟩ := conflicts_exact hp
  obtain ⟨c, hc, hcmem⟩ := (hpairs .firstFirst 1 0 1 [2] [3] (by decide) rfl rfl).1
    ⟨5, by decide⟩
  obtain ⟨d, hd, hdmem⟩ := (hpairs .firstFollow 1 0 1 [2] [3] (by decide) rfl rfl).1
    ⟨4, by decide⟩
  refine ⟨hp, ⟨c, hc, (hcmem 5).mpr (by decide), ?_⟩, ⟨d, hd, (hdmem 4).mpr (by decide), ?_⟩, ?_⟩
  · rw [hcmem]
    decide
  · rw [hdmem]
    decide
  · by_contra hll1
    have hdisjoint := hverdict.mp (by simpa using hll1)
    exact hdisjoint 1 0 1 [2] [3] (by decide) rfl rfl 5 (by decide)

end Parser

end TopDown
