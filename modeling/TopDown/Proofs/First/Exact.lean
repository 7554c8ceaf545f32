import TopDown.Parser
import TopDown.Proofs.First.Passes

/-!
# FIRST is exact

The table of a grammar says of every string of symbols what its derivations say: that it derives
the empty string, and which terminals come first in what it derives.

Nothing in the table is wrong, because every entry written by a pass comes with derivations
(`Grammar.IsSound`); this needs no fixed point. Nothing is missing, because the table is closed:
rewriting a symbol by an alternative adds nothing to what a string can start with, so whatever a
derivation arrives at was known of the string it began with (`Grammar.ofString_le_of_derives`).
Neither argument asks whether the grammar is recursive or whether its symbols derive anything.

## Main definitions

* `Grammar.Supports`: what is known of a string is borne out by derivations
* `Grammar.IsSound`: tables whose entries are

## Main results

* `Grammar.nullable_firstOf_iff`, `Grammar.mem_firstOf_iff`: FIRST of a string, by derivations
* `Parser.first?_exact`: the same of the parser of a list of rules
-/

namespace TopDown

open First (ofSymbol ofString ofChoice)

namespace Grammar

variable {g : Grammar} {table : Array First} {α β : List Nat}

/-! ## Nothing is wrong -/

/-- What is known of a string is borne out by derivations from it. -/
def Supports (g : Grammar) (α : List Nat) (f : First) : Prop :=
  (f.nullable = true → g.Derives α []) ∧
    ∀ t ∈ f.terminals, g.isTerminal t = true ∧ ∃ γ, g.Derives α (t :: γ)

/-- Every entry of the table is borne out by derivations. -/
def IsSound (g : Grammar) (table : Array First) : Prop :=
  ∀ s, g.Supports [s] (ofSymbol table s)

theorem supports_nothing (α : List Nat) : g.Supports α First.nothing := by
  simp [Supports]

theorem Supports.seq {f k : First} (hf : g.Supports α f) (hk : g.Supports β k) :
    g.Supports (α ++ β) (f.seq k) := by
  constructor
  · intro h
    rw [First.nullable_seq] at h
    exact (hf.1 h.1).append (hk.1 h.2)
  · intro t ht
    rcases First.mem_seq.mp ht with ht | ⟨hnull, ht⟩
    · obtain ⟨hterminal, γ, hγ⟩ := hf.2 t ht
      exact ⟨hterminal, γ ++ β, hγ.append .refl⟩
    · obtain ⟨hterminal, γ, hγ⟩ := hk.2 t ht
      exact ⟨hterminal, γ, (hf.1 hnull).append hγ⟩

theorem Supports.of_derives {f : First} (hf : g.Supports β f) (h : g.Derives α β) :
    g.Supports α f := by
  refine ⟨fun hnull => h.trans (hf.1 hnull), fun t ht => ?_⟩
  obtain ⟨hterminal, γ, hγ⟩ := hf.2 t ht
  exact ⟨hterminal, γ, h.trans hγ⟩

namespace IsSound

theorem supports_ofString (h : g.IsSound table) (α : List Nat) :
    g.Supports α (ofString table α) := by
  induction α with
  | nil => exact ⟨fun _ => .refl, fun t ht => absurd ht First.mem_vanishing⟩
  | cons symbol α ih => exact (h symbol).seq ih

theorem supports_ofChoice (h : g.IsSound table) (left : Nat) :
    g.Supports [left] (ofChoice table (g.alternatives left)) := by
  constructor
  · intro hnull
    obtain ⟨α, hα, hnull⟩ := First.nullable_ofChoice.mp hnull
    exact ((h.supports_ofString α).of_derives (.single hα)).1 hnull
  · intro t ht
    obtain ⟨α, hα, ht⟩ := First.mem_ofChoice.mp ht
    exact ((h.supports_ofString α).of_derives (.single hα)).2 t ht

theorem renewFirst (h : g.IsSound table) (left : Nat) : g.IsSound (g.renewFirst table left) := by
  intro s
  by_cases hs : s = left
  · subst hs
    rcases Nat.lt_or_ge s table.size with hlt | hge
    · rw [ofSymbol_renewFirst_self hlt]
      exact h.supports_ofChoice s
    · rw [First.ofSymbol_of_size_le (size_renewFirst.trans_le hge)]
      exact supports_nothing _
  · rw [ofSymbol_renewFirst_of_ne hs]
    exact h s

theorem firstPass (h : g.IsSound table) : g.IsSound (g.firstPass table) := by
  unfold Grammar.firstPass
  -- Entry by entry: each is written from a table that is sound already.
  induction g.nonterminals generalizing table with
  | nil => exact h
  | cons left ls ih => exact ih (h.renewFirst left)

end IsSound

theorem isSound_initialFirst (g : Grammar) : g.IsSound g.initialFirst := by
  intro s
  rcases Nat.lt_or_ge s g.size with hlt | hge
  · have he : g.entries[s]? = some g.entries[s] := Array.getElem?_eq_getElem hlt
    rw [ofSymbol_initialFirst he]
    split
    · next hkind =>
      refine ⟨fun hnull => absurd hnull First.nullable_terminal, fun t ht => ?_⟩
      obtain rfl := First.mem_terminal.mp ht
      exact ⟨Catalog.isTerminal_iff.mpr ⟨_, he, hkind⟩, [], .refl⟩
    · exact supports_nothing _
  · rw [First.ofSymbol_of_size_le ((g.isRising_initialFirst).size_eq.trans_le hge)]
    exact supports_nothing _

theorem isSound_firstTable (g : Grammar) : g.IsSound g.firstTable.value :=
  stabilizeAfter_induction (P := g.IsSound) g.firstPass (fun _ => IsSound.firstPass)
    g.isSound_initialFirst

/-! ## Nothing is missing -/

theorem IsClosed.ofString_le (h : g.IsClosed table) {left : Nat}
    (hα : α ∈ g.alternatives left) : ofString table α ≤ ofSymbol table left :=
  (First.ofString_le_ofChoice hα).trans (h (Catalog.isNonterminal_of_mem hα))

/-- Whatever a derivation arrives at was known of the string it began with. -/
theorem ofString_le_of_derives (hclosed : g.IsClosed table) (h : g.Derives α β) :
    ofString table β ≤ ofString table α := by
  induction h with
  | refl => exact le_refl _
  | @step before after δ symbol _ halt ih =>
    refine le_trans ?_ ih
    rw [First.ofString_append, First.ofString_append, First.ofString_append]
    have hle := First.respected_le.seq (hclosed.ofString_le halt)
      (le_refl (ofString table after))
    exact First.respected_le.seq (le_refl _) hle

theorem firstOf_le_of_derives (h : g.Derives α β) :
    g.lookahead.firstOf β ≤ g.lookahead.firstOf α :=
  ofString_le_of_derives g.isClosed_firstTable h

theorem ofSymbol_of_isTerminal {t : Nat} (ht : g.isTerminal t = true) :
    ofSymbol g.lookahead.first t = First.terminal t :=
  g.isRising_firstTable.terminal ht

/-! ## Both directions -/

/-- **Nullability is exact**: a string is nullable if and only if it derives the empty string. -/
theorem nullable_firstOf_iff : (g.lookahead.firstOf α).nullable = true ↔ g.Derives α [] := by
  constructor
  · exact (g.isSound_firstTable.supports_ofString α).1
  · intro h
    exact (firstOf_le_of_derives h).2 First.nullable_vanishing

/-- **FIRST is exact**: its members are the terminals that come first in what a string derives. -/
theorem mem_firstOf_iff {t : Nat} : t ∈ (g.lookahead.firstOf α).terminals ↔
    g.isTerminal t = true ∧ ∃ γ, g.Derives α (t :: γ) := by
  constructor
  · exact (g.isSound_firstTable.supports_ofString α).2 t
  · rintro ⟨ht, γ, h⟩
    refine (firstOf_le_of_derives h).1 t ?_
    change t ∈ ((ofSymbol g.lookahead.first t).seq _).terminals
    rw [ofSymbol_of_isTerminal ht]
    exact First.mem_seq.mpr (Or.inl (First.mem_terminal.mpr rfl))

theorem firstOf_singleton (g : Grammar) (s : Nat) :
    g.lookahead.firstOf [s] = ofSymbol g.lookahead.first s := by
  refine First.ext (fun n => ?_) ?_ <;> simp [Lookahead.firstOf, ofString]

end Grammar

namespace Parser

theorem visible_subset (table : Array First) (α : List Nat) :
    ∀ s ∈ First.visible table α, s ∈ α := by
  induction α with
  | nil => simp [First.visible]
  | cons symbol α ih =>
    intro s hs
    rw [First.visible] at hs
    rcases List.mem_cons.mp hs with rfl | hs
    · exact List.mem_cons_self
    · split at hs
      · exact List.mem_cons_of_mem _ (ih s hs)
      · cases hs

/-- FIRST of a string of symbols is always answered. -/
theorem first?_eq_some (p : Parser) {α : List Nat} (hα : ∀ s ∈ α, s < p.grammar.size) :
    p.first? α = some (p.lookahead.firstOf α) := by
  have hall : (First.visible p.lookahead.first α).all (· < p.grammar.size) = true := by
    refine List.all_eq_true.mpr fun s hs => ?_
    simpa using hα s (visible_subset _ α s hs)
  rw [first?, if_pos hall]

/-- **FIRST and nullability are exact.** Of every string of symbols, the parser made from rules
knows whether it derives the empty string, and the terminals that come first in the sentential
forms that it derives; in particular it knows this of every nonterminal. -/
theorem first?_exact {rules : List Rule} {start : Option String} {config : Config} {p : Parser}
    (hp : Parser.build rules start config = .ok p) :
    (∀ α : List Nat, (∀ s ∈ α, s < p.grammar.size) →
      ∃ f, p.first? α = some f ∧ (f.nullable = true ↔ p.grammar.Derives α []) ∧
        ∀ t, t ∈ f.terminals ↔
          p.grammar.isTerminal t = true ∧ ∃ γ, p.grammar.Derives α (t :: γ)) ∧
    ∀ left, p.grammar.isNonterminal left = true →
      ((ofSymbol p.lookahead.first left).nullable = true ↔ p.grammar.Derives [left] []) ∧
        ∀ t, t ∈ (ofSymbol p.lookahead.first left).terminals ↔
          p.grammar.isTerminal t = true ∧ ∃ γ, p.grammar.Derives [left] (t :: γ) := by
  obtain ⟨g, -, rfl⟩ := exists_of_build hp
  refine ⟨fun α hα => ?_, fun left _ => ?_⟩
  · exact ⟨_, first?_eq_some _ hα, Grammar.nullable_firstOf_iff, fun t => Grammar.mem_firstOf_iff⟩
  · change ((ofSymbol g.lookahead.first left).nullable = true ↔ g.Derives [left] []) ∧
      ∀ t, t ∈ (ofSymbol g.lookahead.first left).terminals ↔
        g.isTerminal t = true ∧ ∃ γ, g.Derives [left] (t :: γ)
    rw [← Grammar.firstOf_singleton]
    exact ⟨Grammar.nullable_firstOf_iff, fun t => Grammar.mem_firstOf_iff⟩

/-- Rules of two nonterminals that derive each other, one of which comes back in front of what it
derives, and of a third one without alternatives. -/
def cyclicRules : List Rule :=
  [⟨"S", [["S", "a"], ["A"]], []⟩, ⟨"A", [["S"], ["B"], ["_"]], []⟩]

/-- The grammar of these rules. -/
def cyclicGrammar : Grammar :=
  ⟨⟨#[.nonterminal "S" [[0, 2], [1]], .nonterminal "A" [[0], [3], []], .terminal "a",
    .nonterminal "B" [], .terminal "$"]⟩, 0, 4⟩

theorem first?_exact_cyclic :
    build cyclicRules none {} = .ok (generate cyclicGrammar) ∧
      (∃ f, (generate cyclicGrammar).first? [0, 3] = some f ∧ f.nullable = false ∧
        ∃ γ, cyclicGrammar.Derives [0, 3] (2 :: γ)) ∧
      cyclicGrammar.Derives [1] [] ∧ ¬ cyclicGrammar.Derives [3] [] := by
  have hp : build cyclicRules none {} = .ok (generate cyclicGrammar) :=
    build_eq_ok (by decide +kernel)
  obtain ⟨hstrings, hnonterminals⟩ := first?_exact hp
  refine ⟨hp, ?_, (hnonterminals 1 (by decide)).1.mp (by decide), fun h => ?_⟩
  · obtain ⟨f, hf, -, hmem⟩ := hstrings [0, 3] (by decide)
    obtain rfl : (generate cyclicGrammar).lookahead.firstOf [0, 3] = f :=
      Option.some.inj ((first?_eq_some _ (by decide)).symm.trans hf)
    exact ⟨_, hf, by decide, ((hmem 2).mp (by decide)).2⟩
  · have hnullable := (hnonterminals 3 (by decide)).1.mpr h
    revert hnullable
    decide

end Parser

end TopDown
