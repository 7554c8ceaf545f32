import TopDown.Proofs.First.Exact
import TopDown.Proofs.Follow.Passes

/-!
# FOLLOW is exact

A terminal other than the end mark is in the FOLLOW set of a nonterminal `B` if and only if it
stands right after `B` in a string derived from some nonterminal, reached from the start symbol or
not; the end mark is if and only if the start symbol derives a string that ends with `B`.

That nothing in the table is wrong is kept by every pass. For the other direction a string is
*followed* if each nonterminal in it has, in its FOLLOW set, whatever the rest of the string can
start with (`Grammar.Followed`). Rewriting a nonterminal keeps a string followed, whatever stands
around it: this one invariant covers symbols that vanish in between and chains of last positions,
and with the end mark at the end of the string it covers the end mark too.

## Main definitions

* `Grammar.Follows`: a terminal after a nonterminal, by derivations
* `Grammar.Followed`: the invariant of derivations

## Main results

* `Grammar.Followed.of_derives`: derivations keep a string followed
* `Grammar.mem_followOf_iff`: FOLLOW, by derivations
* `Parser.follow_exact`: the same of the parser of a list of rules
-/

namespace TopDown

open First (ofSymbol ofString)

namespace Grammar

variable {g : Grammar} {α β γ : List Nat} {s t : Nat}

/-- A terminal comes right after a symbol in what some nonterminal derives; the end mark does if
the start symbol derives a string that ends with the symbol. -/
def Follows (g : Grammar) (s t : Nat) : Prop :=
  (t = g.finish ∧ ∃ α, g.Derives [g.start] (α ++ [s])) ∨
    (t ≠ g.finish ∧ g.isTerminal t = true ∧
      ∃ left, g.isNonterminal left = true ∧ ∃ α β, g.Derives [left] (α ++ s :: t :: β))

/-! ## Nothing is wrong -/

/-- What follows a nonterminal follows the symbols that it can end with. -/
theorem Follows.of_last {left : Nat} {before rest : List Nat} (h : g.Follows left t)
    (halt : before ++ s :: rest ∈ g.alternatives left) (hrest : g.Derives rest []) :
    g.Follows s t := by
  have hleft : g.Derives [left] (before ++ [s]) := by
    have hvanish := (Derives.refl (g := g) (α := before ++ [s])).append hrest
    exact (Derives.single halt).trans (by simpa using hvanish)
  rcases h with ⟨rfl, α, hα⟩ | ⟨hne, ht, top, htop, α, β, hαβ⟩
  · refine Or.inl ⟨rfl, α ++ before, hα.trans ?_⟩
    simpa using hleft.between α []
  · refine Or.inr ⟨hne, ht, top, htop, α ++ before, β, hαβ.trans ?_⟩
    simpa using hleft.between α (t :: β)

/-- What the rest of an alternative can start with follows the symbol before it. -/
theorem follows_of_mem_firstOf (hg : g.WellFormed) {left : Nat} {before rest : List Nat}
    (halt : before ++ s :: rest ∈ g.alternatives left)
    (ht : t ∈ (g.lookahead.firstOf rest).terminals) : g.Follows s t := by
  obtain ⟨hterminal, γ, hγ⟩ := mem_firstOf_iff.mp ht
  have hrest : ∀ n ∈ rest, n < g.finish := by
    intro n hn
    exact hg.closed halt n (by simp [hn])
  have hlt : t < g.finish := hγ.lt_finish hg hrest t List.mem_cons_self
  have hleft := Catalog.isNonterminal_of_mem halt
  refine Or.inr ⟨Nat.ne_of_lt hlt, hterminal, left, hleft, before, γ, ?_⟩
  refine (Derives.single halt).trans ?_
  simpa using hγ.between (before ++ [s]) []

/-- Every member of the table comes with a derivation. -/
def IsFollowSound (g : Grammar) (table : Array SymbolSet) : Prop :=
  ∀ s t, t ∈ followOf table s → g.Follows s t

theorem isFollowSound_initialFollow (g : Grammar) : g.IsFollowSound g.initialFollow := by
  intro s t ht
  have hlt := lt_size_of_mem_followOf ht
  rw [size_initialFollow] at hlt
  by_cases hs : g.start = s
  · subst hs
    have ht : t = g.finish := by simpa [followOf, initialFollow, hlt] using ht
    exact Or.inl ⟨ht, [], .refl⟩
  · rw [followOf, initialFollow, Array.getElem?_setIfInBounds_ne hs] at ht
    simp [hlt] at ht

theorem IsFollowSound.followPass (hg : g.WellFormed) {table : Array SymbolSet}
    (h : g.IsFollowSound table) : g.IsFollowSound (g.followPass g.lookahead.first table) := by
  intro s t ht
  rcases mem_followPass.mp ht with ht | ⟨-, o, ho, rfl, hcontribution⟩
  · exact h s t ht
  · obtain ⟨-, before, halt⟩ := mem_occurrences_iff.mp ho
    rcases Occurrence.mem_contribution.mp hcontribution with ht | ⟨hnull, ht⟩
    · exact follows_of_mem_firstOf hg halt ht
    · exact (h o.left t ht).of_last halt (nullable_firstOf_iff.mp hnull)

theorem follows_of_mem_followOf (hg : g.WellFormed) (h : t ∈ g.lookahead.followOf s) :
    g.Follows s t := by
  have hsound : g.IsFollowSound g.lookahead.follow :=
    stabilizeAfter_induction (P := g.IsFollowSound) _ (fun _ => IsFollowSound.followPass hg)
      g.isFollowSound_initialFollow
  exact hsound s t h

/-! ## Nothing is missing -/

/-- Each nonterminal in the string is followed, according to the table, by whatever the rest of the
string can start with. -/
def Followed (g : Grammar) : List Nat → Prop
  | [] => True
  | s :: γ =>
    (g.isNonterminal s = true →
      ∀ t ∈ (g.lookahead.firstOf γ).terminals, t ∈ g.lookahead.followOf s) ∧ g.Followed γ

/-- What the rest of an alternative contributes to the symbol before it. -/
theorem mem_followOf_of_alternative {left : Nat} {before rest : List Nat}
    (halt : before ++ s :: rest ∈ g.alternatives left) (hs : g.isNonterminal s = true)
    (ht : t ∈ (g.lookahead.firstOf rest).terminals ∨
      (g.lookahead.firstOf rest).nullable = true ∧ t ∈ g.lookahead.followOf left) :
    t ∈ g.lookahead.followOf s := by
  let o : Occurrence := ⟨left, s, rest⟩
  have ho : o ∈ g.occurrences :=
    mem_occurrences_iff.mpr ⟨Catalog.isTerminal_eq_false hs, before, halt⟩
  have hcontribution : t ∈ o.contribution g.lookahead.first g.lookahead.follow :=
    Occurrence.mem_contribution.mpr ht
  have hmem := mem_followTable_of_contribution ho (Catalog.lt_size_of_isNonterminal hs)
    hcontribution
  exact hmem

namespace Followed

theorem of_append (h : g.Followed (α ++ β)) : g.Followed β := by
  induction α with
  | nil => exact h
  | cons s α ih => exact ih h.2

/-- A nonterminal may be replaced by an alternative, or by the rest of one, at the beginning of a
string. -/
theorem replace_head {left : Nat} {after : List Nat} (h : g.Followed (left :: after))
    (hleft : g.isNonterminal left = true) (before : List Nat) {δ : List Nat}
    (halt : before ++ δ ∈ g.alternatives left) : g.Followed (δ ++ after) := by
  -- Symbols go from the rest of the alternative to its beginning, one at a time.
  induction δ generalizing before with
  | nil => exact h.2
  | cons s δ ih =>
    refine ⟨fun hs t ht => ?_, ih (before ++ [s]) (by simpa using halt)⟩
    refine mem_followOf_of_alternative halt hs ?_
    change t ∈ (ofString g.lookahead.first (δ ++ after)).terminals at ht
    rw [First.ofString_append] at ht
    rcases First.mem_seq.mp ht with ht | ⟨hnull, ht⟩
    · exact Or.inl ht
    · exact Or.inr ⟨hnull, h.1 hleft t ht⟩

/-- A nonterminal may be replaced by an alternative inside a string. -/
theorem replace {symbol : Nat} {before after δ : List Nat}
    (h : g.Followed (before ++ symbol :: after)) (halt : δ ∈ g.alternatives symbol) :
    g.Followed (before ++ (δ ++ after)) := by
  induction before with
  | nil => exact h.replace_head (Catalog.isNonterminal_of_mem halt) [] halt
  | cons s before ih =>
    refine ⟨fun hs t ht => h.1 hs t ?_, ih h.2⟩
    have hstep : g.Derives (before ++ symbol :: after) (before ++ (δ ++ after)) :=
      Derives.refl.step halt
    exact (firstOf_le_of_derives hstep).1 t ht

/-- **Derivations keep a string followed.** -/
theorem of_derives (hαβ : g.Derives α β) (h : g.Followed α) : g.Followed β := by
  induction hαβ with
  | refl => exact h
  | step _ halt ih =>
    apply ih.replace
    exact halt

/-- The first symbol of a followed string has in its FOLLOW set what the rest can start with. -/
theorem mem_followOf (h : g.Followed (α ++ s :: β)) (hs : g.isNonterminal s = true)
    (ht : t ∈ (g.lookahead.firstOf β).terminals) : t ∈ g.lookahead.followOf s :=
  h.of_append.1 hs t ht

/-- One symbol is a followed string. -/
theorem singleton (s : Nat) : g.Followed [s] :=
  ⟨fun _ _ ht => absurd ht First.mem_vanishing, trivial⟩

/-- A symbol before a terminal is followed by it. -/
theorem pair (ht : g.isTerminal t = true)
    (h : g.isNonterminal s = true → t ∈ g.lookahead.followOf s) : g.Followed [s, t] := by
  refine ⟨fun hs t' ht' => ?_, singleton _⟩
  rw [firstOf_singleton, ofSymbol_of_isTerminal ht] at ht'
  obtain rfl := First.mem_terminal.mp ht'
  exact h hs

/-- The start symbol is followed by the end mark. -/
theorem start_finish (hg : g.WellFormed) : g.Followed [g.start, g.finish] := by
  apply pair hg.isTerminal_finish
  intro hstart
  exact finish_mem_followTable (Catalog.lt_size_of_isNonterminal hstart)

end Followed

theorem mem_firstOf_cons (ht : g.isTerminal t = true) (β : List Nat) :
    t ∈ (g.lookahead.firstOf (t :: β)).terminals :=
  mem_firstOf_iff.mpr ⟨ht, β, .refl⟩

theorem mem_followOf_of_follows (hg : g.WellFormed) (hs : g.isNonterminal s = true)
    (h : g.Follows s t) : t ∈ g.lookahead.followOf s := by
  rcases h with ⟨rfl, α, hα⟩ | ⟨-, ht, left, -, α, β, hαβ⟩
  · have hend : g.Derives [g.start, g.finish] (α ++ [s, g.finish]) := by
      simpa using hα.append (Derives.refl (α := [g.finish]))
    exact ((Followed.start_finish hg).of_derives hend).mem_followOf hs
      (mem_firstOf_cons hg.isTerminal_finish [])
  · exact ((Followed.singleton left).of_derives hαβ).mem_followOf hs (mem_firstOf_cons ht β)

/-- **FOLLOW is exact.** -/
theorem mem_followOf_iff (hg : g.WellFormed) (hs : g.isNonterminal s = true) :
    t ∈ g.lookahead.followOf s ↔ g.Follows s t :=
  ⟨follows_of_mem_followOf hg, mem_followOf_of_follows hg hs⟩

theorem isTerminal_of_mem_followOf (hg : g.WellFormed) (h : t ∈ g.lookahead.followOf s) :
    g.isTerminal t = true := by
  rcases follows_of_mem_followOf hg h with ⟨rfl, -⟩ | ⟨-, hterminal, -⟩
  · exact hg.isTerminal_finish
  · exact hterminal

end Grammar

namespace Parser

/-- **FOLLOW is exact.** A terminal other than the end mark follows a nonterminal in the table if
and only if it comes right after it in what some nonterminal of the grammar derives, and the end
mark if and only if the start symbol derives a string that ends with the nonterminal. Only
terminals follow anything. -/
theorem follow_exact {rules : List Rule} {start : Option String} {config : Config}
    {p : Parser} (hp : Parser.build rules start config = .ok p) {s : Nat}
    (hs : p.grammar.isNonterminal s = true) :
    (∀ t, p.grammar.isTerminal t = true → t ≠ p.grammar.finish →
      (t ∈ p.lookahead.followOf s ↔ ∃ left, p.grammar.isNonterminal left = true ∧
        ∃ α β, p.grammar.Derives [left] (α ++ s :: t :: β))) ∧
    (p.grammar.finish ∈ p.lookahead.followOf s ↔
      ∃ α, p.grammar.Derives [p.grammar.start] (α ++ [s])) ∧
    ∀ n ∈ p.lookahead.followOf s, p.grammar.isTerminal n = true := by
  obtain ⟨g, hg, rfl⟩ := exists_of_build hp
  have hiff : ∀ t, t ∈ g.lookahead.followOf s ↔ g.Follows s t := fun t =>
    Grammar.mem_followOf_iff hg hs
  refine ⟨fun t ht hne => (hiff t).trans ?_, (hiff g.finish).trans ?_, fun n hn => ?_⟩
  · constructor
    · rintro (⟨rfl, -⟩ | ⟨-, -, h⟩)
      · exact absurd rfl hne
      · exact h
    · exact fun h => Or.inr ⟨hne, ht, h⟩
  · constructor
    · rintro (⟨-, h⟩ | ⟨hne, -⟩)
      · exact h
      · exact absurd rfl hne
    · exact fun h => Or.inl ⟨rfl, h⟩
  · rcases (hiff n).mp hn with ⟨rfl, -⟩ | ⟨-, hterminal, -⟩
    · exact hg.isTerminal_finish
    · exact hterminal

/-- Rules of which the second is not reached from the start symbol. -/
def unreachedRules : List Rule :=
  [⟨"S", [["a"]], []⟩, ⟨"A", [["S", "B", "b"]], []⟩, ⟨"B", [["_"]], []⟩]

/-- The grammar of these rules. -/
def unreachedGrammar : Grammar :=
  ⟨⟨#[.nonterminal "S" [[3]], .nonterminal "A" [[0, 2, 4]], .nonterminal "B" [[]],
    .terminal "a", .terminal "b", .terminal "$"]⟩, 0, 5⟩

theorem follow_exact_unreached :
    build unreachedRules none {} = .ok (generate unreachedGrammar) ∧
      unreachedGrammar.isNonterminal 0 = true ∧
      (∃ left, unreachedGrammar.isNonterminal left = true ∧
        ∃ α β, unreachedGrammar.Derives [left] (α ++ 0 :: 4 :: β)) ∧
      (∃ α, unreachedGrammar.Derives [0] (α ++ [0])) ∧
      ¬ ∃ α, unreachedGrammar.Derives [0] (α ++ [2]) := by
  have hp : build unreachedRules none {} = .ok (generate unreachedGrammar) :=
    build_eq_ok (by decide +kernel)
  have hstart : unreachedGrammar.isNonterminal 0 = true := by decide
  obtain ⟨hterminals, hfinish, -⟩ := follow_exact hp hstart
  obtain ⟨-, hfinish₂, -⟩ := follow_exact hp (s := 2) (by decide)
  refine ⟨hp, hstart, ?_, hfinish.mp (by decide), fun h => ?_⟩
  · exact (hterminals 4 (by decide) (by decide)).mp (by decide)
  · have hmem := hfinish₂.mpr h
    revert hmem
    decide

end Parser

end TopDown
