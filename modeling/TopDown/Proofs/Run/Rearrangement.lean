import Mathlib.Data.Set.Defs
import TopDown.Proofs.Grammar.Rearrangement
import TopDown.Proofs.Run.Renaming

/-!
# The order of rules does not matter

Rules that declare the same have grammars that differ in the numbers of their symbols only
(`SameDeclarations.describe?_eq`), and so one of them is renamed to the other. All that can be told
by name is the same then: the sets, the cells, the conflicts, and whole runs.

## Main definitions

* `Grammar.namesOf`, `Grammar.namedConflict`: sets and conflicts by name
* `Parser.SameByName`: parsers that cannot be told apart by names

## Main results

* `Grammar.sameByName`: the parsers of grammars that say the same of every name
* `Parser.build_rearranged`: the parsers of rules in another order
-/

namespace TopDown

/-- The names of the symbols in a set. -/
def Grammar.namesOf (g : Grammar) (s : SymbolSet) : Set String :=
  fun name => ∃ symbol ∈ s, g.name symbol = name

/-- A conflict by names: its kind, its left side, the numbers of its alternatives and the names of
its terminals. -/
def Grammar.namedConflict (g : Grammar) (c : Conflict) :
    ConflictKind × String × Nat × Nat × Set String :=
  (c.kind, g.name c.left, c.earlier, c.later, g.namesOf c.terminals)

namespace Parser

/-- Parsers that cannot be told apart by names. They have terminals and nonterminals of the same
names, and for symbols of the same name the same alternatives, in order, the same sets and the same
cells; they have the same verdict and the same conflicts; and on all tokens with all options they
make the same run. -/
structure SameByName (p p' : Parser) : Prop where
  terminals : ∀ name, name ∈ p.grammar.terminals.map p.grammar.name ↔
    name ∈ p'.grammar.terminals.map p'.grammar.name
  nonterminals : ∀ name, name ∈ p.grammar.nonterminals.map p.grammar.name ↔
    name ∈ p'.grammar.nonterminals.map p'.grammar.name
  alternatives : ∀ {name s s'}, p.grammar.name? s = some name → p'.grammar.name? s' = some name →
    (p.grammar.alternatives s).map (·.map p.grammar.name) =
      (p'.grammar.alternatives s').map (·.map p'.grammar.name)
  nullable : ∀ {name s s'}, p.grammar.name? s = some name → p'.grammar.name? s' = some name →
    (p.lookahead.firstOf [s]).nullable = (p'.lookahead.firstOf [s']).nullable
  first : ∀ {name s s'}, p.grammar.name? s = some name → p'.grammar.name? s' = some name →
    p.grammar.namesOf (p.lookahead.firstOf [s]).terminals =
      p'.grammar.namesOf (p'.lookahead.firstOf [s']).terminals
  follow : ∀ {name s s'}, p.grammar.name? s = some name → p'.grammar.name? s' = some name →
    p.grammar.isNonterminal s = true →
    p.grammar.namesOf (p.lookahead.followOf s) = p'.grammar.namesOf (p'.lookahead.followOf s')
  cell : ∀ {left terminal s s' t t'},
    p.grammar.name? s = some left → p'.grammar.name? s' = some left →
    p.grammar.name? t = some terminal → p'.grammar.name? t' = some terminal →
    p.table.cell? s t = p'.table.cell? s' t'
  isLL1 : p.table.isLL1 = p'.table.isLL1
  conflicts : ∀ c, c ∈ p.conflicts.map p.grammar.namedConflict ↔
    c ∈ p'.conflicts.map p'.grammar.namedConflict
  run : ∀ input options, p.run input options = p'.run input options

end Parser

namespace Grammar

variable {σ : Nat → Nat} {g g' : Grammar}

namespace Renames

/-- Symbols of the same name are renamed to each other. -/
theorem eq_of_name? (h : Renames σ g g') (hg' : g'.WellFormed) {name : String} {s s' : Nat}
    (hs : g.name? s = some name) (hs' : g'.name? s' = some name) : s' = σ s :=
  hg'.unique hs' ((h.name?_eq s).trans hs)

/-- Renamed terminals have the same names. -/
theorem namesOf_eq (h : Renames σ g g') {S S' : SymbolSet} (hS : ∀ t, σ t ∈ S' ↔ t ∈ S)
    (hterminal : ∀ t ∈ S', g'.isTerminal t = true) : g.namesOf S = g'.namesOf S' := by
  funext name
  rw [eq_iff_iff]
  constructor
  · rintro ⟨t, ht, hname⟩
    exact ⟨σ t, (hS t).mpr ht, (h.name_eq t).trans hname⟩
  · rintro ⟨t', ht', hname⟩
    obtain ⟨t, rfl, -⟩ := h.exists_of_isTerminal (hterminal t' ht')
    exact ⟨t, (hS t).mp ht', (h.name_eq t).symm.trans hname⟩

theorem mem_names_of_mem_terminals (h : Renames σ g g') {name : String}
    (hname : name ∈ g.terminals.map g.name) : name ∈ g'.terminals.map g'.name := by
  obtain ⟨s, hs, rfl⟩ := List.mem_map.mp hname
  rw [Catalog.mem_terminals] at hs
  rw [← h.name_eq]
  exact List.mem_map_of_mem (Catalog.mem_terminals.mpr ((h.isTerminal_eq s).trans hs))

theorem mem_names_of_mem_nonterminals (h : Renames σ g g') {name : String}
    (hname : name ∈ g.nonterminals.map g.name) : name ∈ g'.nonterminals.map g'.name := by
  obtain ⟨s, hs, rfl⟩ := List.mem_map.mp hname
  rw [Catalog.mem_nonterminals] at hs
  rw [← h.name_eq]
  exact List.mem_map_of_mem (Catalog.mem_nonterminals.mpr ((h.isNonterminal_eq s).trans hs))

/-- A conflict of a grammar is one of a renamed grammar too, by name. -/
theorem mem_namedConflicts (h : Renames σ g g') (hg : g.WellFormed) (hg' : g'.WellFormed)
    {c : ConflictKind × String × Nat × Nat × Set String}
    (hc : c ∈ (Parser.generate g).conflicts.map g.namedConflict) :
    c ∈ (Parser.generate g').conflicts.map g'.namedConflict := by
  obtain ⟨c, hmem, rfl⟩ := List.mem_map.mp hc
  obtain ⟨c', hc', hkey, hterminals⟩ := h.exists_mem_conflicts hg hg' hmem
  rw [Conflict.key, Prod.mk.injEq, Prod.mk.injEq, Prod.mk.injEq] at hkey
  obtain ⟨hkind, hleft, hearlier, hlater⟩ := hkey
  have hnames : g.namesOf c.terminals = g'.namesOf c'.terminals :=
    h.namesOf_eq hterminals fun t ht => isTerminal_of_mem_conflicts hc' ht
  refine List.mem_map.mpr ⟨c', hc', ?_⟩
  rw [namedConflict, hkind, hleft, hearlier, hlater, h.name_eq, ← hnames, namedConflict]

end Renames

/-- **Parsers of grammars that say the same of every name** cannot be told apart by names. -/
theorem sameByName (hg : g.WellFormed) (hg' : g'.WellFormed)
    (hstart : g.name g.start = g'.name g'.start)
    (hdescribe : ∀ name, g.describe? name = g'.describe? name) :
    Parser.SameByName (Parser.generate g) (Parser.generate g') := by
  have h := renames_renumber hg hg' hstart hdescribe
  have h' := renames_renumber hg' hg hstart.symm fun name => (hdescribe name).symm
  exact
    { terminals := fun _ => ⟨h.mem_names_of_mem_terminals, h'.mem_names_of_mem_terminals⟩
      nonterminals := fun _ => ⟨h.mem_names_of_mem_nonterminals, h'.mem_names_of_mem_nonterminals⟩
      alternatives := by
        intro name s s' hs hs'
        obtain rfl := h.eq_of_name? hg' hs hs'
        exact (h.map_alternatives_eq s).symm
      nullable := by
        intro name s s' hs hs'
        obtain rfl := h.eq_of_name? hg' hs hs'
        exact (h.nullable_firstOf_eq [s]).symm
      first := by
        intro name s s' hs hs'
        obtain rfl := h.eq_of_name? hg' hs hs'
        have hmem := fun t => h.mem_firstOf_iff (t := t) (α := [s])
        exact h.namesOf_eq hmem fun t ht => (mem_firstOf_iff.mp ht).1
      follow := by
        intro name s s' hs hs' hkind
        obtain rfl := h.eq_of_name? hg' hs hs'
        have hmem := fun t => h.mem_followOf_iff (t := t) hg hg' hkind
        exact h.namesOf_eq hmem fun t ht => isTerminal_of_mem_followOf hg' ht
      cell := by
        intro left terminal s s' t t' hs hs' ht ht'
        obtain rfl := h.eq_of_name? hg' hs hs'
        obtain rfl := h.eq_of_name? hg' ht ht'
        exact (h.cell?_eq hg hg' s t).symm
      isLL1 := (h.isLL1_eq hg hg').symm
      conflicts := fun _ => ⟨h.mem_namedConflicts hg hg', h'.mem_namedConflicts hg' hg⟩
      run := fun input options => (h.run_eq hg hg' input options).symm }

end Grammar

namespace Parser

/-- There is a parser if there is a grammar. -/
theorem exists_build_iff {rules : List Rule} {start : Option String} {config : Config} :
    (∃ p, build rules start config = .ok p) ↔
      ∃ g, Grammar.ofRules rules start config = .ok g := by
  rw [build]
  cases Grammar.ofRules rules start config <;> simp [Except.map]

/-- **The order of declaration does not matter.** Let rules be put in another order in which those
with the same left side stay in their order, or let two rules with the same left side, which both
have alternatives and no other such rule between them, be joined. If the start symbol is named,
then there is a parser of both lists of rules or of neither; and if there is, the two parsers
cannot be told apart by names. -/
theorem build_rearranged {rules rules' : List Rule} (h : Rearranged rules rules') (start : String)
    (config : Config) :
    ((∃ p, build rules (some start) config = .ok p) ↔
      ∃ p', build rules' (some start) config = .ok p') ∧
    ∀ p p', build rules (some start) config = .ok p →
      build rules' (some start) config = .ok p' → p.SameByName p' := by
  have hsame := h.sameDeclarations
  constructor
  · rw [exists_build_iff, exists_build_iff, hsame.exists_ofRules_iff]
  · intro p p' hp hp'
    obtain ⟨g, hg, rfl⟩ := exists_ofRules_of_build hp
    obtain ⟨g', hg', rfl⟩ := exists_ofRules_of_build hp'
    obtain ⟨hstart, hdescribe⟩ := hsame.describe?_eq hg hg'
    exact Grammar.sameByName (Grammar.wellFormed_of_ofRules hg)
      (Grammar.wellFormed_of_ofRules hg') hstart hdescribe

/-- Rules of a nonterminal whose alternatives stand apart. -/
def splitRules : List Rule :=
  [⟨"S", [["A", "b"]], []⟩, ⟨"A", [["a"]], []⟩, ⟨" S", [["c"]], []⟩]

/-- The grammar of these rules. -/
def splitGrammar : Grammar :=
  ⟨⟨#[.nonterminal "S" [[1, 2], [4]], .nonterminal "A" [[3]], .terminal "b", .terminal "a",
    .terminal "c", .terminal "$"]⟩, 0, 5⟩

/-- The same rules with the alternatives joined, and in the other order. -/
def joinedRules : List Rule :=
  [⟨"A", [["a"]], []⟩, ⟨"S", [["A", "b"], ["c"]], []⟩]

/-- The grammar of these rules. -/
def joinedGrammar : Grammar :=
  ⟨⟨#[.nonterminal "A" [[2]], .nonterminal "S" [[0, 3], [4]], .terminal "a", .terminal "b",
    .terminal "c", .terminal "$"]⟩, 1, 5⟩

theorem splitRules_rearranged : Rearranged splitRules joinedRules := by
  have hS : Rule.name ⟨"S", [["A", "b"], ["c"]], []⟩ = "S" := by decide +kernel
  have hA : Rule.name ⟨"A", [["a"]], []⟩ = "A" := by decide +kernel
  have hjoined : Rearranged splitRules
      [⟨"S", [["A", "b"], ["c"]], []⟩, ⟨"A", [["a"]], []⟩] :=
    @Rearranged.joined [] [⟨"A", [["a"]], []⟩] [] ⟨"S", [["A", "b"]], []⟩ ⟨" S", [["c"]], []⟩
      ⟨"S", [["A", "b"], ["c"]], []⟩ (by decide +kernel) (by decide +kernel) (by simp) (by simp)
      (by simp [hS, hA]) rfl
  refine hjoined.trans (.permuted (.swap _ _ []) fun name => ?_)
  by_cases hname : "A" = name
  · subst hname
    simp [joinedRules, hS, hA]
  · simp [joinedRules, List.filter_cons, hA, hname]

theorem build_rearranged_split :
    Rearranged splitRules joinedRules ∧
      build splitRules (some "S") {} = .ok (generate splitGrammar) ∧
      build joinedRules (some "S") {} = .ok (generate joinedGrammar) ∧
      (generate splitGrammar).SameByName (generate joinedGrammar) := by
  have hp : build splitRules (some "S") {} = .ok (generate splitGrammar) :=
    build_eq_ok (by decide +kernel)
  have hp' : build joinedRules (some "S") {} = .ok (generate joinedGrammar) :=
    build_eq_ok (by decide +kernel)
  obtain ⟨-, hsame⟩ := build_rearranged splitRules_rearranged "S" {}
  exact ⟨splitRules_rearranged, hp, hp', hsame _ _ hp hp'⟩

end Parser

end TopDown
