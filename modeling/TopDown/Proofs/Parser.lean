import TopDown.Proofs.Grammar.Names
import TopDown.Proofs.Grammar.Registry
import TopDown.Proofs.Table.Lookup

/-!
# Parsers are well-formed

Rules are registered, and the parser of their grammar is generated, without a lookup that fails:
whatever the rules are, building a parser ends with a parser or with a fault. A parser that is built
is well-formed. Its symbols and the table of their names are inverse to each other, they are the
names that stand in the rules and the end mark, and they are classified by the rules and the
convention; alternatives and sets hold nothing but symbols of the right kind; and no cell of the
table is missing.

## Main definitions

* `Parser.build?`: building a parser, with every lookup that can fail
* `Parser.WellFormed`: what holds of a parser that is built

## Main results

* `Parser.build?_wellFormed`: building a parser does not fail, and the parser is well-formed
-/

namespace TopDown

/-! ## Building a parser -/

namespace Parser

/-- The parser of a list of rules, with a registry of its symbols and what is reported about it, or
the first fault. Every lookup can fail. -/
def build? (rules : List Rule) (start : Option String) (config : Config) :
    ExceptT BuildError Option (Registry × Parser × List LogRecord) := do
  let (r, g) ← Grammar.register? rules start config
  let (p, records) ← liftM (generate? g)
  return (r, p, records)

/-- What holds of a parser that is built from rules, and of the registry of its symbols. -/
structure WellFormed (rules : List Rule) (config : Config) (r : Registry) (p : Parser) : Prop where
  /-- The registry holds the symbols of the grammar. -/
  catalog_eq : r.catalog = p.grammar.toCatalog
  /-- A symbol is registered under its place. -/
  index_eq : ∀ {i : Nat} {slot : Slot}, r.slots[i]? = some slot → slot.index = i
  /-- The table of names is inverse to the names of the symbols. -/
  number_iff : ∀ {name : String} {i : Nat},
    r.numbers[name]? = some i ↔ p.grammar.name? i = some name
  /-- The names are those that stand in the rules, trimmed, and the end mark. -/
  registered_iff : ∀ {name : String}, (∃ i, r.numbers[name]? = some i) ↔
    (∃ rule ∈ rules, Text.trim rule.left = name) ∨
    (∃ rule ∈ rules, ∃ names ∈ rule.alternatives, ∃ raw ∈ names, Text.trim raw = name ∧
      ¬ (names = [raw] ∧ config.isEpsilon name = true)) ∨
    name = Mark.finish
  /-- Nonterminals are the left sides, and what the convention takes for nonterminals. -/
  isNonterminal_iff : ∀ {name : String} {i : Nat}, r.numbers[name]? = some i →
    (p.grammar.isNonterminal i = true ↔ (∃ rule ∈ rules, Text.trim rule.left = name) ∨
      name ≠ Mark.finish ∧ config.convention.isNonterminal name = true)
  /-- No name but the end mark may be a placeholder of the empty string. -/
  isEpsilon_eq_false : ∀ {name : String} {i : Nat}, r.numbers[name]? = some i →
    name ≠ Mark.finish → config.isEpsilon name = false
  /-- The end mark is a terminal, the last symbol, and registered once. -/
  isTerminal_finish : p.grammar.isTerminal p.grammar.finish = true
  size_eq : p.grammar.size = p.grammar.finish + 1
  name?_eq_finish_iff : ∀ {i : Nat},
    p.grammar.name? i = some Mark.finish ↔ i = p.grammar.finish
  /-- The alternatives hold symbols other than the end mark. -/
  closed : ∀ {left : Nat} {α : List Nat}, α ∈ p.grammar.alternatives left →
    ∀ s ∈ α, s < p.grammar.size ∧ s ≠ p.grammar.finish
  /-- FIRST sets hold terminals other than the end mark, FOLLOW sets hold terminals. -/
  isTerminal_of_mem_first : ∀ {s : Nat}, p.grammar.isNonterminal s = true →
    ∀ t ∈ (First.ofSymbol p.lookahead.first s).terminals,
      p.grammar.isTerminal t = true ∧ t ≠ p.grammar.finish
  isTerminal_of_mem_follow : ∀ {s : Nat}, ∀ t ∈ p.lookahead.followOf s,
    p.grammar.isTerminal t = true
  /-- The start symbol is a nonterminal with alternatives, and the end mark follows it. -/
  isNonterminal_start : p.grammar.isNonterminal p.grammar.start = true
  alternatives_start_ne_nil : p.grammar.alternatives p.grammar.start ≠ []
  finish_mem_follow_start : p.grammar.finish ∈ p.lookahead.followOf p.grammar.start
  /-- Every nonterminal has a row, with a cell for every terminal. -/
  exists_row : ∀ {left : Nat}, p.grammar.isNonterminal left = true →
    ∃ row, p.table.row? left = some row ∧ row.cells.length = p.grammar.terminals.length
  exists_cell : ∀ {left t : Nat}, p.grammar.isNonterminal left = true →
    p.grammar.isTerminal t = true → ∃ cell, p.table.cell? left t = some cell

variable {rules : List Rule} {start : Option String} {config : Config} {g : Grammar} {r : Registry}

/-- The FIRST set of a nonterminal holds terminals other than the end mark. -/
theorem isTerminal_of_mem_first (hg : g.WellFormed) {s t : Nat} (hs : g.isNonterminal s = true)
    (ht : t ∈ (First.ofSymbol g.lookahead.first s).terminals) :
    g.isTerminal t = true ∧ t ≠ g.finish := by
  rw [← Grammar.firstOf_singleton] at ht
  obtain ⟨hterminal, γ, hγ⟩ := Grammar.mem_firstOf_iff.mp ht
  refine ⟨hterminal, Nat.ne_of_lt (hγ.lt_finish hg (fun n hn => ?_) t List.mem_cons_self)⟩
  rw [List.mem_singleton.mp hn]
  exact hg.lt_finish_of_isNonterminal hs

/-- The parser of a grammar is well-formed, with any registry of its symbols. -/
theorem wellFormed_generate (h : Grammar.ofRules rules start config = .ok g)
    (hr : r.Represents g.toCatalog) : (generate g).WellFormed rules config r := by
  have hg := Grammar.wellFormed_of_ofRules h
  have hfind : ∀ {name : String} {i : Nat}, r.numbers[name]? = some i ↔ g.find? name = some i := by
    intro name i
    rw [hr.number_eq]
  have hrow : ∀ {left : Nat}, g.isNonterminal left = true →
      (g.table g.lookahead).row? left = some _ := fun hleft => Grammar.row?_table hleft
  refine {
    catalog_eq := hr.catalog_eq
    index_eq := hr.index_eq
    number_iff := hfind.trans hg.find?_eq_some_iff
    registered_iff := ?_
    isNonterminal_iff := fun h' => Grammar.isNonterminal_iff h (hfind.mp h')
    isEpsilon_eq_false := ?_
    isTerminal_finish := hg.isTerminal_finish
    size_eq := hg.size_eq
    name?_eq_finish_iff := ⟨fun hi => hg.unique hi hg.name?_finish, ?_⟩
    closed := fun hα s hs => ⟨hg.lt_size_of_mem hα hs, Nat.ne_of_lt (hg.closed hα s hs)⟩
    isTerminal_of_mem_first := fun hs t ht => isTerminal_of_mem_first hg hs ht
    isTerminal_of_mem_follow := fun t ht => Grammar.isTerminal_of_mem_followOf hg ht
    isNonterminal_start := hg.isNonterminal_start
    alternatives_start_ne_nil := (Grammar.alternatives_ne_nil_iff h
      (Catalog.lt_size_of_isNonterminal hg.isNonterminal_start)).mpr (Grammar.name_start_mem h)
    finish_mem_follow_start :=
      Grammar.finish_mem_followTable (Catalog.lt_size_of_isNonterminal hg.isNonterminal_start)
    exists_row := fun hleft => ⟨_, hrow hleft, List.length_map _⟩
    exists_cell := fun hleft ht => ⟨_, Grammar.cell?_table hleft ht⟩ }
  · intro name
    simp only [hfind, ← Config.mem_spelling_iff]
    exact Grammar.exists_find?_iff h
  · intro name i hi hname
    have hstands := (Grammar.exists_find?_iff h).mp ⟨i, hfind.mp hi⟩
    refine (Grammar.not_reserved h ?_).1
    rwa [← or_assoc, or_iff_left hname] at hstands
  · rintro rfl
    exact hg.name?_finish

/-- Registration and generation fail nowhere, and come to the parser of the rules. -/
theorem build?_agrees (rules : List Rule) (start : Option String) (config : Config) :
    Agrees (fun x p => x.1.Represents p.grammar.toCatalog ∧ x.2 = (p, p.log))
      (build? rules start config) (build rules start config) := by
  have hbuild : build rules start config =
      Grammar.ofRules rules start config >>= fun g => .ok (generate g) := by
    rw [build]
    cases Grammar.ofRules rules start config <;> rfl
  rw [hbuild]
  refine (Grammar.register?_agrees rules start config).bind ?_
  rintro ⟨r, g⟩ _ ⟨rfl, hr⟩ h
  refine .lookup (generate?_eq (Grammar.wellFormed_of_ofRules h)) (.ok ⟨hr, rfl⟩)

/-- **Building a parser does not fail, and the parser is well-formed.** For all rules, every start
symbol and every configuration, all lookups on the way find what they look for, and the passes come
to an end. The outcome is the first fault in the rules or a parser, and then the parser is
well-formed. -/
theorem build?_wellFormed (rules : List Rule) (start : Option String) (config : Config) :
    ∃ outcome, (build? rules start config).run = some outcome ∧
      outcome.map (fun x => x.2.1) = build rules start config ∧
      ∀ r p records, outcome = .ok (r, p, records) →
        p.WellFormed rules config r ∧ records = p.log := by
  obtain ⟨outcome, hrun, hagree⟩ := build?_agrees rules start config
  refine ⟨outcome, hrun, ?_⟩
  generalize hbuild : build rules start config = y at hagree
  cases hagree with
  | error e => exact ⟨rfl, fun r p records h => nomatch h⟩
  | @ok x p h =>
    obtain ⟨r, p', records⟩ := x
    obtain ⟨hr, hrest⟩ := h
    obtain ⟨rfl, rfl⟩ := Prod.mk.inj hrest
    refine ⟨rfl, ?_⟩
    rintro _ _ _ ⟨rfl, rfl, rfl⟩
    obtain ⟨g, hg, rfl⟩ := exists_ofRules_of_build hbuild
    exact ⟨wellFormed_generate hg hr, rfl⟩

/-- Rules with blanks around names, a left side in two rules, and a placeholder. -/
def paddedRules : List Rule :=
  [⟨" S ", [["A ", "b"]], []⟩, ⟨"A", [["_ "]], []⟩, ⟨"S", [[" c", "D"]], []⟩]

/-- The grammar of these rules. -/
def paddedGrammar : Grammar :=
  ⟨⟨#[.nonterminal "S" [[1, 2], [3, 4]], .nonterminal "A" [[]], .terminal "b", .terminal "c",
    .nonterminal "D" [], .terminal "$"]⟩, 0, 5⟩

theorem build?_wellFormed_padded : ∃ r records,
    (build? paddedRules none {}).run = some (.ok (r, generate paddedGrammar, records)) ∧
      r.numbers["A"]? = some 1 ∧ r.numbers["_"]? = none ∧ r.numbers["$"]? = some 5 := by
  have hp : build paddedRules none {} = .ok (generate paddedGrammar) :=
    build_eq_ok (by decide +kernel)
  obtain ⟨outcome, hrun, hmap, hsound⟩ := build?_wellFormed paddedRules none {}
  rw [hp] at hmap
  cases outcome with
  | error e => cases hmap
  | ok x =>
    obtain ⟨r, p, records⟩ := x
    cases hmap
    obtain ⟨h, -⟩ := hsound r _ records rfl
    refine ⟨r, records, hrun, h.number_iff.mpr (by decide), ?_, h.number_iff.mpr (by decide)⟩
    cases hnone : r.numbers["_"]? with
    | none => rfl
    | some i => exact absurd (h.isEpsilon_eq_false hnone (by decide)) (by decide)

end Parser

end TopDown
