import Mathlib.Data.List.Basic
import TopDown.Proofs.Follow.Exact
import TopDown.Proofs.Grammar.Declaration

/-!
# Grammars that differ in the numbers of their symbols

Two grammars that say the same of every name differ in nothing but the numbers of their symbols:
there is a renaming of numbers which takes one of them to the other (`Grammar.Renames`). A renaming
takes derivations to derivations, and every derivation of the second grammar comes from one of the
first. Numbers that are no symbols are renamed to numbers that are no symbols, so that nothing has
to be said of the strings that are renamed.

## Main definitions

* `Entry.rename`, `Grammar.Renames`: renaming symbols
* `Grammar.renumber`: the renaming between grammars, by names

## Main results

* `Grammar.renames_renumber`: grammars that say the same of every name are renamed
* `Grammar.Renames.derives_iff`, `Grammar.Renames.follows_iff`: derivations of renamed strings
* `Grammar.Renames.findTerminal?_eq`: terminals are found by the same names
-/

namespace TopDown

/-- An entry of a catalog with other numbers in its alternatives. -/
def Entry.rename (σ : Nat → Nat) : Entry → Entry
  | terminal name => terminal name
  | nonterminal name alternatives => nonterminal name (alternatives.map (·.map σ))

namespace Entry

variable (σ : Nat → Nat) (e : Entry)

@[simp] theorem name_rename : (e.rename σ).name = e.name := by
  cases e <;> rfl

@[simp] theorem isTerminal_rename : (e.rename σ).isTerminal = e.isTerminal := by
  cases e <;> rfl

@[simp] theorem alternatives_rename :
    (e.rename σ).alternatives = e.alternatives.map (·.map σ) := by
  cases e <;> rfl

/-- An entry is known by its name, its kind and its alternatives. -/
theorem eq_rename {σ : Nat → Nat} {e e' : Entry} (hname : e'.name = e.name)
    (hkind : e'.isTerminal = e.isTerminal)
    (halternatives : e'.alternatives = e.alternatives.map (·.map σ)) : e' = e.rename σ := by
  cases e <;> cases e' <;> simp_all [name, isTerminal, alternatives, rename]

end Entry

namespace Grammar

/-- A renaming of numbers takes one grammar to another: the entries, which stand in another order,
the start symbol and the end mark. -/
structure Renames (σ : Nat → Nat) (g g' : Grammar) : Prop where
  injective : Function.Injective σ
  entry : ∀ symbol, g'.entries[σ symbol]? = g.entries[symbol]?.map (Entry.rename σ)
  onto : ∀ {symbol'}, symbol' < g'.size → ∃ symbol, σ symbol = symbol'
  start : σ g.start = g'.start
  finish : σ g.finish = g'.finish

/-- A terminal is what is found by its name. -/
theorem WellFormed.findTerminal?_eq_some_iff {g : Grammar} (hg : g.WellFormed) {name : String}
    {symbol : Nat} :
    g.findTerminal? name = some symbol ↔ g.isTerminal symbol = true ∧ g.name symbol = name := by
  constructor
  · intro h
    obtain ⟨hfind, hs⟩ := Option.filter_eq_some_iff.mp h
    exact ⟨hs, Catalog.name_eq_of_name? (Catalog.name?_of_find? hfind)⟩
  · rintro ⟨hs, rfl⟩
    exact hg.findTerminal?_name hs

namespace Renames

variable {σ : Nat → Nat} {g g' : Grammar} {symbol s t : Nat} {α β γ δ : List Nat}

/-! ## Catalogs -/

theorem name?_eq (h : Renames σ g g') (symbol : Nat) : g'.name? (σ symbol) = g.name? symbol := by
  simp [Catalog.name?, h.entry, Function.comp_def]

theorem name_eq (h : Renames σ g g') (symbol : Nat) :
    g'.name (σ symbol) = g.name symbol := by
  rw [Catalog.name, h.name?_eq, Catalog.name]

theorem isTerminal_eq (h : Renames σ g g') (symbol : Nat) :
    g'.isTerminal (σ symbol) = g.isTerminal symbol := by
  rw [Catalog.isTerminal, h.entry, Catalog.isTerminal]
  cases g.entries[symbol]? <;> simp

theorem isNonterminal_eq (h : Renames σ g g') (symbol : Nat) :
    g'.isNonterminal (σ symbol) = g.isNonterminal symbol := by
  rw [Catalog.isNonterminal, h.entry, Catalog.isNonterminal]
  cases g.entries[symbol]? <;> simp

theorem alternatives_eq (h : Renames σ g g') (symbol : Nat) :
    g'.alternatives (σ symbol) = (g.alternatives symbol).map (·.map σ) := by
  rw [Catalog.alternatives, h.entry, Catalog.alternatives]
  cases g.entries[symbol]? <;> simp

theorem alternative_eq (h : Renames σ g g') (symbol number : Nat) :
    g'.alternative (σ symbol) number = (g.alternative symbol number).map σ := by
  rw [Catalog.alternative, h.alternatives_eq, List.getElem?_map, Catalog.alternative]
  cases (g.alternatives symbol)[number]? <;> rfl

theorem map_name_eq (h : Renames σ g g') (α : List Nat) :
    (α.map σ).map g'.name = α.map g.name := by
  simp [h.name_eq]

/-- The alternatives are the same by name. -/
theorem map_alternatives_eq (h : Renames σ g g') (symbol : Nat) :
    (g'.alternatives (σ symbol)).map (·.map g'.name) =
      (g.alternatives symbol).map (·.map g.name) := by
  rw [h.alternatives_eq, List.map_map]
  exact List.map_congr_left fun α _ => h.map_name_eq α

theorem productionText_eq (h : Renames σ g g') (symbol number : Nat) :
    g'.productionText (σ symbol) number = g.productionText symbol number := by
  rw [Catalog.productionText, h.name_eq, h.alternative_eq, Catalog.productionText]
  congr 2
  cases g.alternative symbol number with
  | nil => rfl
  | cons first rest => simp [Catalog.spell, h.name_eq]

/-- A symbol of the second grammar is the new number of a symbol of the first. -/
theorem exists_of_isTerminal (h : Renames σ g g') {symbol' : Nat}
    (hs : g'.isTerminal symbol' = true) :
    ∃ symbol, σ symbol = symbol' ∧ g.isTerminal symbol = true := by
  obtain ⟨symbol, rfl⟩ := h.onto (Catalog.lt_size_of_isTerminal hs)
  exact ⟨symbol, rfl, (h.isTerminal_eq symbol).symm.trans hs⟩

theorem exists_of_isNonterminal (h : Renames σ g g') {symbol' : Nat}
    (hs : g'.isNonterminal symbol' = true) :
    ∃ symbol, σ symbol = symbol' ∧ g.isNonterminal symbol = true := by
  obtain ⟨symbol, rfl⟩ := h.onto (Catalog.lt_size_of_isNonterminal hs)
  exact ⟨symbol, rfl, (h.isNonterminal_eq symbol).symm.trans hs⟩

/-- Terminals are found by the same names. -/
theorem findTerminal?_eq (h : Renames σ g g') (hg : g.WellFormed) (hg' : g'.WellFormed)
    (name : String) : g'.findTerminal? name = (g.findTerminal? name).map σ := by
  apply Option.ext
  intro symbol'
  rw [Option.map_eq_some_iff]
  simp only [hg.findTerminal?_eq_some_iff, hg'.findTerminal?_eq_some_iff]
  constructor
  · rintro ⟨hs, hname⟩
    obtain ⟨symbol, rfl, hsymbol⟩ := h.exists_of_isTerminal hs
    exact ⟨symbol, ⟨hsymbol, (h.name_eq symbol).symm.trans hname⟩, rfl⟩
  · rintro ⟨symbol, ⟨hs, hname⟩, rfl⟩
    exact ⟨(h.isTerminal_eq symbol).trans hs, (h.name_eq symbol).trans hname⟩

/-! ## Derivations -/

theorem derives (h : Renames σ g g') (hαβ : g.Derives α β) :
    g'.Derives (α.map σ) (β.map σ) := by
  induction hαβ with
  | refl => exact .refl
  | @step β γ δ symbol _ halt ih =>
    rw [List.map_append, List.map_cons] at ih
    rw [List.map_append, List.map_append]
    refine ih.step ?_
    rw [h.alternatives_eq]
    exact List.mem_map_of_mem halt

/-- A derivation of the second grammar from a renamed string comes from one of the first. -/
theorem exists_of_derives (h : Renames σ g g') (hαγ : g'.Derives (α.map σ) γ) :
    ∃ β, γ = β.map σ ∧ g.Derives α β := by
  induction hαγ with
  | refl => exact ⟨α, rfl, .refl⟩
  | @step β γ δ symbol _ halt ih =>
    obtain ⟨ζ, hζ, hderives⟩ := ih
    obtain ⟨β₀, rest, rfl, rfl, hrest⟩ := List.append_eq_map_iff.mp hζ
    obtain ⟨symbol₀, γ₀, rfl, rfl, rfl⟩ := List.map_eq_cons_iff.mp hrest
    rw [h.alternatives_eq] at halt
    obtain ⟨δ₀, halt₀, rfl⟩ := List.mem_map.mp halt
    exact ⟨β₀ ++ (δ₀ ++ γ₀), by rw [List.map_append, List.map_append], hderives.step halt₀⟩

/-- **Renamed strings derive each other as the strings themselves do.** -/
theorem derives_iff (h : Renames σ g g') : g'.Derives (α.map σ) (β.map σ) ↔ g.Derives α β := by
  refine ⟨fun hαβ => ?_, h.derives⟩
  obtain ⟨β₀, heq, hderives⟩ := h.exists_of_derives hαβ
  rwa [← List.map_injective_iff.mpr h.injective heq] at hderives

/-- A derivation from a renamed string in which a renamed string comes out somewhere. -/
theorem exists_of_derives_append (h : Renames σ g g') {β' γ' : List Nat}
    (hderives : g'.Derives (α.map σ) (β' ++ (δ.map σ ++ γ'))) :
    ∃ β γ, β.map σ = β' ∧ γ.map σ = γ' ∧ g.Derives α (β ++ (δ ++ γ)) := by
  obtain ⟨ζ, hζ, hα⟩ := h.exists_of_derives hderives
  obtain ⟨β, rest, rfl, hβ, hrest⟩ := List.append_eq_map_iff.mp hζ
  obtain ⟨δ₀, γ, rfl, hδ, hγ⟩ := List.map_eq_append_iff.mp hrest
  rw [List.map_injective_iff.mpr h.injective hδ] at hα
  exact ⟨β, γ, hβ, hγ, hα⟩

/-- What comes first in what renamed strings derive. -/
theorem exists_derives_cons_iff (h : Renames σ g g') :
    (∃ γ', g'.Derives (α.map σ) (σ t :: γ')) ↔ ∃ γ, g.Derives α (t :: γ) := by
  constructor
  · rintro ⟨γ', hderives⟩
    have happend : g'.Derives (α.map σ) ([] ++ ([t].map σ ++ γ')) := hderives
    obtain ⟨β, γ, hβ, -, hα⟩ := h.exists_of_derives_append happend
    obtain rfl := List.map_eq_nil_iff.mp hβ
    exact ⟨γ, hα⟩
  · rintro ⟨γ, hα⟩
    exact ⟨γ.map σ, h.derives hα⟩

/-- What comes last in what renamed strings derive. -/
theorem exists_derives_concat_iff (h : Renames σ g g') :
    (∃ β', g'.Derives (α.map σ) (β' ++ [σ s])) ↔ ∃ β, g.Derives α (β ++ [s]) := by
  constructor
  · rintro ⟨β', hderives⟩
    have happend : g'.Derives (α.map σ) (β' ++ ([s].map σ ++ [])) := hderives
    obtain ⟨β, γ, -, hγ, hα⟩ := h.exists_of_derives_append happend
    obtain rfl := List.map_eq_nil_iff.mp hγ
    exact ⟨β, hα⟩
  · rintro ⟨β, hα⟩
    have hmap := h.derives hα
    rw [List.map_append] at hmap
    exact ⟨β.map σ, hmap⟩

/-- **What follows a symbol follows the renamed symbol**, under its new number. -/
theorem follows_iff (h : Renames σ g g') : g'.Follows (σ s) (σ t) ↔ g.Follows s t := by
  have hend : (∃ α', g'.Derives [g'.start] (α' ++ [σ s])) ↔
      ∃ α, g.Derives [g.start] (α ++ [s]) := by
    rw [← h.start]
    exact h.exists_derives_concat_iff (α := [g.start])
  have hnext : (∃ left', g'.isNonterminal left' = true ∧
      ∃ α' β', g'.Derives [left'] (α' ++ σ s :: σ t :: β')) ↔
      ∃ left, g.isNonterminal left = true ∧ ∃ α β, g.Derives [left] (α ++ s :: t :: β) := by
    constructor
    · rintro ⟨left', hleft', α', β', hderives⟩
      obtain ⟨left, rfl, hleft⟩ := h.exists_of_isNonterminal hleft'
      have happend : g'.Derives ([left].map σ) (α' ++ ([s, t].map σ ++ β')) := hderives
      obtain ⟨α, β, -, -, hα⟩ := h.exists_of_derives_append happend
      exact ⟨left, hleft, α, β, hα⟩
    · rintro ⟨left, hleft, α, β, hα⟩
      have hmap := h.derives hα
      rw [List.map_append] at hmap
      exact ⟨σ left, (h.isNonterminal_eq left).trans hleft, α.map σ, β.map σ, hmap⟩
  rw [Follows, Follows, hend, hnext, h.isTerminal_eq, ← h.finish, ne_eq, ne_eq,
    h.injective.eq_iff]

end Renames

/-! ## The renaming by names -/

/-- The number that the name of a symbol has in another grammar. Numbers that are no symbols get
numbers that are no symbols. -/
def renumber (g g' : Grammar) (symbol : Nat) : Nat :=
  if symbol < g.size then (g'.find? (g.name symbol)).getD 0 else g'.size + symbol

section Renaming

variable {g g' : Grammar} {s s' : Nat}

theorem renumber_of_lt (hs : s < g.size) :
    g.renumber g' s = (g'.find? (g.name s)).getD 0 :=
  if_pos hs

theorem renumber_of_ge (hs : g.size ≤ s) : g.renumber g' s = g'.size + s :=
  if_neg (Nat.not_lt.mpr hs)

/-- A symbol is renamed to the one with the same name. -/
theorem renumber_eq (hg' : g'.WellFormed) (hs : s < g.size) (hs' : s' < g'.size)
    (hname : g'.name s' = g.name s) : g.renumber g' s = s' := by
  rw [renumber_of_lt hs, ← hname, hg'.find?_name hs', Option.getD_some]

/-- For a symbol there is one with the same name, of which the catalog says the same. -/
theorem exists_same_name (hg : g.WellFormed)
    (h : ∀ name, g.describe? name = g'.describe? name) (hs : s < g.size) :
    ∃ s' < g'.size, g'.name s' = g.name s ∧ g'.isTerminal s' = g.isTerminal s ∧
      (g'.alternatives s').map (·.map g'.name) = (g.alternatives s).map (·.map g.name) := by
  have hdescription : g.describe? (g.name s) =
      some ⟨g.isTerminal s, (g.alternatives s).map (·.map g.name)⟩ := by
    rw [Catalog.describe?, hg.find?_name hs, Option.map_some]
  rw [h] at hdescription
  obtain ⟨s', hfind, hsame⟩ := Option.map_eq_some_iff.mp hdescription
  rw [Description.mk.injEq] at hsame
  exact ⟨s', Catalog.lt_size_of_find? hfind,
    Catalog.name_eq_of_name? (Catalog.name?_of_find? hfind), hsame⟩

/-- Strings of symbols with the same names are renamed to each other. -/
theorem map_renumber_eq (hg' : g'.WellFormed) {A A' : List (List Nat)}
    (hA : ∀ α ∈ A, ∀ s ∈ α, s < g.size) (hA' : ∀ α ∈ A', ∀ s ∈ α, s < g'.size)
    (hnames : A'.map (·.map g'.name) = A.map (·.map g.name)) :
    A' = A.map (·.map (g.renumber g')) := by
  have hlookup := congrArg (List.map (List.map fun name => (g'.find? name).getD 0)) hnames
  rw [List.map_map, List.map_map] at hlookup
  have hleft : A'.map ((List.map fun name => (g'.find? name).getD 0) ∘ (·.map g'.name)) = A' := by
    refine (List.map_congr_left fun α hα => ?_).trans (List.map_id A')
    rw [Function.comp_apply, List.map_map]
    refine (List.map_congr_left fun s hs => ?_).trans (List.map_id α)
    rw [Function.comp_apply, hg'.find?_name (hA' α hα s hs)]
    rfl
  have hright : A.map ((List.map fun name => (g'.find? name).getD 0) ∘ (·.map g.name)) =
      A.map (·.map (g.renumber g')) := by
    refine List.map_congr_left fun α hα => ?_
    rw [Function.comp_apply, List.map_map]
    refine List.map_congr_left fun s hs => ?_
    rw [Function.comp_apply, renumber_of_lt (hA α hα s hs)]
  rwa [hleft, hright] at hlookup

/-- **Grammars that say the same of every name are renamed to each other.** -/
theorem renames_renumber (hg : g.WellFormed) (hg' : g'.WellFormed)
    (hstart : g.name g.start = g'.name g'.start)
    (h : ∀ name, g.describe? name = g'.describe? name) :
    Renames (g.renumber g') g g' := by
  have hsymbol : ∀ {s}, s < g.size → g.renumber g' s < g'.size ∧
      g'.name (g.renumber g' s) = g.name s := by
    intro s hs
    obtain ⟨s', hs', hname, -⟩ := exists_same_name hg h hs
    rw [renumber_eq hg' hs hs' hname]
    exact ⟨hs', hname⟩
  refine ⟨?_, ?_, ?_, ?_, ?_⟩
  · intro s t heq
    rcases Nat.lt_or_ge s g.size with hs | hs
    · rcases Nat.lt_or_ge t g.size with ht | ht
      · have hname := (hsymbol hs).2
        rw [heq, (hsymbol ht).2] at hname
        exact hg.eq_of_name_eq hs ht hname.symm
      · have hlt := (hsymbol hs).1
        rw [heq, renumber_of_ge ht] at hlt
        omega
    · rcases Nat.lt_or_ge t g.size with ht | ht
      · have hlt := (hsymbol ht).1
        rw [← heq, renumber_of_ge hs] at hlt
        omega
      · rw [renumber_of_ge hs, renumber_of_ge ht] at heq
        omega
  · intro s
    rcases Nat.lt_or_ge s g.size with hs | hs
    · obtain ⟨s', hs', hname, hkind, hspelled⟩ := exists_same_name hg h hs
      have halternatives := map_renumber_eq hg' (fun α hα t => hg.lt_size_of_mem hα)
        (fun α hα t => hg'.lt_size_of_mem hα) hspelled
      have he : g.entries[s]? = some g.entries[s] := Array.getElem?_eq_getElem hs
      have he' : g'.entries[s']? = some g'.entries[s'] := Array.getElem?_eq_getElem hs'
      rw [renumber_eq hg' hs hs' hname, he, he', Option.map_some, Option.some.injEq]
      rw [Catalog.name, Catalog.name?, he', Catalog.name, Catalog.name?, he] at hname
      rw [Catalog.isTerminal, he', Catalog.isTerminal, he] at hkind
      rw [Catalog.alternatives, he', Catalog.alternatives, he] at halternatives
      exact Entry.eq_rename hname hkind halternatives
    · have hnone : g'.entries[g'.size + s]? = none :=
        Array.getElem?_eq_none (Nat.le_add_right g'.size s)
      have hnone' : g.entries[s]? = none := Array.getElem?_eq_none hs
      rw [renumber_of_ge hs, hnone, hnone', Option.map_none]
  · intro s' hs'
    obtain ⟨s, hs, hname, -⟩ := exists_same_name hg' (fun name => (h name).symm) hs'
    exact ⟨s, renumber_eq hg' hs hs' hname.symm⟩
  · exact renumber_eq hg' (Nat.lt_trans hg.start_lt_finish hg.finish_lt)
      (Nat.lt_trans hg'.start_lt_finish hg'.finish_lt) hstart.symm
  · exact renumber_eq hg' hg.finish_lt hg'.finish_lt
      (hg'.name_finish.trans hg.name_finish.symm)

end Renaming

end Grammar

end TopDown
