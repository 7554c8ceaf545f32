import Mathlib.Tactic.SplitIfs
import TopDown.Parser

/-!
# Well-formed grammars

What every grammar made from rules has in common, whatever its rules are: a name belongs to one
symbol only, the alternatives hold symbols of the catalog other than the end mark, the end mark is
the terminal registered last, and the start symbol is a nonterminal.

The construction goes through catalogs that are not finished yet. They are `Catalog.Consistent`,
and each step of the construction takes a catalog to one that it is a part of (`Catalog.Grows`).

## Main definitions

* `Catalog.Consistent`, `Catalog.Grows`: what holds while a catalog is filled
* `Grammar.WellFormed`: what holds of a grammar

## Main results

* `Grammar.wellFormed_of_ofRules`: grammars made from rules are well-formed
* `Parser.exists_of_build`: a parser made from rules is that of a well-formed grammar
* `Grammar.WellFormed.findTerminal?_name`: a terminal is found by its name
-/

namespace TopDown

/-- A chain of steps that may fail gives a result only if each of them does. -/
theorem exists_of_bind_ok {ε α β : Type} {x : Except ε α} {f : α → Except ε β} {b : β}
    (h : x >>= f = .ok b) : ∃ a, x = .ok a ∧ f a = .ok b := by
  cases x with
  | error e => cases h
  | ok a => exact ⟨a, rfl, h⟩

/-- An invariant of a fold that speaks of what has been folded. -/
theorem foldlM_invariant {ε α β : Type} {f : β → α → Except ε β} {P : List α → β → Prop}
    {l : List α} {b b' : β} (h : l.foldlM f b = .ok b')
    (hf : ∀ done, ∀ a ∈ l, ∀ b b', P done b → f b a = .ok b' → P (done ++ [a]) b')
    (hb : P [] b) : P l b' := by
  suffices hdone : ∀ done, P done b → P (done ++ l) b' from hdone [] hb
  clear hb
  induction l generalizing b with
  | nil =>
    cases h
    intro done hb
    rwa [List.append_nil]
  | cons a l ih =>
    intro done hb
    rw [List.foldlM_cons] at h
    obtain ⟨b₁, hstep, hrest⟩ := exists_of_bind_ok h
    have ha := hf done a List.mem_cons_self b b₁ hb hstep
    have hl := ih hrest (fun done a ha => hf done a (List.mem_cons_of_mem _ ha)) (done ++ [a]) ha
    rwa [List.append_assoc, List.singleton_append] at hl

/-- What every step of a fold keeps holds at its end, if it gets there. -/
theorem foldlM_induction {ε α β : Type} {f : β → α → Except ε β} {P : β → Prop}
    (hf : ∀ b a b', f b a = .ok b' → P b → P b') {l : List α} {b b' : β}
    (h : l.foldlM f b = .ok b') (hb : P b) : P b' :=
  foldlM_invariant (P := fun _ => P) h (fun _ a _ b b' hP hstep => hf b a b' hstep hP) hb

namespace Entry

@[simp] theorem name_addAlternative (α : List Nat) (e : Entry) :
    (e.addAlternative α).name = e.name := by
  cases e <;> rfl

@[simp] theorem isTerminal_addAlternative (α : List Nat) (e : Entry) :
    (e.addAlternative α).isTerminal = e.isTerminal := by
  cases e <;> rfl

theorem mem_alternatives_addAlternative {α β : List Nat} {e : Entry}
    (h : β ∈ (e.addAlternative α).alternatives) : β = α ∨ β ∈ e.alternatives := by
  cases e with
  | terminal name => exact Or.inr h
  | nonterminal name alternatives =>
    rcases List.mem_append.mp h with h | h
    · exact Or.inr h
    · exact Or.inl (List.mem_singleton.mp h)

end Entry

namespace Catalog

variable {c c' : Catalog} {symbol : Nat} {name : String}

/-! ## Looking at a catalog -/

theorem mem_alternatives_iff {α : List Nat} :
    α ∈ c.alternatives symbol ↔ ∃ e, c.entries[symbol]? = some e ∧ α ∈ e.alternatives := by
  cases h : c.entries[symbol]? <;> simp [alternatives, h]

theorem isTerminal_iff :
    c.isTerminal symbol = true ↔ ∃ e, c.entries[symbol]? = some e ∧ e.isTerminal = true := by
  cases h : c.entries[symbol]? <;> simp [isTerminal, h]

theorem isNonterminal_iff :
    c.isNonterminal symbol = true ↔ ∃ e, c.entries[symbol]? = some e ∧ e.isTerminal = false := by
  cases h : c.entries[symbol]? <;> simp [isNonterminal, h]

theorem lt_size_of_getElem? {e : Entry} (h : c.entries[symbol]? = some e) : symbol < c.size :=
  (Array.getElem?_eq_some_iff.mp h).1

theorem lt_size_of_isTerminal (h : c.isTerminal symbol = true) : symbol < c.size := by
  obtain ⟨e, he, -⟩ := isTerminal_iff.mp h
  exact lt_size_of_getElem? he

theorem lt_size_of_isNonterminal (h : c.isNonterminal symbol = true) : symbol < c.size := by
  obtain ⟨e, he, -⟩ := isNonterminal_iff.mp h
  exact lt_size_of_getElem? he

theorem isTerminal_eq_false (h : c.isNonterminal symbol = true) : c.isTerminal symbol = false := by
  obtain ⟨e, he, hkind⟩ := isNonterminal_iff.mp h
  simp [isTerminal, he, hkind]

theorem isNonterminal_of_lt (hlt : symbol < c.size) (h : c.isTerminal symbol = false) :
    c.isNonterminal symbol = true := by
  have he : c.entries[symbol]? = some c.entries[symbol] := Array.getElem?_eq_getElem hlt
  simpa [isTerminal, isNonterminal, he] using h

/-- Only nonterminals have alternatives. -/
theorem isNonterminal_of_mem {α : List Nat} (h : α ∈ c.alternatives symbol) :
    c.isNonterminal symbol = true := by
  obtain ⟨e, he, hα⟩ := mem_alternatives_iff.mp h
  cases e with
  | terminal name => cases hα
  | nonterminal name alternatives => exact isNonterminal_iff.mpr ⟨_, he, rfl⟩

theorem mem_terminals : symbol ∈ c.terminals ↔ c.isTerminal symbol = true := by
  simp only [terminals, List.mem_filter, List.mem_range, and_iff_right_iff_imp]
  exact lt_size_of_isTerminal

theorem mem_nonterminals : symbol ∈ c.nonterminals ↔ c.isNonterminal symbol = true := by
  simp only [nonterminals, List.mem_filter, List.mem_range, and_iff_right_iff_imp]
  exact lt_size_of_isNonterminal

theorem length_nonterminals_le (c : Catalog) : c.nonterminals.length ≤ c.size := by
  have hle := List.length_filter_le c.isNonterminal (List.range c.size)
  rwa [List.length_range] at hle

theorem name?_eq_some_iff :
    c.name? symbol = some name ↔ ∃ e, c.entries[symbol]? = some e ∧ e.name = name := by
  simp [name?]

theorem name_eq_of_name? (h : c.name? symbol = some name) : c.name symbol = name := by
  simp [Catalog.name, h]

theorem name?_eq_name (h : symbol < c.size) : c.name? symbol = some (c.name symbol) := by
  have he : c.entries[symbol]? = some c.entries[symbol] := Array.getElem?_eq_getElem h
  simp [Catalog.name, name?, he]

theorem lt_size_of_name? (h : c.name? symbol = some name) : symbol < c.size := by
  obtain ⟨e, he, -⟩ := name?_eq_some_iff.mp h
  exact lt_size_of_getElem? he

theorem name?_of_find? (h : c.find? name = some symbol) : c.name? symbol = some name := by
  obtain ⟨hlt, hname, -⟩ := Array.findIdx?_eq_some_iff_getElem.mp h
  exact name?_eq_some_iff.mpr ⟨_, Array.getElem?_eq_getElem hlt, by simpa using hname⟩

theorem name?_ne_of_find? (h : c.find? name = none) (symbol : Nat) :
    c.name? symbol ≠ some name := by
  intro hname
  obtain ⟨e, he, heq⟩ := name?_eq_some_iff.mp hname
  have hne := Array.findIdx?_eq_none_iff.mp h e (Array.mem_of_getElem? he)
  simp [heq] at hne

/-! ## Growing catalogs -/

/-- What holds of a catalog while it is filled: a name belongs to one symbol, the end mark is not
registered yet, and the alternatives hold symbols of the catalog. -/
structure Consistent (c : Catalog) : Prop where
  unique : ∀ {name : String} {i j : Nat}, c.name? i = some name → c.name? j = some name → i = j
  unreserved : ∀ i, c.name? i ≠ some Mark.finish
  closed : ∀ {left : Nat} {α : List Nat}, α ∈ c.alternatives left → ∀ s ∈ α, s < c.size

theorem consistent_empty : empty.Consistent where
  unique h := by simp [empty, name?] at h
  unreserved i := by simp [empty, name?]
  closed h := by simp [empty, alternatives] at h

/-- A catalog grows into another one that has all its symbols, of the same kind and under the same
names, and is consistent if the first one is. -/
structure Grows (c c' : Catalog) : Prop where
  entry : ∀ {symbol : Nat} {e : Entry}, c.entries[symbol]? = some e →
    ∃ e', c'.entries[symbol]? = some e' ∧ e'.name = e.name ∧ e'.isTerminal = e.isTerminal
  consistent : c.Consistent → c'.Consistent

namespace Grows

theorem refl (c : Catalog) : c.Grows c where
  entry he := ⟨_, he, rfl, rfl⟩
  consistent := id

theorem trans {c₁ c₂ c₃ : Catalog} (h : c₁.Grows c₂) (h' : c₂.Grows c₃) : c₁.Grows c₃ where
  entry he := by
    obtain ⟨e₂, he₂, hname₂, hkind₂⟩ := h.entry he
    obtain ⟨e₃, he₃, hname₃, hkind₃⟩ := h'.entry he₂
    exact ⟨e₃, he₃, hname₃.trans hname₂, hkind₃.trans hkind₂⟩
  consistent hc := h'.consistent (h.consistent hc)

theorem size_le (h : c.Grows c') : c.size ≤ c'.size := by
  rcases Nat.lt_or_ge c'.size c.size with hlt | hle
  · obtain ⟨e', he', -⟩ := h.entry (Array.getElem?_eq_getElem hlt)
    exact absurd (lt_size_of_getElem? he') (Nat.lt_irrefl _)
  · exact hle

theorem isNonterminal (h : c.Grows c') (hs : c.isNonterminal symbol = true) :
    c'.isNonterminal symbol = true := by
  obtain ⟨e, he, hkind⟩ := isNonterminal_iff.mp hs
  obtain ⟨e', he', -, hkind'⟩ := h.entry he
  exact isNonterminal_iff.mpr ⟨e', he', hkind'.trans hkind⟩

end Grows

theorem getElem?_push (c : Catalog) (e : Entry) :
    (c.push e).entries[symbol]? = if symbol = c.size then some e else c.entries[symbol]? :=
  Array.getElem?_push

/-- A name is new, or it belongs to the symbol added last. -/
theorem name?_push {e : Entry} (h : (c.push e).name? symbol = some name) :
    (symbol = c.size ∧ e.name = name) ∨ c.name? symbol = some name := by
  rw [name?_eq_some_iff] at h ⊢
  rw [getElem?_push] at h
  split at h
  · next heq =>
    obtain ⟨e', he', hname⟩ := h
    cases he'
    exact Or.inl ⟨heq, hname⟩
  · exact Or.inr h

theorem mem_alternatives_push {e : Entry} {α : List Nat}
    (h : α ∈ (c.push e).alternatives symbol) : α ∈ e.alternatives ∨ α ∈ c.alternatives symbol := by
  rw [mem_alternatives_iff] at h ⊢
  rw [getElem?_push] at h
  obtain ⟨e', he', hα⟩ := h
  split at he'
  · cases he'
    exact Or.inl hα
  · exact Or.inr ⟨e', he', hα⟩

theorem size_push (c : Catalog) (e : Entry) : (c.push e).size = c.size + 1 :=
  Array.size_push e

/-- A name that is new keeps names unique. -/
theorem unique_push {e : Entry} (hc : c.Consistent) (hnew : ∀ i, c.name? i ≠ some e.name)
    {i j : Nat} (hi : (c.push e).name? i = some name) (hj : (c.push e).name? j = some name) :
    i = j := by
  rcases name?_push hi with ⟨hi, hei⟩ | hi
  · rcases name?_push hj with ⟨hj, -⟩ | hj
    · exact hi.trans hj.symm
    · rw [← hei] at hj
      exact absurd hj (hnew j)
  · rcases name?_push hj with ⟨-, hej⟩ | hj
    · rw [← hej] at hi
      exact absurd hi (hnew i)
    · exact hc.unique hi hj

/-- A symbol without alternatives adds none to those there are. -/
theorem closed_push {e : Entry} (hc : c.Consistent) (hnone : e.alternatives = []) {left : Nat}
    {α : List Nat} (hα : α ∈ (c.push e).alternatives left) : ∀ s ∈ α, s < c.size := by
  rcases mem_alternatives_push hα with hα | hα
  · rw [hnone] at hα
    cases hα
  · exact hc.closed hα

/-- A new name can be registered. -/
theorem grows_push {e : Entry} (hnew : c.find? e.name = none) (hname : e.name ≠ Mark.finish)
    (hnone : e.alternatives = []) : c.Grows (c.push e) where
  entry he := by
    rw [getElem?_push, if_neg (Nat.ne_of_lt (lt_size_of_getElem? he))]
    exact ⟨_, he, rfl, rfl⟩
  consistent hc := by
    refine ⟨unique_push hc (name?_ne_of_find? hnew), ?_, ?_⟩
    · intro i hi
      rcases name?_push hi with ⟨-, he⟩ | hi
      · exact hname he
      · exact hc.unreserved i hi
    · intro left α hα s hs
      rw [size_push]
      exact Nat.lt_succ_of_lt (closed_push hc hnone hα s hs)

theorem getElem?_addAlternative {left : String} {α : List Nat} {e' : Entry}
    (h : (c.addAlternative left α).entries[symbol]? = some e') :
    ∃ e, c.entries[symbol]? = some e ∧ (e' = e ∨ e' = e.addAlternative α) := by
  rw [addAlternative] at h
  split at h
  · exact ⟨e', h, Or.inl rfl⟩
  · next s hs =>
    rw [Array.getElem?_modify] at h
    split at h
    · obtain ⟨e, he, rfl⟩ := Option.map_eq_some_iff.mp h
      exact ⟨e, he, Or.inr rfl⟩
    · exact ⟨e', h, Or.inl rfl⟩

theorem size_addAlternative (c : Catalog) (left : String) (α : List Nat) :
    (c.addAlternative left α).size = c.size := by
  rw [addAlternative]
  split
  · rfl
  · exact Array.size_modify

theorem name?_addAlternative {left : String} {α : List Nat}
    (h : (c.addAlternative left α).name? symbol = some name) : c.name? symbol = some name := by
  rw [name?_eq_some_iff] at h ⊢
  obtain ⟨e', he', hname⟩ := h
  obtain ⟨e, he, rfl | rfl⟩ := getElem?_addAlternative he'
  · exact ⟨e', he, hname⟩
  · exact ⟨e, he, by simpa using hname⟩

/-- An alternative can be added whose symbols are registered. -/
theorem grows_addAlternative {left : String} {α : List Nat} (hα : ∀ s ∈ α, s < c.size) :
    c.Grows (c.addAlternative left α) where
  entry := fun {symbol e} he => by
    have hlt : symbol < (c.addAlternative left α).size := by
      rw [size_addAlternative]
      exact lt_size_of_getElem? he
    have he' := Array.getElem?_eq_getElem hlt
    obtain ⟨e₀, he₀, hcase⟩ := getElem?_addAlternative he'
    obtain rfl : e = e₀ := Option.some.inj (he.symm.trans he₀)
    refine ⟨_, he', ?_⟩
    rcases hcase with heq | heq <;> rw [heq] <;> simp
  consistent hc := by
    refine ⟨fun hi hj => hc.unique (name?_addAlternative hi) (name?_addAlternative hj),
      fun i hi => hc.unreserved i (name?_addAlternative hi), fun {left β} hβ s hs => ?_⟩
    rw [size_addAlternative]
    obtain ⟨e', he', hβ⟩ := mem_alternatives_iff.mp hβ
    obtain ⟨e, he, rfl | rfl⟩ := getElem?_addAlternative he'
    · exact hc.closed (mem_alternatives_iff.mpr ⟨_, he, hβ⟩) s hs
    · rcases Entry.mem_alternatives_addAlternative hβ with rfl | hβ
      · exact hα s hs
      · exact hc.closed (mem_alternatives_iff.mpr ⟨_, he, hβ⟩) s hs

/-! ## The steps of the construction -/

section Construction

variable {config : Config}

/-- A left side has no flaw if it is one word and not reserved. -/
theorem leftFlaw?_eq_none_iff {left : String} :
    leftFlaw? config left = none ↔ left.isEmpty = false ∧ Text.hasBlank left = false ∧
      left ≠ Mark.finish ∧ config.isEpsilon left = false := by
  rw [leftFlaw?]
  split_ifs with hempty hblank hreserved
  · simp [hempty]
  · simp [hblank]
  · simp only [Bool.or_eq_true, beq_iff_eq] at hreserved
    rcases hreserved with hfinish | hepsilon
    · simp [hfinish]
    · simp [hepsilon]
  · simp only [Bool.or_eq_true, beq_iff_eq, not_or, Bool.not_eq_true] at hempty hblank hreserved
    exact ⟨fun _ => ⟨hempty, hblank, hreserved⟩, fun _ => rfl⟩

/-- A left side that is registered is a nonterminal, and the other symbols stay as they are. -/
theorem declareLeft_ok {rule : Rule × Nat} (h : declareLeft config c rule = .ok c') :
    c.Grows c' ∧ (c' = c ∨ c' = c.push (.nonterminal (Text.trim rule.1.left) [])) := by
  rw [declareLeft] at h
  split at h
  · cases h
  · next hflaw =>
    split at h
    · cases h
      exact ⟨.refl c, Or.inl rfl⟩
    · next hnew =>
      cases h
      exact ⟨grows_push hnew (leftFlaw?_eq_none_iff.mp hflaw).2.2.1 rfl, Or.inr rfl⟩

/-- While only left sides are registered, all symbols are nonterminals. -/
theorem isNonterminal_of_declareLeft {rule : Rule × Nat} (h : declareLeft config c rule = .ok c')
    (hc : ∀ s < c.size, c.isNonterminal s = true) :
    ∀ s < c'.size, c'.isNonterminal s = true := by
  intro s hs
  obtain ⟨hgrows, rfl | rfl⟩ := declareLeft_ok h
  · exact hc s hs
  · rw [size_push] at hs
    rcases Nat.lt_succ_iff_lt_or_eq.mp hs with hs | rfl
    · exact hgrows.isNonterminal (hc s hs)
    · exact isNonterminal_iff.mpr ⟨_, by rw [getElem?_push, if_pos rfl], rfl⟩

theorem intern_grows {convention : Convention} (hname : name ≠ Mark.finish)
    (h : c.intern convention name = (symbol, c')) : c.Grows c' ∧ symbol < c'.size := by
  rw [intern] at h
  split at h
  · next s hs =>
    cases h
    exact ⟨.refl c, lt_size_of_name? (name?_of_find? hs)⟩
  · next hnew =>
    split at h
    · cases h
      exact ⟨grows_push hnew hname rfl, by rw [size_push]; exact Nat.lt_succ_self _⟩
    · cases h
      exact ⟨grows_push hnew hname rfl, by rw [size_push]; exact Nat.lt_succ_self _⟩

theorem internAll_grows {names : List String} {symbols : List Nat}
    (h : internAll config names c = .ok (symbols, c')) :
    c.Grows c' ∧ ∀ s ∈ symbols, s < c'.size := by
  induction names generalizing c symbols with
  | nil =>
    cases h
    exact ⟨.refl _, by simp⟩
  | cons name names ih =>
    rw [internAll] at h
    split_ifs at h with hepsilon hfinish
    have hname : name ≠ Mark.finish := by simpa using hfinish
    cases hintern : c.intern config.convention name with
    | mk symbol c₁ =>
      rw [hintern] at h
      obtain ⟨⟨rest, c₂⟩, hrest, h⟩ := exists_of_bind_ok h
      cases h
      obtain ⟨hgrows₁, hlt⟩ := intern_grows hname hintern
      obtain ⟨hgrows₂, hall⟩ := ih hrest
      refine ⟨hgrows₁.trans hgrows₂, ?_⟩
      intro s hs
      rcases List.mem_cons.mp hs with rfl | hs
      · exact Nat.lt_of_lt_of_le hlt hgrows₂.size_le
      · exact hall s hs

theorem readAlternative_grows {names : List String} {symbols : List Nat}
    (h : readAlternative config c names = .ok (symbols, c')) :
    c.Grows c' ∧ ∀ s ∈ symbols, s < c'.size := by
  rw [readAlternative] at h
  split at h
  · cases h
  · split at h
    · cases h
      exact ⟨.refl c, by simp⟩
    · exact internAll_grows h
  · exact internAll_grows h

theorem addRuleAlternative_grows {rule : Rule} {place : Nat} {alternative : List String × Nat}
    (h : addRuleAlternative config rule place c alternative = .ok c') : c.Grows c' := by
  rw [addRuleAlternative] at h
  split at h
  · cases h
  · next symbols c₁ hread =>
    cases h
    obtain ⟨hgrows, hsymbols⟩ := readAlternative_grows hread
    exact hgrows.trans (grows_addAlternative hsymbols)

theorem addRule_grows {rule : Rule × Nat} (h : addRule config c rule = .ok c') : c.Grows c' := by
  rw [addRule] at h
  split at h
  · cases h
  · refine foldlM_induction ?_ h (.refl c)
    intro c₁ alternative c₂ hstep hc
    exact hc.trans (addRuleAlternative_grows hstep)

end Construction

end Catalog

namespace Grammar

/-- What holds of every grammar made from rules. -/
structure WellFormed (g : Grammar) : Prop where
  unique : ∀ {name : String} {i j : Nat}, g.name? i = some name → g.name? j = some name → i = j
  closed : ∀ {left : Nat} {α : List Nat}, α ∈ g.alternatives left → ∀ s ∈ α, s < g.finish
  size_eq : g.size = g.finish + 1
  isTerminal_finish : g.isTerminal g.finish = true
  name?_finish : g.name? g.finish = some Mark.finish
  isNonterminal_start : g.isNonterminal g.start = true

/-- The end mark can be added to a consistent catalog, with any nonterminal as the start symbol. -/
theorem wellFormed_of_consistent {c : Catalog} (hc : c.Consistent) {start : Nat}
    (hstart : c.isNonterminal start = true) :
    WellFormed ⟨c.push (.terminal Mark.finish), start, c.size⟩ where
  unique := Catalog.unique_push (e := .terminal Mark.finish) hc hc.unreserved
  closed := Catalog.closed_push hc rfl
  size_eq := Catalog.size_push c _
  isTerminal_finish := Catalog.isTerminal_iff.mpr
    ⟨_, by rw [Catalog.getElem?_push, if_pos rfl], rfl⟩
  name?_finish := Catalog.name?_eq_some_iff.mpr
    ⟨_, by rw [Catalog.getElem?_push, if_pos rfl], rfl⟩
  isNonterminal_start := by
    obtain ⟨e, he, hkind⟩ := Catalog.isNonterminal_iff.mp hstart
    refine Catalog.isNonterminal_iff.mpr ⟨e, ?_, hkind⟩
    rw [Catalog.getElem?_push, if_neg (Nat.ne_of_lt (Catalog.lt_size_of_getElem? he))]
    exact he

/-- **Grammars made from rules are well-formed.** -/
theorem wellFormed_of_ofRules {rules : List Rule} {start : Option String} {config : Config}
    {g : Grammar} (h : ofRules rules start config = .ok g) : g.WellFormed := by
  cases rules with
  | nil => cases h
  | cons first rest =>
    obtain ⟨declared, hdeclared, h⟩ := exists_of_bind_ok h
    obtain ⟨filled, hfilled, h⟩ := exists_of_bind_ok h
    have hgrows : Catalog.empty.Grows declared :=
      foldlM_induction (fun _ _ _ hstep hc => hc.trans (Catalog.declareLeft_ok hstep).1)
        hdeclared (.refl _)
    -- The start symbol is looked up while all symbols are left sides.
    have hkind : ∀ s < declared.size, declared.isNonterminal s = true :=
      foldlM_induction (fun _ _ _ hstep hc => Catalog.isNonterminal_of_declareLeft hstep hc)
        hdeclared (fun s hs => absurd hs (Nat.not_lt_zero s))
    have hgrows' : declared.Grows filled :=
      foldlM_induction (fun _ _ _ hstep hc => hc.trans (Catalog.addRule_grows hstep))
        hfilled (.refl _)
    dsimp only at h
    split at h
    · cases h
    · next symbol hfind =>
      cases h
      have hlt := Catalog.lt_size_of_name? (Catalog.name?_of_find? hfind)
      have hfilled := hgrows'.consistent (hgrows.consistent Catalog.consistent_empty)
      exact wellFormed_of_consistent hfilled (hgrows'.isNonterminal (hkind symbol hlt))

namespace WellFormed

variable {g : Grammar} {symbol : Nat}

theorem finish_lt (hg : g.WellFormed) : g.finish < g.size := by
  rw [hg.size_eq]
  exact Nat.lt_succ_self _

/-- The alternatives hold symbols of the grammar. -/
theorem lt_size_of_mem (hg : g.WellFormed) {left : Nat} {α : List Nat}
    (hα : α ∈ g.alternatives left) (hs : symbol ∈ α) : symbol < g.size :=
  Nat.lt_trans (hg.closed hα symbol hs) hg.finish_lt

/-- Every symbol other than the end mark comes before it. -/
theorem lt_finish (hg : g.WellFormed) (hlt : symbol < g.size) (hne : symbol ≠ g.finish) :
    symbol < g.finish := by
  rw [hg.size_eq] at hlt
  omega

theorem lt_finish_of_isNonterminal (hg : g.WellFormed) (hs : g.isNonterminal symbol = true) :
    symbol < g.finish := by
  refine hg.lt_finish (Catalog.lt_size_of_isNonterminal hs) fun heq => ?_
  have hterminal := Catalog.isTerminal_eq_false hs
  rw [heq, hg.isTerminal_finish] at hterminal
  cases hterminal

theorem start_lt_finish (hg : g.WellFormed) : g.start < g.finish :=
  hg.lt_finish_of_isNonterminal hg.isNonterminal_start

theorem name_finish (hg : g.WellFormed) : g.name g.finish = Mark.finish :=
  Catalog.name_eq_of_name? hg.name?_finish

/-- No other symbol has the name of the end mark. -/
theorem name_ne_finish (hg : g.WellFormed) (hlt : symbol < g.finish) :
    g.name symbol ≠ Mark.finish := by
  intro heq
  have hname := Catalog.name?_eq_name (Nat.lt_trans hlt hg.finish_lt)
  rw [heq] at hname
  exact absurd (hg.unique hname hg.name?_finish) (Nat.ne_of_lt hlt)

/-- Different symbols have different names. -/
theorem eq_of_name_eq (hg : g.WellFormed) {i j : Nat} (hi : i < g.size) (hj : j < g.size)
    (h : g.name i = g.name j) : i = j :=
  hg.unique (Catalog.name?_eq_name hi) (h ▸ Catalog.name?_eq_name hj)

/-- A symbol is found by its name. -/
theorem find?_name (hg : g.WellFormed) (hlt : symbol < g.size) :
    g.find? (g.name symbol) = some symbol := by
  have hname := Catalog.name?_eq_name hlt
  cases h : g.find? (g.name symbol) with
  | none => exact absurd hname (Catalog.name?_ne_of_find? h symbol)
  | some found => exact congrArg some (hg.unique (Catalog.name?_of_find? h) hname)

/-- Names and symbols are inverse to each other. -/
theorem find?_eq_some_iff (hg : g.WellFormed) {name : String} :
    g.find? name = some symbol ↔ g.name? symbol = some name := by
  constructor
  · exact Catalog.name?_of_find?
  · intro hname
    rw [← Catalog.name_eq_of_name? hname]
    exact hg.find?_name (Catalog.lt_size_of_name? hname)

/-- A terminal is found by its name. -/
theorem findTerminal?_name (hg : g.WellFormed) (h : g.isTerminal symbol = true) :
    g.findTerminal? (g.name symbol) = some symbol := by
  rw [Catalog.findTerminal?, hg.find?_name (Catalog.lt_size_of_isTerminal h)]
  simp [h]

end WellFormed

end Grammar

/-- A parser is that of the grammar of its rules. -/
theorem Parser.exists_ofRules_of_build {rules : List Rule} {start : Option String}
    {config : Config} {p : Parser} (h : Parser.build rules start config = .ok p) :
    ∃ g, Grammar.ofRules rules start config = .ok g ∧ p = Parser.generate g := by
  rw [Parser.build] at h
  cases hg : Grammar.ofRules rules start config with
  | error e =>
    rw [hg] at h
    cases h
  | ok g =>
    rw [hg] at h
    cases h
    exact ⟨g, rfl, rfl⟩

/-- The parser made from rules is that of a well-formed grammar. -/
theorem Parser.exists_of_build {rules : List Rule} {start : Option String} {config : Config}
    {p : Parser} (h : Parser.build rules start config = .ok p) :
    ∃ g : Grammar, g.WellFormed ∧ p = Parser.generate g := by
  obtain ⟨g, hg, rfl⟩ := Parser.exists_ofRules_of_build h
  exact ⟨g, Grammar.wellFormed_of_ofRules hg, rfl⟩

theorem Parser.build_eq_ok {rules : List Rule} {start : Option String} {config : Config}
    {g : Grammar} (h : (Grammar.ofRules rules start config).toOption = some g) :
    Parser.build rules start config = .ok (Parser.generate g) := by
  rw [Parser.build]
  cases hg : Grammar.ofRules rules start config with
  | error e =>
    rw [hg] at h
    cases h
  | ok found =>
    rw [hg] at h
    cases h
    rfl

end TopDown
