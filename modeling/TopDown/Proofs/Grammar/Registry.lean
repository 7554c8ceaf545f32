import Mathlib.Data.List.AList
import TopDown.Proofs.Grammar.Declaration

/-!
# Registration by lookup

A catalog is searched for names, and what is not found there is left as it is. A program does
neither: it keeps a table of names next to the list of symbols, writes the number of a symbol into
the symbol, and where it looks up a name or a number that has to be there it comes to a halt if it
is not.

`Registry` is such a pair of a table and a list, and the registration of rules is carried out on it
a second time, with every lookup that can fail. None does, and in the end the list is that of the
grammar, and the table finds the same symbols in it (`Grammar.register?_agrees`). Two facts carry
the argument through the construction: the table and the list agree (`Registry.Represents`), and a
left side stays registered under its number (`Catalog.Grows.find?_eq`).

## Main definitions

* `Agree`, `Agrees`: the same outcome, without lookups that can fail and with them
* `Slot`, `Registry`: symbols with their numbers, and the table of their names
* `Registry.Represents`: a registry of the symbols of a catalog
* `Grammar.register?`: the registration of rules, with lookups that can fail

## Main results

* `Registry.Represents.push`, `Registry.Represents.addAlternative`: each change of a catalog can be
  made in a registry that represents it
* `Grammar.register?_agrees`: no lookup fails, and the outcome is that of the construction
-/

namespace TopDown

/-! ## The same outcome -/

section Outcomes

variable {ε α α' β β' γ : Type} {R : α → β → Prop} {S : α' → β' → Prop}

/-- Two computations report the same fault, or give results that are related. -/
inductive Agree (R : α → β → Prop) : Except ε α → Except ε β → Prop
  | ok {a : α} {b : β} (h : R a b) : Agree R (.ok a) (.ok b)
  | error (e : ε) : Agree R (.error e) (.error e)

theorem Agree.bind {x : Except ε α} {y : Except ε β} {f : α → Except ε α'} {g : β → Except ε β'}
    (h : Agree R x y) (hf : ∀ a b, R a b → Agree S (f a) (g b)) : Agree S (x >>= f) (y >>= g) := by
  cases h with
  | ok h => exact hf _ _ h
  | error e => exact .error e

/-- A computation finds all that it looks up, and its outcome is that of a computation that looks
nothing up. -/
def Agrees (R : α → β → Prop) (x : ExceptT ε Option α) (y : Except ε β) : Prop :=
  ∃ outcome, x.run = some outcome ∧ Agree R outcome y

namespace Agrees

theorem ok {a : α} {b : β} (h : R a b) : Agrees (ε := ε) R (pure a) (.ok b) :=
  ⟨_, rfl, .ok h⟩

theorem error (e : ε) : Agrees R (throw e) (.error e) :=
  ⟨_, rfl, .error e⟩

theorem bind {x : ExceptT ε Option α} {y : Except ε β} {f : α → ExceptT ε Option α'}
    {g : β → Except ε β'} (h : Agrees R x y)
    (hf : ∀ a b, R a b → y = .ok b → Agrees S (f a) (g b)) : Agrees S (x >>= f) (y >>= g) := by
  obtain ⟨outcome, hx, h⟩ := h
  cases h with
  | ok h =>
    obtain ⟨outcome', hrun, h'⟩ := hf _ _ h rfl
    refine ⟨outcome', ?_, h'⟩
    rw [ExceptT.run_bind, hx]
    exact hrun
  | error e =>
    refine ⟨.error e, ?_, .error e⟩
    rw [ExceptT.run_bind, hx]
    rfl

theorem mono {R' : α → β → Prop} {x : ExceptT ε Option α} {y : Except ε β} (h : Agrees R x y)
    (hR : ∀ a b, R a b → R' a b) : Agrees R' x y := by
  obtain ⟨outcome, hx, h⟩ := h
  refine ⟨outcome, hx, ?_⟩
  cases h with
  | ok h => exact .ok (hR _ _ h)
  | error e => exact .error e

/-- What is looked up is found. -/
theorem lift {x : Option α} {a : α} {b : β} (hx : x = some a) (h : R a b) :
    Agrees (ε := ε) R (liftM x) (.ok b) := by
  subst hx
  exact .ok h

/-- What is looked up first is found. -/
theorem lookup {x : Option γ} {c : γ} {f : γ → ExceptT ε Option α} {y : Except ε β}
    (hx : x = some c) (h : Agrees R (f c) y) : Agrees R (liftM x >>= f) y := by
  subst hx
  exact h

theorem foldlM {f : α → γ → ExceptT ε Option α} {g : β → γ → Except ε β} {l : List γ} {a : α}
    {b : β} (h : R a b)
    (hstep : ∀ a b, ∀ c ∈ l, R a b → Agrees R (f a c) (g b c)) :
    Agrees R (l.foldlM f a) (l.foldlM g b) := by
  induction l generalizing a b with
  | nil => exact .ok h
  | cons c l ih =>
    rw [List.foldlM_cons, List.foldlM_cons]
    refine (hstep a b c List.mem_cons_self h).bind fun a' b' h' _ => ?_
    exact ih h' fun a b c hc => hstep a b c (List.mem_cons_of_mem _ hc)

/-- The second computation may say more of its result. -/
theorem and {Q : β → Prop} {x : ExceptT ε Option α} {y : Except ε β} (h : Agrees R x y)
    (hy : ∀ b, y = .ok b → Q b) : Agrees (fun a b => R a b ∧ Q b) x y := by
  obtain ⟨outcome, hx, h⟩ := h
  refine ⟨outcome, hx, ?_⟩
  cases h with
  | ok h => exact .ok ⟨h, hy _ rfl⟩
  | error e => exact .error e

end Agrees

end Outcomes

/-! ## Registries -/

/-- A symbol with the number that it was registered under. -/
structure Slot where
  index : Nat
  entry : Entry

/-- The symbols in the order in which they were first met, and a table of the numbers of their
names. -/
structure Registry where
  slots : Array Slot
  numbers : Std.HashMap String Nat

namespace Registry

/-- The registry without symbols. -/
def empty : Registry := ⟨#[], ∅⟩

/-- The symbols alone. -/
def catalog (r : Registry) : Catalog :=
  ⟨r.slots.map Slot.entry⟩

/-- The registry with one more symbol. -/
def push (r : Registry) (e : Entry) : Registry :=
  ⟨r.slots.push ⟨r.slots.size, e⟩, r.numbers.insert e.name r.slots.size⟩

/-- The registry with one more alternative for the symbol of a number, which has to be there. -/
def addAlternative? (r : Registry) (left : Nat) (α : List Nat) : Option Registry := do
  let slot ← r.slots[left]?
  return { r with slots := r.slots.setIfInBounds left ⟨slot.index, slot.entry.addAlternative α⟩ }

/-- Registers the left side of a rule as a nonterminal if it is new. -/
def declareLeft? (config : Config) (r : Registry) (rule : Rule × Nat) :
    ExceptT BuildError Option Registry :=
  let left := Text.trim rule.1.left
  match Catalog.leftFlaw? config left with
  | some flaw => throw (.malformedRule (rule.1.lineOf 0 rule.2) left flaw)
  | none => pure (if r.numbers.contains left then r else r.push (.nonterminal left []))

/-- The number of a name, registered if the name is new. -/
def intern (convention : Convention) (r : Registry) (name : String) : Nat × Registry :=
  match r.numbers[name]? with
  | some symbol => (symbol, r)
  | none =>
    if convention.isNonterminal name then (r.slots.size, r.push (.nonterminal name []))
    else (r.slots.size, r.push (.terminal name))

/-- The numbers of trimmed names, none of which may be reserved. -/
def internAll (config : Config) : List String → Registry → Except Flaw (List Nat × Registry)
  | [], r => .ok ([], r)
  | name :: names, r =>
    if config.isEpsilon name then .error .epsilonAmongSymbols
    else if name == Mark.finish then .error .finishOnRight
    else do
      let (symbol, r) := r.intern config.convention name
      let (symbols, r) ← internAll config names r
      return (symbol :: symbols, r)

/-- The numbers of an alternative. -/
def readAlternative (config : Config) (r : Registry) (names : List String) :
    Except Flaw (List Nat × Registry) :=
  match names.map Text.trim with
  | [] => .error (.emptyAlternative config.epsilon)
  | [only] => if config.isEpsilon only then .ok ([], r) else internAll config [only] r
  | trimmed => internAll config trimmed r

/-- Registers one alternative of a rule whose left side has a number. -/
def addRuleAlternative? (config : Config) (rule : Rule) (place left : Nat) (r : Registry)
    (alternative : List String × Nat) : ExceptT BuildError Option Registry :=
  match r.readAlternative config alternative.1 with
  | .error flaw =>
    throw (.malformedRule (rule.lineOf alternative.2 place) (Text.trim rule.left) flaw)
  | .ok (symbols, r) => liftM (r.addAlternative? left symbols)

/-- Registers the alternatives of a rule, whose left side has to be registered. -/
def addRule? (config : Config) (r : Registry) (rule : Rule × Nat) :
    ExceptT BuildError Option Registry := do
  let left ← liftM (r.numbers[Text.trim rule.1.left]?)
  if rule.1.alternatives.isEmpty then
    throw (.malformedRule (rule.1.lineOf 0 rule.2) (Text.trim rule.1.left) .noAlternatives)
  else rule.1.alternatives.zipIdx.foldlM (addRuleAlternative? config rule.1 rule.2 left) r

/-- A registry of the symbols of a catalog: the table finds what a search finds, and every symbol
has its own place for a number. -/
structure Represents (r : Registry) (c : Catalog) : Prop where
  catalog_eq : r.catalog = c
  number_eq : ∀ name, r.numbers[name]? = c.find? name
  index_eq : ∀ {i : Nat} {slot : Slot}, r.slots[i]? = some slot → slot.index = i

end Registry

/-- The registration of rules. The start symbol is looked up among all symbols, but has to be one of
those that were registered as left sides. -/
def Grammar.register? (rules : List Rule) (start : Option String) (config : Config) :
    ExceptT BuildError Option (Registry × Grammar) :=
  match rules with
  | [] => throw .noRules
  | first :: _ => do
    let placed := rules.zipIdx 1
    let declared ← placed.foldlM (Registry.declareLeft? config) Registry.empty
    let filled ← placed.foldlM (Registry.addRule? config) declared
    let finished := filled.push (.terminal Mark.finish)
    let name := Text.trim (start.getD first.left)
    if declared.numbers.contains name then
      let symbol ← liftM (finished.numbers[name]?)
      return (finished, ⟨finished.catalog, symbol, filled.slots.size⟩)
    else throw (.unknownStart name)

/-! ## Growing catalogs -/

namespace Catalog

variable {c c' : Catalog} {symbol : Nat} {name : String}

/-- A name that is found stays where it is while the catalog grows. -/
theorem Grows.find?_eq (h : c.Grows c') (hc' : c'.Consistent) (hfind : c.find? name = some symbol) :
    c'.find? name = some symbol := by
  obtain ⟨e, he, hname⟩ := name?_eq_some_iff.mp (name?_of_find? hfind)
  obtain ⟨e', he', hname', -⟩ := h.entry he
  have hkept : c'.name? symbol = some name := name?_eq_some_iff.mpr ⟨e', he', hname'.trans hname⟩
  cases hfind' : c'.find? name with
  | none => exact absurd hkept (name?_ne_of_find? hfind' symbol)
  | some found => exact congrArg some (hc'.unique (name?_of_find? hfind') hkept)

end Catalog

/-! ## Registries that represent a catalog -/

namespace Registry

variable {r : Registry} {c : Catalog} {symbol : Nat} {name : String} {config : Config}

namespace Represents

theorem size_eq (h : r.Represents c) : r.slots.size = c.size := by
  rw [← h.catalog_eq, Catalog.size, catalog, Array.size_map]

theorem contains_eq (h : r.Represents c) (name : String) :
    r.numbers.contains name = (c.find? name).isSome := by
  rw [Std.HashMap.contains_eq_isSome_getElem?, h.number_eq]

theorem empty : Registry.empty.Represents Catalog.empty where
  catalog_eq := congrArg Catalog.mk Array.map_empty
  number_eq name := by simp [Registry.empty, Catalog.empty, Catalog.find?]
  index_eq h := by simp [Registry.empty] at h

/-- **A new name is entered into the table and the list at once.** -/
theorem push {e : Entry} (h : r.Represents c) (hnew : c.find? e.name = none) :
    (r.push e).Represents (c.push e) where
  catalog_eq := by
    rw [← h.catalog_eq, catalog, Registry.push, Array.map_push]
    rfl
  number_eq name := by
    rw [Registry.push, Std.HashMap.getElem?_insert, h.number_eq, Catalog.find?_push, h.size_eq]
    by_cases hname : e.name = name
    · subst hname
      simp [hnew]
    · simp [hname]
  index_eq {i slot} hslot := by
    rw [Registry.push, Array.getElem?_push] at hslot
    split at hslot
    · next hi =>
      cases hslot
      exact hi.symm
    · exact h.index_eq hslot

/-- An alternative is added to the symbol that the left side is found as. -/
theorem addAlternative {left : String} (h : r.Represents c) (hfind : c.find? left = some symbol)
    (α : List Nat) :
    ∃ r', r.addAlternative? symbol α = some r' ∧ r'.Represents (c.addAlternative left α) := by
  have hlt : symbol < r.slots.size := by
    rw [h.size_eq]
    exact Catalog.lt_size_of_find? hfind
  have hslot := Array.getElem?_eq_getElem hlt
  refine ⟨_, by rw [addAlternative?, hslot]; rfl, ?_, ?_, ?_⟩
  · rw [Catalog.addAlternative, hfind, ← h.catalog_eq, catalog, Catalog.mk.injEq]
    apply Array.ext_getElem?
    intro i
    rw [Array.getElem?_map, Array.getElem?_setIfInBounds, catalog, Array.getElem?_modify,
      Array.getElem?_map]
    split
    · next hi =>
      subst hi
      simp [hlt]
    · rfl
  · intro name
    rw [h.number_eq, Catalog.find?_addAlternative]
  · intro i slot hi
    rw [Array.getElem?_setIfInBounds] at hi
    split at hi
    · next heq =>
      subst heq
      have hindex := h.index_eq hslot
      cases hi
      exact hindex
    · exact h.index_eq hi

theorem declareLeft (h : r.Represents c) (rule : Rule × Nat) :
    Agrees Represents (declareLeft? config r rule) (Catalog.declareLeft config c rule) := by
  rw [declareLeft?, Catalog.declareLeft]
  cases Catalog.leftFlaw? config (Text.trim rule.1.left) with
  | some flaw => exact .error _
  | none =>
    dsimp only
    rw [h.contains_eq]
    cases hfind : c.find? (Text.trim rule.1.left) with
    | some symbol => exact .ok h
    | none => exact .ok (h.push hfind)

theorem intern (h : r.Represents c) (convention : Convention) (name : String) :
    (r.intern convention name).1 = (c.intern convention name).1 ∧
      (r.intern convention name).2.Represents (c.intern convention name).2 := by
  rw [Registry.intern, Catalog.intern, h.number_eq]
  cases hfind : c.find? name with
  | some symbol => exact ⟨rfl, h⟩
  | none =>
    dsimp only
    split
    · exact ⟨h.size_eq, h.push hfind⟩
    · exact ⟨h.size_eq, h.push hfind⟩

theorem internAll (h : r.Represents c) (names : List String) :
    Agree (fun x y => x.1 = y.1 ∧ x.2.Represents y.2)
      (Registry.internAll config names r) (Catalog.internAll config names c) := by
  induction names generalizing r c with
  | nil => exact .ok ⟨rfl, h⟩
  | cons name names ih =>
    rw [Registry.internAll, Catalog.internAll]
    split
    · exact .error _
    · split
      · exact .error _
      · obtain ⟨hsymbol, h'⟩ := h.intern config.convention name
        refine (ih h').bind ?_
        rintro ⟨symbols, r''⟩ ⟨symbols', c''⟩ ⟨hsymbols, h''⟩
        exact .ok ⟨congrArg₂ List.cons hsymbol hsymbols, h''⟩

theorem readAlternative (h : r.Represents c) (config : Config) (names : List String) :
    Agree (fun x y => x.1 = y.1 ∧ x.2.Represents y.2)
      (Registry.readAlternative config r names) (Catalog.readAlternative config c names) := by
  rw [Registry.readAlternative, Catalog.readAlternative]
  rcases names.map Text.trim with - | ⟨only, - | ⟨second, rest⟩⟩
  · exact .error _
  · dsimp only
    split
    · exact .ok ⟨rfl, h⟩
    · exact h.internAll _
  · exact h.internAll _

theorem addRuleAlternative {rule : Rule} {place : Nat} {alternative : List String × Nat}
    (h : r.Represents c) (hc : c.Consistent) (hfind : c.find? (Text.trim rule.left) = some symbol) :
    Agrees Represents (addRuleAlternative? config rule place symbol r alternative)
      (Catalog.addRuleAlternative config rule place c alternative) := by
  rw [addRuleAlternative?, Catalog.addRuleAlternative]
  have hread := h.readAlternative config alternative.1
  cases hread' : Catalog.readAlternative config c alternative.1 with
  | error flaw =>
    rw [hread'] at hread
    generalize Registry.readAlternative config r alternative.1 = x at hread ⊢
    cases hread
    exact .error _
  | ok result =>
    have hgrows := (Catalog.readAlternative_grows hread').1
    rw [hread'] at hread
    generalize Registry.readAlternative config r alternative.1 = x at hread ⊢
    cases hread with
    | @ok result' _ hresult =>
      obtain ⟨hsymbols, h'⟩ := hresult
      have hkept := hgrows.find?_eq (hgrows.consistent hc) hfind
      obtain ⟨r', hr', hrepresents⟩ := h'.addAlternative hkept result'.1
      rw [hsymbols] at hrepresents
      exact .lift hr' hrepresents

theorem addRule {rule : Rule × Nat} (h : r.Represents c) (hc : c.Consistent)
    (hfind : c.find? rule.1.name = some symbol) :
    Agrees Represents (addRule? config r rule) (Catalog.addRule config c rule) := by
  rw [addRule?, Catalog.addRule]
  refine .lookup ((h.number_eq _).trans hfind) ?_
  split
  · exact .error _
  · let Kept (r : Registry) (c : Catalog) : Prop :=
      r.Represents c ∧ c.Consistent ∧ c.find? rule.1.name = some symbol
    refine Agrees.mono (R := Kept) (.foldlM ⟨h, hc, hfind⟩ ?_) fun _ _ hkept => hkept.1
    rintro r c alternative - ⟨h, hc, hfind⟩
    refine (h.addRuleAlternative hc hfind).and fun c' hstep => ?_
    have hgrows := Catalog.addRuleAlternative_grows hstep
    exact ⟨hgrows.consistent hc, hgrows.find?_eq (hgrows.consistent hc) hfind⟩

end Represents

end Registry

namespace Grammar

variable {rules : List Rule} {config : Config}

/-- The left sides are registered, and found again by their names. -/
theorem declareLeft?_agrees (rules : List Rule) (config : Config) :
    Agrees (fun r c => r.Represents c ∧ c.Holds config (rules.map Rule.name) [])
      ((rules.zipIdx 1).foldlM (Registry.declareLeft? config) Registry.empty)
      ((rules.zipIdx 1).foldlM (Catalog.declareLeft config) Catalog.empty) :=
  (Agrees.foldlM .empty fun _ _ rule _ h => h.declareLeft rule).and fun _ => holds_of_declareLeft

/-- The right sides are registered, each with a left side that is found. -/
theorem addRule?_agrees {r : Registry} {declared : Catalog} (h : r.Represents declared)
    (hdeclared : declared.Holds config (rules.map Rule.name) []) :
    Agrees (fun r c => r.Represents c ∧ c.Consistent ∧ declared.Grows c)
      ((rules.zipIdx 1).foldlM (Registry.addRule? config) r)
      ((rules.zipIdx 1).foldlM (Catalog.addRule config) declared) := by
  refine .foldlM ⟨h, hdeclared.consistent, .refl _⟩ ?_
  rintro r c rule hrule ⟨h, hc, hgrows⟩
  have hmem : rule.1.name ∈ rules.map Rule.name :=
    List.mem_map_of_mem (List.fst_mem_of_mem_zipIdx hrule)
  obtain ⟨symbol, hfind⟩ := hdeclared.exists_find?_iff.mpr hmem
  refine (h.addRule hc (hgrows.find?_eq hc hfind)).and fun c' hstep => ?_
  have hstep' := Catalog.addRule_grows hstep
  exact ⟨hstep'.consistent hc, hgrows.trans hstep'⟩

/-- **Registration looks up nothing in vain**, and its outcome is that of the construction: the same
fault, or the same grammar with a registry of its symbols. -/
theorem register?_agrees (rules : List Rule) (start : Option String) (config : Config) :
    Agrees (fun x g => x.2 = g ∧ x.1.Represents g.toCatalog) (register? rules start config)
      (ofRules rules start config) := by
  cases rules with
  | nil => exact .error _
  | cons first rest =>
    refine (declareLeft?_agrees (first :: rest) config).bind ?_
    rintro r declared ⟨h, hdeclared⟩ -
    refine (addRule?_agrees h hdeclared).bind ?_
    rintro r' filled ⟨h', hfilled, hgrows⟩ -
    have hnew : filled.find? Mark.finish = none := by
      cases hfind : filled.find? Mark.finish with
      | none => rfl
      | some symbol => exact absurd (Catalog.name?_of_find? hfind) (hfilled.unreserved symbol)
    have hfinished := h'.push (e := .terminal Mark.finish) hnew
    dsimp only
    rw [h.contains_eq]
    cases hfind : declared.find? (Text.trim (start.getD first.left)) with
    | none => exact .error _
    | some symbol =>
      have hkept := hgrows.find?_eq hfilled hfind
      have hnumber := hfinished.number_eq (Text.trim (start.getD first.left))
      rw [Catalog.find?_push, hkept, Option.some_or] at hnumber
      refine .lookup hnumber (.ok ⟨?_, hfinished⟩)
      rw [hfinished.catalog_eq, h'.size_eq]

end Grammar

end TopDown
