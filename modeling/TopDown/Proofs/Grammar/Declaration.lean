import TopDown.Proofs.Grammar.WellFormed

/-!
# What a grammar takes from its rules

Which symbols a grammar has, of which kind they are and what their alternatives are can be told by
name, without the numbers that the symbols are registered under. A left side is a nonterminal, and
its alternatives are those of all its rules, in order. Every other name on a right side is
classified by its letters and has no alternatives. Besides these there is the end mark.

Whether there is a grammar at all depends on each rule by itself and on the start symbol, which has
to be a left side. Only what is reported of a fault depends on more.

## Main definitions

* `Description`, `Catalog.describe?`: what a catalog says of a name
* `Config.spelling`, `Config.Admits`: the names of an alternative, and whether it can be read
* `Rule.productions`: the alternatives of a rule, each with its left side
* `Rule.IsReadable`: a rule without faults
* `describeRules?`: what left sides and productions say of a name

## Main results

* `Grammar.exists_ofRules_iff`: which rules have a grammar
* `Grammar.describe?_ofRules`: what the grammar of rules says of a name
-/

namespace TopDown

/-! ## Folds that may fail -/

section Folds

variable {ε α β : Type} {f : β → α → Except ε β}

/-- A fold whose steps succeed or fail whatever came before them. -/
theorem exists_foldlM_iff {P : α → Prop} (hf : ∀ b a, (∃ b', f b a = .ok b') ↔ P a)
    (l : List α) (b : β) : (∃ b', l.foldlM f b = .ok b') ↔ ∀ a ∈ l, P a := by
  induction l generalizing b with
  | nil => exact ⟨fun _ => by simp, fun _ => ⟨b, rfl⟩⟩
  | cons a l ih =>
    rw [List.foldlM_cons, List.forall_mem_cons]
    constructor
    · rintro ⟨b', h⟩
      obtain ⟨b₁, hstep, hrest⟩ := exists_of_bind_ok h
      exact ⟨(hf b a).mp ⟨b₁, hstep⟩, (ih b₁).mp ⟨b', hrest⟩⟩
    · rintro ⟨ha, hl⟩
      obtain ⟨b₁, hstep⟩ := (hf b a).mpr ha
      obtain ⟨b', hrest⟩ := (ih b₁).mpr hl
      rw [hstep]
      exact ⟨b', hrest⟩

/-- What holds of all numbered members of a list, whatever their numbers. -/
theorem forall_mem_zipIdx_iff (P : α → Prop) (l : List α) (k : Nat) :
    (∀ a ∈ l.zipIdx k, P a.1) ↔ ∀ a ∈ l, P a := by
  have hmap : (∀ a ∈ (l.zipIdx k).map Prod.fst, P a) ↔ ∀ a ∈ l.zipIdx k, P a.1 :=
    List.forall_mem_map
  rw [List.zipIdx_map_fst] at hmap
  exact hmap.symm

end Folds

/-- What is known of a name: the kind of its symbol, and the alternatives by name. -/
structure Description where
  isTerminal : Bool
  alternatives : List (List String)
  deriving DecidableEq, Repr

namespace Catalog

/-- What a catalog says of a name. -/
def describe? (c : Catalog) (name : String) : Option Description :=
  (c.find? name).map fun symbol =>
    ⟨c.isTerminal symbol, (c.alternatives symbol).map (·.map c.name)⟩

variable {c c' : Catalog} {symbol : Nat} {name left : String} {e : Entry} {α : List Nat}

theorem describe?_eq_none_iff : c.describe? name = none ↔ c.find? name = none := by
  rw [describe?, Option.map_eq_none_iff]

theorem describe?_empty (name : String) : empty.describe? name = none := by
  simp [describe?, find?, empty]

theorem lt_size_of_find? (h : c.find? name = some symbol) : symbol < c.size :=
  lt_size_of_name? (name?_of_find? h)

/-- A symbol keeps its name while the catalog grows. -/
theorem Grows.name_eq (h : c.Grows c') (hlt : symbol < c.size) :
    c'.name symbol = c.name symbol := by
  obtain ⟨e, he, hname⟩ := name?_eq_some_iff.mp (name?_eq_name hlt)
  obtain ⟨e', he', hname', -⟩ := h.entry he
  exact name_eq_of_name? (name?_eq_some_iff.mpr ⟨e', he', hname'.trans hname⟩)

/-! ## One more symbol -/

theorem find?_push (c : Catalog) (e : Entry) (name : String) :
    (c.push e).find? name = (c.find? name).or (if e.name = name then some c.size else none) := by
  rw [find?, push, Array.findIdx?_push, find?, size]
  simp only [beq_iff_eq]

theorem getElem?_push_of_lt (hlt : symbol < c.size) :
    (c.push e).entries[symbol]? = c.entries[symbol]? := by
  rw [getElem?_push, if_neg (Nat.ne_of_lt hlt)]

theorem name_push_of_lt (hlt : symbol < c.size) : (c.push e).name symbol = c.name symbol := by
  rw [name, name?, getElem?_push_of_lt hlt, name, name?]

/-- **A symbol without alternatives adds its description**, if its name is new. -/
theorem describe?_push (hc : c.Consistent) (hnone : e.alternatives = []) (name : String) :
    (c.push e).describe? name =
      (c.describe? name).or (if e.name = name then some ⟨e.isTerminal, []⟩ else none) := by
  rw [describe?, find?_push, describe?]
  cases hfind : c.find? name with
  | none =>
    rw [Option.none_or, Option.map_none, Option.none_or]
    split
    · simp [isTerminal, alternatives, getElem?_push, hnone]
    · rfl
  | some symbol =>
    have hentry : (c.push e).entries[symbol]? = c.entries[symbol]? :=
      getElem?_push_of_lt (lt_size_of_find? hfind)
    have hspelled : (c.alternatives symbol).map (·.map (c.push e).name) =
        (c.alternatives symbol).map (·.map c.name) := by
      refine List.map_congr_left fun α hα => List.map_congr_left fun s hs => ?_
      exact name_push_of_lt (hc.closed hα s hs)
    rw [Option.some_or, Option.map_some, Option.map_some, Option.some_or]
    simp only [isTerminal, hentry, alternatives, Option.some.injEq, Description.mk.injEq,
      true_and]
    exact hspelled

/-! ## One more alternative -/

theorem find?_addAlternative (c : Catalog) (left : String) (α : List Nat) (name : String) :
    (c.addAlternative left α).find? name = c.find? name := by
  rw [addAlternative]
  split
  · rfl
  · next symbol _ =>
    -- Only names matter for the search, and they stay as they are.
    have hnames : (c.entries.modify symbol (Entry.addAlternative α)).map Entry.name =
        c.entries.map Entry.name := by
      apply Array.ext_getElem?
      intro i
      rw [Array.getElem?_map, Array.getElem?_map, Array.getElem?_modify]
      split <;> simp [Function.comp_def]
    have hfind : ∀ entries : Array Entry, entries.findIdx? (·.name == name) =
        (entries.map Entry.name).findIdx? (· == name) := fun entries => by
      rw [Array.findIdx?_map]
      rfl
    rw [find?, hfind, hnames, ← hfind, find?]

theorem getElem?_addAlternative_of_find? (h : c.find? left = some symbol) (α : List Nat) (i : Nat) :
    (c.addAlternative left α).entries[i]? =
      if symbol = i then c.entries[i]?.map (Entry.addAlternative α) else c.entries[i]? := by
  rw [addAlternative, h]
  exact Array.getElem?_modify

theorem name_addAlternative (h : c.find? left = some symbol) (α : List Nat) (i : Nat) :
    (c.addAlternative left α).name i = c.name i := by
  rw [name, name?, getElem?_addAlternative_of_find? h, name, name?]
  split <;> simp [Function.comp_def]

/-- **An alternative of a nonterminal is added to its description**, after the others. -/
theorem describe?_addAlternative {alternatives : List (List String)}
    (h : c.describe? left = some ⟨false, alternatives⟩) (α : List Nat) (name : String) :
    (c.addAlternative left α).describe? name =
      if name = left then some ⟨false, alternatives ++ [α.map c.name]⟩ else c.describe? name := by
  obtain ⟨symbol, hfind, hdescription⟩ := Option.map_eq_some_iff.mp h
  rw [Description.mk.injEq] at hdescription
  obtain ⟨hkind, halternatives⟩ := hdescription
  have hentries := getElem?_addAlternative_of_find? hfind α
  have hnames : (c.addAlternative left α).name = c.name := funext (name_addAlternative hfind α)
  rw [describe?, find?_addAlternative, hnames]
  split
  · next hname =>
    obtain ⟨e, he, -⟩ := name?_eq_some_iff.mp (name?_of_find? hfind)
    have he' := (hentries symbol).trans (if_pos rfl)
    rw [isTerminal, he] at hkind
    rw [Catalog.alternatives, he] at halternatives
    rw [he] at he'
    rw [hname, hfind, Option.map_some, isTerminal, Catalog.alternatives, he', ← halternatives]
    cases e with
    | terminal _ => cases hkind
    | nonterminal _ _ => simp [Entry.addAlternative, Entry.isTerminal, Entry.alternatives]
  · next hname =>
    rw [describe?]
    refine Option.map_congr fun i hi => ?_
    have hne : symbol ≠ i := by
      rintro rfl
      have hleft := name?_of_find? hfind
      rw [name?_of_find? hi] at hleft
      exact hname (Option.some.inj hleft)
    have hi' := (hentries i).trans (if_neg hne)
    rw [isTerminal, isTerminal, Catalog.alternatives, Catalog.alternatives, hi']

end Catalog

/-! ## The names of an alternative -/

namespace Config

/-- The names of an alternative: none for a placeholder of the empty string. -/
def spelling (config : Config) (names : List String) : List String :=
  match names.map Text.trim with
  | [only] => if config.isEpsilon only then [] else [only]
  | trimmed => trimmed

/-- None of the names is reserved. -/
def Admits (config : Config) (names : List String) : Prop :=
  ∀ name ∈ names, config.isEpsilon name = false ∧ name ≠ Mark.finish

/-- An alternative that is not without names, and whose names are not reserved unless it is a
placeholder of the empty string. -/
def CanRead (config : Config) (names : List String) : Prop :=
  names ≠ [] ∧ config.Admits (config.spelling names)

end Config

namespace Catalog

section Construction

variable {config : Config} {convention : Convention} {c c' : Catalog} {symbol : Nat}
  {name : String} {names : List String} {symbols : List Nat}

/-- A name that is registered gets a description, unless it has one. -/
theorem describe?_intern (hc : c.Consistent) (h : c.intern convention name = (symbol, c')) :
    c'.name symbol = name ∧ ∀ n, c'.describe? n =
      (c.describe? n).or
        (if name = n then some ⟨!convention.isNonterminal name, []⟩ else none) := by
  rw [intern] at h
  split at h
  · next found hfind =>
    cases h
    refine ⟨name_eq_of_name? (name?_of_find? hfind), fun n => ?_⟩
    split
    · next heq =>
      rw [← heq, describe?, hfind, Option.map_some, Option.some_or]
    · rw [Option.or_none]
  · have hnew : ∀ e : Entry, (c.push e).name c.size = e.name := fun e => by
      simp [Catalog.name, name?, getElem?_push]
    split at h
    · next hkind =>
      cases h
      refine ⟨hnew _, fun n => ?_⟩
      rw [hkind]
      exact describe?_push hc rfl n
    · next hkind =>
      cases h
      refine ⟨hnew _, fun n => ?_⟩
      rw [Bool.not_eq_true] at hkind
      rw [hkind]
      exact describe?_push hc rfl n

/-- Names that are registered get descriptions, unless they have them. -/
theorem describe?_internAll (hc : c.Consistent)
    (h : internAll config names c = .ok (symbols, c')) :
    symbols.map c'.name = names ∧ ∀ n, c'.describe? n =
      (c.describe? n).or
        (if n ∈ names then some ⟨!config.convention.isNonterminal n, []⟩ else none) := by
  induction names generalizing c symbols with
  | nil =>
    cases h
    exact ⟨rfl, fun n => by simp⟩
  | cons name names ih =>
    rw [internAll] at h
    split_ifs at h with hepsilon hfinish
    have hname : name ≠ Mark.finish := by simpa using hfinish
    cases hintern : c.intern config.convention name with
    | mk symbol c₁ =>
      rw [hintern] at h
      obtain ⟨⟨rest, c₂⟩, hrest, h⟩ := exists_of_bind_ok h
      cases h
      obtain ⟨hgrows₁, hlt⟩ := intern_grows hname hintern
      obtain ⟨hsymbol, hdescribe₁⟩ := describe?_intern hc hintern
      obtain ⟨hsymbols, hdescribe₂⟩ := ih (hgrows₁.consistent hc) hrest
      obtain ⟨hgrows₂, -⟩ := internAll_grows hrest
      refine ⟨?_, fun n => ?_⟩
      · rw [List.map_cons, hsymbols, hgrows₂.name_eq hlt, hsymbol]
      · rw [hdescribe₂, hdescribe₁, Option.or_assoc]
        congr 1
        by_cases heq : name = n
        · subst heq
          simp
        · simp [heq, eq_comm]

/-- Names can be registered if none of them is reserved. -/
theorem exists_internAll_iff (names : List String) (c : Catalog) :
    (∃ r, internAll config names c = .ok r) ↔ config.Admits names := by
  induction names generalizing c with
  | nil => exact ⟨fun _ => by simp [Config.Admits], fun _ => ⟨_, rfl⟩⟩
  | cons name names ih =>
    rw [Config.Admits, List.forall_mem_cons, ← Config.Admits, internAll]
    split_ifs with hepsilon hfinish
    · simp [hepsilon]
    · have hname : name = Mark.finish := by simpa using hfinish
      simp [hname]
    · have hname : name ≠ Mark.finish := by simpa using hfinish
      rw [Bool.not_eq_true] at hepsilon
      obtain ⟨symbol, c₁⟩ := c.intern config.convention name
      rw [← ih c₁]
      constructor
      · rintro ⟨r, h⟩
        obtain ⟨r', hr', -⟩ := exists_of_bind_ok h
        exact ⟨⟨hepsilon, hname⟩, r', hr'⟩
      · rintro ⟨-, ⟨rest, c₂⟩, hr'⟩
        refine ⟨(symbol :: rest, c₂), ?_⟩
        dsimp only
        rw [hr']
        rfl

/-- An alternative is read by registering its names. -/
theorem readAlternative_eq_ok_iff {r : List Nat × Catalog} :
    readAlternative config c names = .ok r ↔
      names ≠ [] ∧ internAll config (config.spelling names) c = .ok r := by
  match names with
  | [] => simp [readAlternative]
  | [only] =>
    simp only [readAlternative, Config.spelling, List.map_cons, List.map_nil]
    split <;> simp [internAll]
  | first :: second :: rest => simp [readAlternative, Config.spelling]

/-- An alternative of a rule is added to the description of the left side, and its names get
descriptions unless they have them. -/
theorem describe?_addRuleAlternative {rule : Rule} {place : Nat}
    {alternative : List String × Nat} {alternatives : List (List String)} (hc : c.Consistent)
    (hleft : c.describe? (Text.trim rule.left) = some ⟨false, alternatives⟩)
    (h : addRuleAlternative config rule place c alternative = .ok c') (n : String) :
    c'.describe? n =
      if n = Text.trim rule.left then
        some ⟨false, alternatives ++ [config.spelling alternative.1]⟩
      else (c.describe? n).or
        (if n ∈ config.spelling alternative.1 then
          some ⟨!config.convention.isNonterminal n, []⟩ else none) := by
  rw [addRuleAlternative] at h
  split at h
  · cases h
  · next symbols c₁ hread =>
    cases h
    obtain ⟨-, hintern⟩ := readAlternative_eq_ok_iff.mp hread
    obtain ⟨hsymbols, hdescribe⟩ := describe?_internAll hc hintern
    have hleft' := hdescribe (Text.trim rule.left)
    rw [hleft, Option.some_or] at hleft'
    rw [describe?_addAlternative hleft', hsymbols, hdescribe]

theorem exists_addRuleAlternative_iff (rule : Rule) (place : Nat) (c : Catalog)
    (alternative : List String × Nat) :
    (∃ c', addRuleAlternative config rule place c alternative = .ok c') ↔
      config.CanRead alternative.1 := by
  rw [Config.CanRead, ← exists_internAll_iff _ c, ← exists_and_left]
  simp only [← readAlternative_eq_ok_iff, addRuleAlternative]
  cases readAlternative config c alternative.1 with
  | error flaw => simp
  | ok r => simp

end Construction

end Catalog

/-! ## Rules -/

namespace Rule

/-- The name of the left side. -/
def name (rule : Rule) : String :=
  Text.trim rule.left

/-- The alternatives of a rule as they are read, each with its left side. -/
def productions (config : Config) (rule : Rule) : List (String × List String) :=
  rule.alternatives.map fun names => (rule.name, config.spelling names)

/-- The right sides of a rule are without faults. -/
def IsReadable (config : Config) (rule : Rule) : Prop :=
  rule.alternatives ≠ [] ∧ ∀ names ∈ rule.alternatives, config.CanRead names

end Rule

/-- What left sides and productions say of a name. -/
def describeRules? (convention : Convention) (lefts : List String)
    (productions : List (String × List String)) (name : String) : Option Description :=
  if name ∈ lefts then some ⟨false, (productions.filter (·.1 = name)).map Prod.snd⟩
  else if name ∈ productions.flatMap Prod.snd then some ⟨!convention.isNonterminal name, []⟩
  else none

namespace Catalog

section Rules

variable {config : Config} {c c' : Catalog} {lefts : List String}
  {productions : List (String × List String)}

/-- A catalog in which left sides and productions are registered, and nothing else. -/
structure Holds (config : Config) (lefts : List String) (productions : List (String × List String))
    (c : Catalog) : Prop where
  consistent : c.Consistent
  describe?_eq : ∀ name, c.describe? name =
    describeRules? config.convention lefts productions name

theorem Holds.addRuleAlternative {rule : Rule} {place : Nat} {alternative : List String × Nat}
    (hc : c.Holds config lefts productions) (hleft : rule.name ∈ lefts)
    (h : addRuleAlternative config rule place c alternative = .ok c') :
    c'.Holds config lefts (productions ++ [(rule.name, config.spelling alternative.1)]) where
  consistent := (addRuleAlternative_grows h).consistent hc.consistent
  describe?_eq name := by
    have hrule := (hc.describe?_eq rule.name).trans (if_pos hleft)
    rw [describe?_addRuleAlternative hc.consistent hrule h, hc.describe?_eq]
    change (if name = rule.name then _ else _) = _
    by_cases hname : name = rule.name
    · subst hname
      simp [describeRules?, hleft]
    · by_cases hmem : name ∈ lefts
      · simp [describeRules?, hmem, hname, eq_comm]
      · rw [if_neg hname, describeRules?, describeRules?, if_neg hmem, if_neg hmem]
        simp only [List.flatMap_append, List.mem_append, List.flatMap_singleton]
        by_cases hright : name ∈ productions.flatMap Prod.snd <;> simp [hright]

/-- The alternatives of a rule are added after those of the rules before it. -/
theorem Holds.addRule {rule : Rule × Nat} (hc : c.Holds config lefts productions)
    (hleft : rule.1.name ∈ lefts) (h : addRule config c rule = .ok c') :
    c'.Holds config lefts (productions ++ rule.1.productions config) := by
  rw [Catalog.addRule] at h
  split at h
  · cases h
  · have hall := foldlM_invariant
      (P := fun done c => c.Holds config lefts
        (productions ++ done.map fun a => (rule.1.name, config.spelling a.1))) h
      (fun done a _ c c' hc hstep => by
        rw [List.map_append, ← List.append_assoc]
        exact hc.addRuleAlternative hleft hstep)
      (by simpa using hc)
    have hmap : (rule.1.alternatives.zipIdx.map fun a => (rule.1.name, config.spelling a.1)) =
        rule.1.productions config := by
      have hfst := congrArg (List.map fun names => (rule.1.name, config.spelling names))
        (List.zipIdx_map_fst 0 rule.1.alternatives)
      rw [List.map_map] at hfst
      exact hfst
    rw [hmap] at hall
    exact hall

theorem describeRules?_nil (convention : Convention) (lefts : List String) (name : String) :
    describeRules? convention lefts [] name =
      if name ∈ lefts then some ⟨false, []⟩ else none := by
  simp [describeRules?]

/-- As long as only left sides are registered, they have no alternatives. -/
theorem Holds.declareLeft {rule : Rule × Nat} (hc : c.Holds config lefts [])
    (h : declareLeft config c rule = .ok c') : c'.Holds config (lefts ++ [rule.1.name]) [] where
  consistent := (declareLeft_ok h).1.consistent hc.consistent
  describe?_eq name := by
    have hleft := hc.describe?_eq rule.1.name
    rw [describeRules?_nil] at hleft
    rw [Catalog.declareLeft] at h
    rw [describeRules?_nil]
    split at h
    · cases h
    · split at h
      · next found hfind =>
        cases h
        have hmem : rule.1.name ∈ lefts := by
          by_cases hmem : rule.1.name ∈ lefts
          · exact hmem
          · rw [if_neg hmem, describe?_eq_none_iff] at hleft
            cases hfind.symm.trans hleft
        rw [hc.describe?_eq, describeRules?_nil]
        by_cases hname : name = rule.1.name <;> simp [hname, hmem]
      · next hfind =>
        cases h
        have hmem : rule.1.name ∉ lefts := by
          intro hmem
          rw [if_pos hmem] at hleft
          cases hleft.symm.trans (describe?_eq_none_iff.mpr hfind)
        rw [describe?_push hc.consistent rfl, hc.describe?_eq, describeRules?_nil]
        change Option.or _ (if rule.1.name = name then _ else _) = _
        by_cases hname : rule.1.name = name
        · subst hname
          simp [hmem, Entry.isTerminal]
        · have hne : ¬ name = rule.1.name := fun heq => hname heq.symm
          simp [hname, hne]

/-- A name is registered among left sides if it is one of them. -/
theorem Holds.exists_find?_iff {name : String} (hc : c.Holds config lefts []) :
    (∃ symbol, c.find? name = some symbol) ↔ name ∈ lefts := by
  have hname := hc.describe?_eq name
  rw [describeRules?_nil, describe?] at hname
  by_cases hmem : name ∈ lefts
  · rw [if_pos hmem] at hname
    obtain ⟨symbol, hfind, -⟩ := Option.map_eq_some_iff.mp hname
    exact ⟨fun _ => hmem, fun _ => ⟨symbol, hfind⟩⟩
  · rw [if_neg hmem, Option.map_eq_none_iff] at hname
    simp [hname, hmem]

/-! ## All rules -/

theorem exists_declareLeft_iff (c : Catalog) (rule : Rule × Nat) :
    (∃ c', Catalog.declareLeft config c rule = .ok c') ↔ leftFlaw? config rule.1.name = none := by
  rw [Catalog.declareLeft, ← Rule.name]
  cases leftFlaw? config rule.1.name with
  | some flaw => simp
  | none => cases c.find? rule.1.name <;> simp

theorem exists_addRule_iff (c : Catalog) (rule : Rule × Nat) :
    (∃ c', Catalog.addRule config c rule = .ok c') ↔ rule.1.IsReadable config := by
  rw [Catalog.addRule, Rule.IsReadable]
  split
  · next hnone => simp [List.isEmpty_iff.mp hnone]
  · next hsome =>
    rw [List.isEmpty_iff] at hsome
    rw [exists_foldlM_iff (P := fun a => config.CanRead a.1)
      (exists_addRuleAlternative_iff rule.1 rule.2), forall_mem_zipIdx_iff config.CanRead]
    exact (and_iff_right hsome).symm

end Rules

end Catalog

namespace Grammar

variable {rules : List Rule} {start : String} {config : Config} {g : Grammar}

/-- The three parts of the construction. -/
theorem ofRules_eq_ok_iff : ofRules rules (some start) config = .ok g ↔
    ∃ declared filled symbol,
      (rules.zipIdx 1).foldlM (Catalog.declareLeft config) Catalog.empty = .ok declared ∧
      (rules.zipIdx 1).foldlM (Catalog.addRule config) declared = .ok filled ∧
      declared.find? (Text.trim start) = some symbol ∧
      g = ⟨filled.push (.terminal Mark.finish), symbol, filled.size⟩ := by
  constructor
  · intro h
    cases rules with
    | nil => cases h
    | cons first rest =>
      obtain ⟨declared, hdeclared, h⟩ := exists_of_bind_ok h
      obtain ⟨filled, hfilled, h⟩ := exists_of_bind_ok h
      dsimp only [Option.getD_some] at h
      split at h
      · cases h
      · next symbol hfind =>
        cases h
        exact ⟨declared, filled, symbol, hdeclared, hfilled, hfind, rfl⟩
  · rintro ⟨declared, filled, symbol, hdeclared, hfilled, hfind, rfl⟩
    cases rules with
    | nil =>
      cases hdeclared
      simp [Catalog.find?, Catalog.empty] at hfind
    | cons first rest =>
      rw [ofRules]
      simp only [hdeclared, hfilled, Option.getD_some, hfind, bind, Except.bind]
      rfl

/-- The catalog of left sides. -/
theorem holds_of_declareLeft {declared : Catalog}
    (h : (rules.zipIdx 1).foldlM (Catalog.declareLeft config) Catalog.empty = .ok declared) :
    declared.Holds config (rules.map Rule.name) [] := by
  have hempty : Catalog.empty.Holds config [] [] := by
    refine ⟨Catalog.consistent_empty, fun name => ?_⟩
    rw [Catalog.describe?_empty, Catalog.describeRules?_nil, if_neg List.not_mem_nil]
  have hall := foldlM_invariant
    (P := fun done c => c.Holds config (done.map fun rule => rule.1.name) []) h
    (fun done rule _ c c' hc hstep => by
      rw [List.map_append]
      exact hc.declareLeft hstep)
    hempty
  have hfst := congrArg (List.map Rule.name) (List.zipIdx_map_fst 1 rules)
  rw [List.map_map] at hfst
  rw [← hfst]
  exact hall

/-- The catalog of left sides and right sides. -/
theorem holds_of_addRule {declared filled : Catalog}
    (hdeclared : declared.Holds config (rules.map Rule.name) [])
    (h : (rules.zipIdx 1).foldlM (Catalog.addRule config) declared = .ok filled) :
    filled.Holds config (rules.map Rule.name) (rules.flatMap (Rule.productions config)) := by
  have hall := foldlM_invariant
    (P := fun done c => c.Holds config (rules.map Rule.name)
      ((done.map Prod.fst).flatMap (Rule.productions config))) h
    (fun done rule hrule c c' hc hstep => by
      rw [List.map_append, List.flatMap_append, List.map_singleton, List.flatMap_singleton]
      have hmem := List.fst_mem_of_mem_zipIdx hrule
      exact hc.addRule (List.mem_map_of_mem hmem) hstep)
    hdeclared
  rw [List.zipIdx_map_fst] at hall
  exact hall

/-- **Which rules have a grammar**: those that are without faults one by one, if the start symbol
is a left side. -/
theorem exists_ofRules_iff (rules : List Rule) (start : String) (config : Config) :
    (∃ g, ofRules rules (some start) config = .ok g) ↔
      (∀ rule ∈ rules, Catalog.leftFlaw? config rule.name = none) ∧
        (∀ rule ∈ rules, rule.IsReadable config) ∧ Text.trim start ∈ rules.map Rule.name := by
  have hlefts : (∃ declared,
      (rules.zipIdx 1).foldlM (Catalog.declareLeft config) Catalog.empty = .ok declared) ↔
        ∀ rule ∈ rules, Catalog.leftFlaw? config rule.name = none := by
    rw [exists_foldlM_iff Catalog.exists_declareLeft_iff,
      forall_mem_zipIdx_iff fun rule : Rule => Catalog.leftFlaw? config rule.name = none]
  have hrules : ∀ declared, (∃ filled,
      (rules.zipIdx 1).foldlM (Catalog.addRule config) declared = .ok filled) ↔
        ∀ rule ∈ rules, rule.IsReadable config := by
    intro declared
    rw [exists_foldlM_iff Catalog.exists_addRule_iff,
      forall_mem_zipIdx_iff (Rule.IsReadable config)]
  simp only [ofRules_eq_ok_iff]
  rw [← hlefts]
  constructor
  · rintro ⟨g, declared, filled, symbol, hdeclared, hfilled, hfind, -⟩
    refine ⟨⟨declared, hdeclared⟩, (hrules declared).mp ⟨filled, hfilled⟩, ?_⟩
    exact (holds_of_declareLeft hdeclared).exists_find?_iff.mp ⟨symbol, hfind⟩
  · rintro ⟨⟨declared, hdeclared⟩, hreadable, hstart⟩
    obtain ⟨filled, hfilled⟩ := (hrules declared).mpr hreadable
    obtain ⟨symbol, hfind⟩ := (holds_of_declareLeft hdeclared).exists_find?_iff.mpr hstart
    exact ⟨_, declared, filled, symbol, hdeclared, hfilled, hfind, rfl⟩

/-- **What the grammar of rules says of a name**, and the name of its start symbol. -/
theorem describe?_ofRules (h : ofRules rules (some start) config = .ok g) :
    g.name g.start = Text.trim start ∧ ∀ name, g.describe? name =
      (describeRules? config.convention (rules.map Rule.name)
        (rules.flatMap (Rule.productions config)) name).or
          (if Mark.finish = name then some ⟨true, []⟩ else none) := by
  obtain ⟨declared, filled, symbol, hdeclared, hfilled, hfind, rfl⟩ := ofRules_eq_ok_iff.mp h
  have hholds := holds_of_addRule (holds_of_declareLeft hdeclared) hfilled
  constructor
  · have hgrows : declared.Grows filled :=
      foldlM_induction (fun _ _ _ hstep hc => hc.trans (Catalog.addRule_grows hstep))
        hfilled (.refl _)
    have hlt := Catalog.lt_size_of_find? hfind
    change (filled.push (.terminal Mark.finish)).name symbol = _
    rw [Catalog.name_push_of_lt (Nat.lt_of_lt_of_le hlt hgrows.size_le), hgrows.name_eq hlt]
    exact Catalog.name_eq_of_name? (Catalog.name?_of_find? hfind)
  · intro name
    change (filled.push (.terminal Mark.finish)).describe? name = _
    rw [Catalog.describe?_push hholds.consistent rfl, hholds.describe?_eq]
    rfl

end Grammar

end TopDown
