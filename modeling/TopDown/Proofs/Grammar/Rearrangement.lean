import TopDown.Proofs.Grammar.Declaration

/-!
# The order of rules

The order of rules with different left sides does not matter, and a nonterminal may have its
alternatives in one rule or in several. What does matter is which left sides there are, which
alternatives each of them has in all of its rules together, in order, and whether some rule is
without alternatives (`SameDeclarations`). Rules that are the same in this respect have a grammar
both or neither, and their grammars say the same of every name. Only the numbers of the symbols may
be different.

## Main definitions

* `Rearranged`: rules in another order, with rules of one left side joined
* `alternativesOf`, `SameDeclarations`: what matters of rules

## Main results

* `Rearranged.sameDeclarations`: in another order the rules declare the same
* `SameDeclarations.exists_ofRules_iff`: both lists of rules have a grammar, or neither
* `SameDeclarations.describe?_eq`: both grammars say the same of every name
-/

namespace TopDown

/-- Rules in another order: rules with the same left side stay in their order, or two of them with
no other between them are joined. A rule without alternatives, which is a fault, is not joined. -/
inductive Rearranged : List Rule → List Rule → Prop where
  | permuted {rules rules' : List Rule} (hperm : rules.Perm rules')
      (horder : ∀ name, rules.filter (·.name = name) = rules'.filter (·.name = name)) :
      Rearranged rules rules'
  | joined {before between after : List Rule} {first second both : Rule}
      (hfirst : first.name = both.name) (hsecond : second.name = both.name)
      (hfirstSome : first.alternatives ≠ []) (hsecondSome : second.alternatives ≠ [])
      (hbetween : ∀ rule ∈ between, rule.name ≠ both.name)
      (hboth : both.alternatives = first.alternatives ++ second.alternatives) :
      Rearranged (before ++ first :: (between ++ second :: after))
        (before ++ both :: (between ++ after))
  | trans {rules₁ rules₂ rules₃ : List Rule} (h : Rearranged rules₁ rules₂)
      (h' : Rearranged rules₂ rules₃) : Rearranged rules₁ rules₃

/-- The alternatives of a left side in all its rules, in order. -/
def alternativesOf (rules : List Rule) (name : String) : List (List String) :=
  (rules.filter (·.name = name)).flatMap Rule.alternatives

/-- Rules that declare the same, in whatever order. -/
structure SameDeclarations (rules rules' : List Rule) : Prop where
  lefts : ∀ name, name ∈ rules.map Rule.name ↔ name ∈ rules'.map Rule.name
  alternatives : ∀ name, alternativesOf rules name = alternativesOf rules' name
  complete : (∀ rule ∈ rules, rule.alternatives ≠ []) ↔ ∀ rule ∈ rules', rule.alternatives ≠ []

variable {rules rules' : List Rule} {config : Config} {name : String}

theorem SameDeclarations.trans {rules'' : List Rule} (h : SameDeclarations rules rules')
    (h' : SameDeclarations rules' rules'') : SameDeclarations rules rules'' where
  lefts name := (h.lefts name).trans (h'.lefts name)
  alternatives name := (h.alternatives name).trans (h'.alternatives name)
  complete := h.complete.trans h'.complete

/-! ## Rules in another order -/

@[simp] theorem alternativesOf_append (rules rules' : List Rule) (name : String) :
    alternativesOf (rules ++ rules') name =
      alternativesOf rules name ++ alternativesOf rules' name := by
  rw [alternativesOf, List.filter_append, List.flatMap_append, alternativesOf, alternativesOf]

@[simp] theorem alternativesOf_cons (rule : Rule) (rules : List Rule) (name : String) :
    alternativesOf (rule :: rules) name =
      (if rule.name = name then rule.alternatives else []) ++ alternativesOf rules name := by
  by_cases hname : rule.name = name <;> simp [alternativesOf, hname]

/-- What is not a left side has no alternatives. -/
theorem alternativesOf_eq_nil (h : ∀ rule ∈ rules, rule.name ≠ name) :
    alternativesOf rules name = [] := by
  have hfilter : rules.filter (·.name = name) = [] := by
    rw [List.filter_eq_nil_iff]
    intro rule hrule
    simpa using h rule hrule
  rw [alternativesOf, hfilter, List.flatMap_nil]

/-- If no left side has two rules, then its alternatives are those of its rule. -/
theorem alternativesOf_of_mem (hnodup : (rules.map Rule.name).Nodup) {rule : Rule}
    (hrule : rule ∈ rules) : alternativesOf rules rule.name = rule.alternatives := by
  induction rules with
  | nil => cases hrule
  | cons first rules ih =>
    obtain ⟨hnew, hnodup⟩ := List.nodup_cons.mp hnodup
    rw [alternativesOf_cons]
    rcases List.mem_cons.mp hrule with rfl | hrule
    · have hnone := alternativesOf_eq_nil fun other hother heq =>
        hnew (List.mem_map.mpr ⟨other, hother, heq⟩)
      rw [if_pos rfl, hnone, List.append_nil]
    · have hne : first.name ≠ rule.name := fun heq => hnew (heq ▸ List.mem_map_of_mem hrule)
      rw [if_neg hne, List.nil_append, ih hnodup hrule]

/-- **Rules in another order declare the same.** -/
theorem Rearranged.sameDeclarations (h : Rearranged rules rules') :
    SameDeclarations rules rules' := by
  induction h with
  | permuted hperm horder =>
    refine ⟨fun name => (hperm.map Rule.name).mem_iff, fun name => ?_, ?_⟩
    · rw [alternativesOf, horder name, alternativesOf]
    · simp only [hperm.mem_iff]
  | @joined before between after first second both hfirst hsecond hfirstSome hsecondSome
      hbetween hboth =>
    refine ⟨fun name => ?_, fun name => ?_, ?_⟩
    · simp only [List.map_append, List.map_cons, List.mem_append, List.mem_cons, hfirst, hsecond]
      grind
    · simp only [alternativesOf_append, alternativesOf_cons, hfirst, hsecond]
      by_cases hname : both.name = name
      · subst hname
        simp [alternativesOf_eq_nil hbetween, hboth]
      · simp [hname]
    · have hbothSome : both.alternatives ≠ [] := by simp [hboth, hfirstSome]
      simp [hfirstSome, hsecondSome, hbothSome, or_imp, forall_and]
  | trans _ _ ih ih' => exact ih.trans ih'

/-! ## What a grammar takes from rules -/

theorem mem_alternativesOf_iff {names : List String} : names ∈ alternativesOf rules name ↔
    ∃ rule ∈ rules, rule.name = name ∧ names ∈ rule.alternatives := by
  simp [alternativesOf, and_assoc]

/-- What holds of all alternatives of all rules holds of the alternatives of all left sides. -/
theorem forall_alternatives_iff {P : List String → Prop} :
    (∀ rule ∈ rules, ∀ names ∈ rule.alternatives, P names) ↔
      ∀ name, ∀ names ∈ alternativesOf rules name, P names := by
  simp only [mem_alternativesOf_iff]
  constructor
  · rintro h name names ⟨rule, hrule, -, hnames⟩
    exact h rule hrule names hnames
  · intro h rule hrule names hnames
    exact h rule.name names ⟨rule, hrule, rfl, hnames⟩

/-- The productions of a left side come from its alternatives. -/
theorem filter_productions (rules : List Rule) (name : String) :
    ((rules.flatMap (Rule.productions config)).filter (·.1 = name)).map Prod.snd =
      (alternativesOf rules name).map config.spelling := by
  induction rules with
  | nil => rfl
  | cons rule rules ih =>
    rw [List.flatMap_cons, List.filter_append, List.map_append, ih, alternativesOf_cons,
      List.map_append]
    congr 1
    rw [Rule.productions, List.filter_map]
    by_cases hname : rule.name = name
    · rw [List.filter_eq_self.mpr (by simp [hname]), List.map_map, if_pos hname]
      rfl
    · rw [List.filter_eq_nil_iff.mpr (by simp [hname]), if_neg hname]
      rfl

/-- The names on right sides are those in alternatives. -/
theorem mem_productions_iff : name ∈ (rules.flatMap (Rule.productions config)).flatMap Prod.snd ↔
    ∃ rule ∈ rules, ∃ names ∈ rule.alternatives, name ∈ config.spelling names := by
  simp only [List.mem_flatMap, Rule.productions, List.mem_map]
  constructor
  · rintro ⟨_, ⟨rule, hrule, names, hnames, rfl⟩, hmem⟩
    exact ⟨rule, hrule, names, hnames, hmem⟩
  · rintro ⟨rule, hrule, names, hnames, hmem⟩
    exact ⟨_, ⟨rule, hrule, names, hnames, rfl⟩, hmem⟩

/-- The names on right sides come from the alternatives of left sides. -/
theorem notMem_productions_iff :
    name ∉ (rules.flatMap (Rule.productions config)).flatMap Prod.snd ↔
      ∀ left, ∀ names ∈ (alternativesOf rules left).map config.spelling, name ∉ names := by
  simp only [mem_productions_iff, not_exists, not_and, List.forall_mem_map]
  exact forall_alternatives_iff

/-- Rules say the same of every name if they have the same left sides, and the alternatives of each
of them are the same names. -/
theorem describeRules?_congr
    (hlefts : ∀ name, name ∈ rules.map Rule.name ↔ name ∈ rules'.map Rule.name)
    (halternatives : ∀ name, (alternativesOf rules name).map config.spelling =
      (alternativesOf rules' name).map config.spelling) (name : String) :
    describeRules? config.convention (rules.map Rule.name)
        (rules.flatMap (Rule.productions config)) name =
      describeRules? config.convention (rules'.map Rule.name)
        (rules'.flatMap (Rule.productions config)) name := by
  have hright : name ∈ (rules.flatMap (Rule.productions config)).flatMap Prod.snd ↔
      name ∈ (rules'.flatMap (Rule.productions config)).flatMap Prod.snd := by
    refine Decidable.not_iff_not.mp ?_
    simp only [notMem_productions_iff, halternatives]
  simp only [describeRules?, filter_productions, hlefts, halternatives, hright]

namespace SameDeclarations

/-- **Rules that declare the same have a grammar both or neither.** -/
theorem exists_ofRules_iff (h : SameDeclarations rules rules') (start : String)
    (config : Config) :
    (∃ g, Grammar.ofRules rules (some start) config = .ok g) ↔
      ∃ g, Grammar.ofRules rules' (some start) config = .ok g := by
  have hflaw : ∀ rules : List Rule,
      (∀ rule ∈ rules, Catalog.leftFlaw? config rule.name = none) ↔
        ∀ name ∈ rules.map Rule.name, Catalog.leftFlaw? config name = none := fun _ => by
    rw [List.forall_mem_map]
  have hreadable : ∀ rules : List Rule, (∀ rule ∈ rules, rule.IsReadable config) ↔
      (∀ rule ∈ rules, rule.alternatives ≠ []) ∧
        ∀ name, ∀ names ∈ alternativesOf rules name, config.CanRead names := fun rules => by
    rw [← forall_alternatives_iff]
    simp only [Rule.IsReadable, forall_and]
  simp only [Grammar.exists_ofRules_iff, hflaw, hreadable, h.lefts, h.alternatives, h.complete]

/-- **The grammars of rules that declare the same say the same of every name**, and have start
symbols of the same name. -/
theorem describe?_eq (h : SameDeclarations rules rules') {start : String} {g g' : Grammar}
    (hg : Grammar.ofRules rules (some start) config = .ok g)
    (hg' : Grammar.ofRules rules' (some start) config = .ok g') :
    g.name g.start = g'.name g'.start ∧ ∀ name, g.describe? name = g'.describe? name := by
  obtain ⟨hstart, hdescribe⟩ := Grammar.describe?_ofRules hg
  obtain ⟨hstart', hdescribe'⟩ := Grammar.describe?_ofRules hg'
  refine ⟨hstart.trans hstart'.symm, fun name => ?_⟩
  rw [hdescribe, hdescribe', describeRules?_congr h.lefts fun name => by rw [h.alternatives]]

end SameDeclarations

end TopDown
