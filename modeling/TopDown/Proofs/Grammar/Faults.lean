import TopDown.Proofs.Grammar.Declaration

/-!
# What is wrong with rules

A list of rules without a grammar is refused with the first fault in it. The construction that finds
the fault registers names as it goes, but what is wrong with a left side or with an alternative does
not depend on what is registered. So the fault can be found by looking: through the left sides of
all rules, then through their alternatives, and at the start symbol last.

## Main definitions

* `Config.flaw?`: what is wrong with an alternative
* `Rule.leftFault?`, `Rule.rightFault?`: what is wrong with the two sides of a rule
* `Grammar.fault?`: the first fault in a list of rules

## Main results

* `Grammar.ofRules_eq_error_iff`: the fault that is reported is the first one
* `Parser.build_eq_error_iff`, `Parser.exists_build_eq_ok_iff`: which rules have a parser
-/

namespace TopDown

/-- Where there is a result, there is no failure. -/
theorem eq_none_of_eq_ok {ε α : Type} {x : Except ε α} {failure? : Option ε}
    (h : ∀ e, x = .error e ↔ failure? = some e) {a : α} (hx : x = .ok a) : failure? = none := by
  refine Option.eq_none_iff_forall_ne_some.mpr fun e he => ?_
  cases hx.symm.trans ((h e).mpr he)

/-- A fold whose steps fail whatever came before them ends with the first failure. -/
theorem foldlM_eq_error_iff {ε α β : Type} {f : β → α → Except ε β} {fault? : α → Option ε}
    (hf : ∀ b a e, f b a = .error e ↔ fault? a = some e) {l : List α} {b : β} {e : ε} :
    l.foldlM f b = .error e ↔ l.findSome? fault? = some e := by
  induction l generalizing b with
  | nil => constructor <;> intro h <;> cases h
  | cons a l ih =>
    rw [List.foldlM_cons, List.findSome?_cons]
    cases hstep : f b a with
    | error e' =>
      rw [(hf b a e').mp hstep]
      exact ⟨fun h => congrArg some (Except.error.inj h), fun h => congrArg _ (Option.some.inj h)⟩
    | ok b' =>
      rw [eq_none_of_eq_ok (hf b a) hstep]
      exact ih

/-- What is found first among the numbered members of a list, and the member it is found at. -/
theorem exists_of_findSome?_zipIdx {α β : Type} {f : α × Nat → Option β} {l : List α} {k : Nat}
    {b : β} (h : (l.zipIdx k).findSome? f = some b) :
    ∃ before a after, l = before ++ a :: after ∧ f (a, k + before.length) = some b ∧
      ∀ x ∈ before.zipIdx k, f x = none := by
  obtain ⟨numbered, a, rest, hsplit, ha, hnone⟩ := List.findSome?_eq_some_iff.mp h
  obtain ⟨before, others, rfl, rfl, hothers⟩ := List.zipIdx_eq_append_iff.mp hsplit
  obtain ⟨a, after, rfl, rfl, -⟩ := List.zipIdx_eq_cons_iff.mp hothers.symm
  exact ⟨before, a, after, rfl, ha, hnone⟩

/-! ## Alternatives -/

namespace Config

/-- What is wrong with a symbol of an alternative, if anything is. -/
def reserved? (config : Config) (name : String) : Option Flaw :=
  if config.isEpsilon name then some .epsilonAmongSymbols
  else if name = Mark.finish then some .finishOnRight
  else none

/-- What is wrong with an alternative, if anything is: it is empty, or one of its symbols is
reserved. -/
def flaw? (config : Config) (names : List String) : Option Flaw :=
  if names = [] then some (.emptyAlternative config.epsilon)
  else (config.spelling names).findSome? config.reserved?

variable {config : Config} {names : List String}

theorem reserved?_eq_none_iff {name : String} :
    config.reserved? name = none ↔ config.isEpsilon name = false ∧ name ≠ Mark.finish := by
  rw [reserved?]
  split_ifs with hepsilon hfinish
  · simp [hepsilon]
  · simp [hfinish]
  · simp [hepsilon, hfinish]

/-- An alternative can be read if nothing is wrong with it. -/
theorem flaw?_eq_none_iff : config.flaw? names = none ↔ config.CanRead names := by
  rw [flaw?, CanRead]
  split_ifs with hnames
  · simp [hnames]
  · simp only [List.findSome?_eq_none_iff, reserved?_eq_none_iff]
    exact (and_iff_right hnames).symm

end Config

namespace Catalog

variable {config : Config} {c : Catalog} {names : List String} {flaw : Flaw} {e : BuildError}

theorem internAll_eq_error_iff :
    internAll config names c = .error flaw ↔ names.findSome? config.reserved? = some flaw := by
  induction names generalizing c with
  | nil => constructor <;> intro h <;> cases h
  | cons name names ih =>
    rw [internAll, List.findSome?_cons, Config.reserved?]
    split_ifs with hepsilon hbeq hfinish hfinish
    · simp
    · simp
    · exact absurd (beq_iff_eq.mp hbeq) hfinish
    · exact absurd (beq_iff_eq.mpr hfinish) hbeq
    · dsimp only
      rw [← ih]
      cases internAll config names (c.intern config.convention name).2 with
      | error flaw' => simp [bind, Except.bind]
      | ok r => simp [bind, Except.bind, pure, Except.pure]

theorem readAlternative_eq_error_iff :
    readAlternative config c names = .error flaw ↔ config.flaw? names = some flaw := by
  rw [Config.flaw?]
  match names with
  | [] => simp [readAlternative]
  | [only] =>
    rw [if_neg (List.cons_ne_nil _ _)]
    simp only [readAlternative, Config.spelling, List.map_cons, List.map_nil]
    split
    · simp
    · exact internAll_eq_error_iff
  | first :: second :: rest =>
    rw [if_neg (List.cons_ne_nil _ _)]
    exact internAll_eq_error_iff

end Catalog

/-! ## Rules -/

namespace Rule

/-- The fault in the left side of a rule, which stands at a place among the rules. -/
def leftFault? (config : Config) (rule : Rule × Nat) : Option BuildError :=
  (Catalog.leftFlaw? config rule.1.name).map
    (.malformedRule (rule.1.lineOf 0 rule.2) rule.1.name)

/-- The fault in one alternative of a rule. -/
def alternativeFault? (config : Config) (rule : Rule) (place : Nat)
    (alternative : List String × Nat) : Option BuildError :=
  (config.flaw? alternative.1).map (.malformedRule (rule.lineOf alternative.2 place) rule.name)

/-- The first fault in the alternatives of a rule, which stands at a place among the rules. -/
def rightFault? (config : Config) (rule : Rule × Nat) : Option BuildError :=
  if rule.1.alternatives = [] then
    some (.malformedRule (rule.1.lineOf 0 rule.2) rule.1.name .noAlternatives)
  else rule.1.alternatives.zipIdx.findSome? (alternativeFault? config rule.1 rule.2)

end Rule

namespace Catalog

variable {config : Config}

theorem declareLeft_eq_error_iff (c : Catalog) (rule : Rule × Nat) (e : BuildError) :
    declareLeft config c rule = .error e ↔ Rule.leftFault? config rule = some e := by
  rw [declareLeft, Rule.leftFault?, ← Rule.name]
  cases leftFlaw? config rule.1.name with
  | some flaw => simp
  | none => cases c.find? rule.1.name <;> simp

theorem addRuleAlternative_eq_error_iff (rule : Rule) (place : Nat) (c : Catalog)
    (alternative : List String × Nat) (e : BuildError) :
    addRuleAlternative config rule place c alternative = .error e ↔
      rule.alternativeFault? config place alternative = some e := by
  rw [addRuleAlternative, Rule.alternativeFault?, ← Rule.name]
  cases hread : readAlternative config c alternative.1 with
  | error flaw => simp [readAlternative_eq_error_iff.mp hread]
  | ok r =>
    simp [eq_none_of_eq_ok (fun _ => readAlternative_eq_error_iff) hread]

theorem addRule_eq_error_iff (c : Catalog) (rule : Rule × Nat) (e : BuildError) :
    addRule config c rule = .error e ↔ Rule.rightFault? config rule = some e := by
  rw [addRule, Rule.rightFault?, ← Rule.name]
  simp only [List.isEmpty_iff]
  split
  · simp
  · exact foldlM_eq_error_iff (addRuleAlternative_eq_error_iff rule.1 rule.2)

end Catalog

/-! ## All rules -/

namespace Grammar

/-- The first fault in a list of rules: there are none, or one of them has a fault in its left side,
or one of them has a fault in its alternatives, or the start symbol is no left side. -/
def fault? (rules : List Rule) (start : Option String) (config : Config) : Option BuildError :=
  match rules with
  | [] => some .noRules
  | first :: _ =>
    ((rules.zipIdx 1).findSome? (Rule.leftFault? config)).or <|
      ((rules.zipIdx 1).findSome? (Rule.rightFault? config)).or <|
        let name := Text.trim (start.getD first.left)
        if name ∈ rules.map Rule.name then none else some (.unknownStart name)

variable {rules : List Rule} {start : Option String} {config : Config} {e : BuildError}

/-- **The first fault is reported.** -/
theorem ofRules_eq_error_iff :
    ofRules rules start config = .error e ↔ fault? rules start config = some e := by
  cases rules with
  | nil => simp [ofRules, fault?]
  | cons first rest =>
    have hleft : ∀ e, _ ↔ _ := fun e => foldlM_eq_error_iff (l := (first :: rest).zipIdx 1)
      (b := Catalog.empty) (e := e) (@Catalog.declareLeft_eq_error_iff config)
    rw [ofRules, fault?]
    cases hdeclared :
        ((first :: rest).zipIdx 1).foldlM (Catalog.declareLeft config) Catalog.empty with
    | error e' =>
      rw [(hleft e').mp hdeclared]
      simp [bind, Except.bind]
    | ok declared =>
      rw [eq_none_of_eq_ok hleft hdeclared, Option.none_or]
      have hright : ∀ e, _ ↔ _ := fun e => foldlM_eq_error_iff (l := (first :: rest).zipIdx 1)
        (b := declared) (e := e) (@Catalog.addRule_eq_error_iff config)
      cases hfilled : ((first :: rest).zipIdx 1).foldlM (Catalog.addRule config) declared with
      | error e' =>
        rw [(hright e').mp hfilled]
        simp only [hfilled, bind, Except.bind]
        simp
      | ok filled =>
        rw [eq_none_of_eq_ok hright hfilled, Option.none_or]
        simp only [hfilled, bind, Except.bind]
        have hstart : (∃ symbol, declared.find? (Text.trim (start.getD first.left)) = some symbol) ↔
            _ := (holds_of_declareLeft hdeclared).exists_find?_iff
        cases hfind : declared.find? (Text.trim (start.getD first.left)) with
        | none =>
          rw [hfind] at hstart
          rw [if_neg fun hmem => by simpa using hstart.mpr hmem]
          simp
        | some symbol =>
          rw [if_pos (hstart.mp ⟨symbol, hfind⟩)]
          simp [pure, Except.pure]

/-- Rules have a grammar if there is no fault. -/
theorem exists_ofRules_eq_ok_iff :
    (∃ g, ofRules rules start config = .ok g) ↔ fault? rules start config = none := by
  cases hresult : ofRules rules start config with
  | error e => simp [ofRules_eq_error_iff.mp hresult]
  | ok g => simp [eq_none_of_eq_ok (fun _ => ofRules_eq_error_iff) hresult]

end Grammar

namespace Parser

variable {rules : List Rule} {start : Option String} {config : Config}

theorem build_eq_error_iff {e : BuildError} :
    build rules start config = .error e ↔ Grammar.fault? rules start config = some e := by
  rw [← Grammar.ofRules_eq_error_iff, build]
  cases Grammar.ofRules rules start config <;> simp [Except.map]

theorem exists_build_eq_ok_iff :
    (∃ p, build rules start config = .ok p) ↔ Grammar.fault? rules start config = none := by
  rw [← Grammar.exists_ofRules_eq_ok_iff, build]
  cases Grammar.ofRules rules start config <;> simp [Except.map]

end Parser

end TopDown
