import TopDown.Proofs.Follow.Exact
import TopDown.Proofs.Table.Conflicts

/-!
# FOLLOW and what is reached

FOLLOW sets take in the alternatives of every nonterminal, whether a derivation from the start
symbol comes by it or not. So they hold more than the start symbol accounts for: a terminal follows
a nonterminal if it comes right after it in a string derived from the start symbol with the end mark
behind it, or in a string derived from a nonterminal that is not reached. Only the second way is
open to terminals that no input can have there, and they can put a nonterminal that is reached in
conflict. If everything is reached, then FOLLOW is about the start symbol alone.

That something is not derived is shown by a list of strings that no rewriting leaves
(`Grammar.Derives.mem_of_closed`).

## Main definitions

* `Grammar.Reachable`: the symbols in what the start symbol derives
* `Grammar.FollowsFromStart`: a terminal after a symbol, in a derivation from the start symbol
* `Grammar.FollowsUnreached`: the same from a nonterminal that is not reached
* `Grammar.rewrites`: the strings one step away

## Main results

* `Grammar.mem_followOf_iff_reached`: FOLLOW, by where the derivation starts
* `Parser.follow_reached`: FOLLOW sets and conflicts of the parser of a list of rules
* `Parser.follow_exceeds_start`: rules where what is not reached causes a conflict
-/

namespace TopDown

namespace Grammar

variable {g : Grammar} {α β γ : List Nat} {s t : Nat}

/-- A symbol stands in a string that the start symbol derives. -/
def Reachable (g : Grammar) (s : Nat) : Prop :=
  ∃ α β, g.Derives [g.start] (α ++ s :: β)

/-- A terminal comes right after a symbol in what the start symbol derives, with the end mark
behind it. -/
def FollowsFromStart (g : Grammar) (s t : Nat) : Prop :=
  ∃ α β, g.Derives [g.start, g.finish] (α ++ s :: t :: β)

/-- A terminal comes right after a symbol in what a nonterminal derives that is not reached. -/
def FollowsUnreached (g : Grammar) (s t : Nat) : Prop :=
  ∃ left, g.isNonterminal left = true ∧ ¬ g.Reachable left ∧
    ∃ α β, g.Derives [left] (α ++ s :: t :: β)

/-- What is derived inside a string that the start symbol derives goes on inside it. -/
theorem FollowsFromStart.of_reachable {left : Nat} (hleft : g.Reachable left)
    (h : g.Derives [left] (α ++ s :: t :: β)) : g.FollowsFromStart s t := by
  obtain ⟨before, after, hreach⟩ := hleft
  have hinside : g.Derives [g.start] (before ++ ((α ++ s :: t :: β) ++ after)) :=
    hreach.trans (h.between before after)
  have hend := hinside.append (Derives.refl (α := [g.finish]))
  exact ⟨before ++ α, β ++ after ++ [g.finish], by simpa using hend⟩

/-- What follows a symbol follows it from the start symbol, or from one that is not reached. -/
theorem Follows.reached_or (h : g.Follows s t) :
    g.FollowsFromStart s t ∨ g.FollowsUnreached s t := by
  rcases h with ⟨rfl, α, hα⟩ | ⟨-, -, left, hleft, α, β, hαβ⟩
  · have hend := hα.append (Derives.refl (α := [g.finish]))
    exact Or.inl ⟨α, [], by simpa using hend⟩
  · by_cases hreach : g.Reachable left
    · exact Or.inl (.of_reachable hreach hαβ)
    · exact Or.inr ⟨left, hleft, hreach, α, β, hαβ⟩

/-- **FOLLOW takes in what is not reached.** -/
theorem mem_followOf_iff_reached (hg : g.WellFormed) (hs : g.isNonterminal s = true)
    (ht : g.isTerminal t = true) :
    t ∈ g.lookahead.followOf s ↔ g.FollowsFromStart s t ∨ g.FollowsUnreached s t := by
  constructor
  · intro hmem
    exact (follows_of_mem_followOf hg hmem).reached_or
  · rintro (⟨α, β, h⟩ | ⟨left, -, -, α, β, h⟩)
    · exact ((Followed.start_finish hg).of_derives h).mem_followOf hs (mem_firstOf_cons ht β)
    · exact ((Followed.singleton left).of_derives h).mem_followOf hs (mem_firstOf_cons ht β)

/-! ## Strings that rewriting does not leave -/

/-- The strings that one step of rewriting makes of a string. -/
def rewrites (g : Grammar) : List Nat → List (List Nat)
  | [] => []
  | s :: σ => (g.alternatives s).map (· ++ σ) ++ (g.rewrites σ).map (s :: ·)

theorem mem_rewrites {δ : List Nat} (halt : δ ∈ g.alternatives s) (before after : List Nat) :
    before ++ (δ ++ after) ∈ g.rewrites (before ++ s :: after) := by
  induction before with
  | nil => exact List.mem_append_left _ (List.mem_map_of_mem halt)
  | cons first before ih => exact List.mem_append_right _ (List.mem_map_of_mem ih)

/-- A derivation does not leave strings that no step leaves. -/
theorem Derives.mem_of_closed {forms : List (List Nat)} (h : g.Derives α β) (hα : α ∈ forms)
    (hclosed : ∀ σ ∈ forms, ∀ τ ∈ g.rewrites σ, τ ∈ forms) : β ∈ forms := by
  induction h with
  | refl => exact hα
  | step _ halt ih => exact hclosed _ ih _ (mem_rewrites halt _ _)

end Grammar

namespace Parser

/-- **FOLLOW takes in what is not reached.** A terminal is in the FOLLOW set of a nonterminal if and
only if it comes right after it in a string derived from the start symbol with the end mark behind
it, or in one derived from a nonterminal that is not reached from the start symbol; and the
terminals of a FIRST/FOLLOW conflict are such terminals. If every nonterminal is reached, then both
are about the start symbol alone. -/
theorem follow_reached {rules : List Rule} {start : Option String} {config : Config} {p : Parser}
    (hp : Parser.build rules start config = .ok p) :
    (∀ s t, p.grammar.isNonterminal s = true → p.grammar.isTerminal t = true →
      (t ∈ p.lookahead.followOf s ↔
        p.grammar.FollowsFromStart s t ∨ p.grammar.FollowsUnreached s t)) ∧
    (∀ c ∈ p.conflicts, c.kind = .firstFollow → ∀ t ∈ c.terminals,
      p.grammar.FollowsFromStart c.left t ∨ p.grammar.FollowsUnreached c.left t) ∧
    ((∀ left, p.grammar.isNonterminal left = true → p.grammar.Reachable left) →
      (∀ s t, p.grammar.isNonterminal s = true → p.grammar.isTerminal t = true →
        (t ∈ p.lookahead.followOf s ↔ p.grammar.FollowsFromStart s t)) ∧
      ∀ c ∈ p.conflicts, c.kind = .firstFollow → ∀ t ∈ c.terminals,
        p.grammar.FollowsFromStart c.left t) := by
  obtain ⟨g, hg, rfl⟩ := exists_of_build hp
  have hfollow : ∀ s t, g.isNonterminal s = true → g.isTerminal t = true →
      (t ∈ g.lookahead.followOf s ↔ g.FollowsFromStart s t ∨ g.FollowsUnreached s t) :=
    fun s t => Grammar.mem_followOf_iff_reached hg
  have hconflict : ∀ c ∈ (generate g).conflicts, c.kind = .firstFollow → ∀ t ∈ c.terminals,
      g.FollowsFromStart c.left t ∨ g.FollowsUnreached c.left t := by
    intro c hc hkind t ht
    obtain ⟨α, β, -, -, -, hcontested⟩ := Grammar.contested_of_mem_conflicts hg hc
    have hcell := hcontested t ht
    rw [hkind] at hcell
    exact (Grammar.follows_of_mem_followOf hg hcell.of_firstFollow.2).reached_or
  refine ⟨hfollow, hconflict, fun hreach => ?_⟩
  have hnone : ∀ s t, ¬ g.FollowsUnreached s t := by
    rintro s t ⟨left, hleft, hunreached, -⟩
    exact hunreached (hreach left hleft)
  constructor
  · intro s t hs ht
    exact (hfollow s t hs ht).trans (or_iff_left (hnone s t))
  · intro c hc hkind t ht
    exact (hconflict c hc hkind t ht).resolve_right (hnone c.left t)

/-- Rules of which the last is not reached, but has a nonterminal in common with the first. -/
def leakingRules : List Rule :=
  [⟨"S", [["A", "a"]], []⟩, ⟨"A", [["b"], ["_"]], []⟩, ⟨"U", [["A", "b"]], []⟩]

/-- The grammar of these rules. -/
def leakingGrammar : Grammar :=
  ⟨⟨#[.nonterminal "S" [[1, 3]], .nonterminal "A" [[4], []], .nonterminal "U" [[1, 4]],
    .terminal "a", .terminal "b", .terminal "$"]⟩, 0, 5⟩

/-- The first two of these rules. -/
def leakproofGrammar : Grammar :=
  ⟨⟨#[.nonterminal "S" [[1, 2]], .nonterminal "A" [[3], []], .terminal "a", .terminal "b",
    .terminal "$"]⟩, 0, 4⟩

theorem follow_reached_leaking :
    build leakingRules none {} = .ok (generate leakingGrammar) ∧
      (leakingGrammar.FollowsFromStart 1 3 ∨ leakingGrammar.FollowsUnreached 1 3) ∧
      ¬ (leakingGrammar.FollowsFromStart 0 4 ∨ leakingGrammar.FollowsUnreached 0 4) ∧
      build (leakingRules.take 2) none {} = .ok (generate leakproofGrammar) ∧
      (∀ left, leakproofGrammar.isNonterminal left = true → leakproofGrammar.Reachable left) ∧
      leakproofGrammar.FollowsFromStart 1 2 := by
  have hp : build leakingRules none {} = .ok (generate leakingGrammar) :=
    build_eq_ok (by decide +kernel)
  have hp' : build (leakingRules.take 2) none {} = .ok (generate leakproofGrammar) :=
    build_eq_ok (by decide +kernel)
  obtain ⟨hfollow, -, -⟩ := follow_reached hp
  obtain ⟨-, -, hall⟩ := follow_reached hp'
  have hreach : ∀ left, leakproofGrammar.isNonterminal left = true →
      leakproofGrammar.Reachable left := by
    intro left hleft
    have hmem := Catalog.mem_nonterminals.mpr hleft
    change left ∈ [0, 1] at hmem
    rcases List.mem_pair.mp hmem with rfl | rfl
    · exact ⟨[], [], .refl⟩
    · exact ⟨[], [2], .single (by decide)⟩
  refine ⟨hp, (hfollow 1 3 (by decide) (by decide)).mp (by decide), fun h => ?_, hp', hreach, ?_⟩
  · have hmem := (hfollow 0 4 (by decide) (by decide)).mpr h
    revert hmem
    decide
  · exact ((hall hreach).1 1 2 (by decide) (by decide)).mp (by decide)

/-- The strings that the start symbol of these rules derives, with the end mark behind it. -/
def leakingForms : List (List Nat) :=
  [[0, 5], [1, 3, 5], [4, 3, 5], [3, 5]]

theorem mem_leakingForms {γ : List Nat} (h : leakingGrammar.Derives [0, 5] γ) :
    γ ∈ leakingForms :=
  h.mem_of_closed (by decide) (by decide)

/-- **A rule that is not reached can cause a conflict.** The terminal `b` is in the FOLLOW set of
`A` and clashes with its FIRST set there, though in no derivation from the start symbol it comes
after `A`. Without the rule there is no conflict. -/
theorem follow_exceeds_start :
    build leakingRules none {} = .ok (generate leakingGrammar) ∧
      4 ∈ (generate leakingGrammar).lookahead.followOf 1 ∧
      ¬ leakingGrammar.FollowsFromStart 1 4 ∧
      leakingGrammar.Reachable 1 ∧ ¬ leakingGrammar.Reachable 2 ∧
      (∃ c ∈ (generate leakingGrammar).conflicts, c.kind = .firstFollow ∧ c.left = 1) ∧
      build (leakingRules.take 2) none {} = .ok (generate leakproofGrammar) ∧
      (generate leakproofGrammar).conflicts = [] := by
  have hreached : leakingGrammar.Reachable 1 :=
    ⟨[], [3], .single (by decide)⟩
  have hforms : ∀ σ ∈ leakingForms, ¬ [1, 4] <:+: σ := by decide
  have hsymbols : ∀ σ ∈ leakingForms, 2 ∉ σ := by decide
  refine ⟨build_eq_ok (by decide +kernel), by decide, ?_, hreached, ?_, by decide,
    build_eq_ok (by decide +kernel), by decide⟩
  · rintro ⟨α, β, h⟩
    refine hforms _ (mem_leakingForms h) ⟨α, β, ?_⟩
    simp
  · rintro ⟨α, β, h⟩
    have hend := h.append (Grammar.Derives.refl (α := [leakingGrammar.finish]))
    exact hsymbols _ (mem_leakingForms hend) (by simp)

end Parser

end TopDown
