import TopDown.Proofs.Grammar.Front
import TopDown.Proofs.Table.Conflicts

/-!
# Left recursion is in conflict

A left-recursive symbol that can start with a terminal is never overlooked: the alternatives of
some symbol are in conflict, that of the symbol itself or of another one on the way from it to
itself. Nothing in the table looks for left recursion, so this has to come out of the sets alone.

If there are no conflicts, then a terminal that is to come to the front of a string decides about
every symbol that is rewritten before that (`Grammar.SelectorsDisjoint.eq_of_selects`). There is
one way only, and it ends. But the way from a left-recursive symbol back to itself is selected by
the terminal too, and so it is this one way, which goes round and never ends.

## Main results

* `Grammar.not_leads_of_leftRecursive`: the way to a terminal does not pass such a symbol
* `Parser.conflicts_of_leftRecursive`: the conflicts of the parser of a list of rules
-/

namespace TopDown

namespace Grammar

variable {g : Grammar} {left s t : Nat} {α β γ σ before after : List Nat}

/-- Where no terminal selects two alternatives, there is one alternative to go on with. -/
theorem SelectorsDisjoint.eq_of_selects (hdisjoint : g.SelectorsDisjoint g.lookahead)
    (hfollowed : g.Followed (left :: γ)) (hα : α ∈ g.alternatives left)
    (hβ : β ∈ g.alternatives left) (htα : t ∈ (g.lookahead.firstOf (α ++ γ)).terminals)
    (htβ : t ∈ (g.lookahead.firstOf (β ++ γ)).terminals) : α = β := by
  have hselects := And.intro (hfollowed.mem_selectors hα htα) (hfollowed.mem_selectors hβ htβ)
  obtain ⟨i, hi⟩ := List.mem_iff_getElem?.mp hα
  obtain ⟨j, hj⟩ := List.mem_iff_getElem?.mp hβ
  by_cases hij : i = j
  · subst hij
    exact Option.some.inj (hi.symm.trans hj)
  · exact absurd hselects (hdisjoint left i j α β hij hi hj t)

/-- What can start a symbol can start whatever derives a string with the symbol in front. -/
theorem mem_firstOf_of_leads (ht : t ∈ (g.lookahead.firstOf [s]).terminals) (h : g.Leads α s)
    (γ : List Nat) : t ∈ (g.lookahead.firstOf (α ++ γ)).terminals := by
  obtain ⟨hterminal, δ, hδ⟩ := mem_firstOf_iff.mp ht
  obtain ⟨β, hβ⟩ := h.exists_derives
  have hfront : g.Derives (s :: β) ((t :: δ) ++ β) := hδ.append (.refl (α := β))
  have hstring := (hβ.trans hfront).append (.refl (α := γ))
  exact mem_firstOf_iff.mpr ⟨hterminal, _, hstring⟩

/-- **The way to a terminal does not pass a left-recursive symbol** that can start with it, in a
table without conflicts. -/
theorem not_leads_of_leftRecursive (hdisjoint : g.SelectorsDisjoint g.lookahead)
    (hs : g.LeftRecursive s) (ht : t ∈ (g.lookahead.firstOf [s]).terminals) (h : g.Leads σ t)
    (hfollowed : g.Followed σ) (hσ : σ = before ++ after) : ¬ g.Leads before s := by
  intro hbefore
  -- Induction on the way to the terminal; the symbol is ahead on it all the time.
  induction h generalizing before after with
  | here t τ =>
    have hterminal : g.isTerminal t = true := (mem_firstOf_iff.mp ht).1
    have hnone : ∀ α, α ∉ g.alternatives t := by
      intro α hα
      have hkind := Catalog.isTerminal_eq_false (Catalog.isNonterminal_of_mem hα)
      rw [hterminal] at hkind
      cases hkind
    cases hbefore with
    | here _ _ =>
      obtain ⟨rfl, -⟩ := List.cons.inj hσ
      obtain ⟨α, hα, -⟩ := hs
      exact hnone α hα
    | expand hα _ =>
      obtain ⟨rfl, -⟩ := List.cons.inj hσ
      exact hnone _ hα
  | @expand left t α τ hα h ih =>
    have hfirst : t ∈ (g.lookahead.firstOf (α ++ τ)).terminals := by
      obtain ⟨β, hβ⟩ := h.exists_derives
      exact mem_firstOf_iff.mpr ⟨(mem_firstOf_iff.mp ht).1, β, hβ⟩
    have hbelow : g.Followed (α ++ τ) :=
      hfollowed.replace_head (Catalog.isNonterminal_of_mem hα) [] hα
    cases hbefore with
    | here _ rest =>
      obtain ⟨rfl, rfl⟩ := List.cons.inj hσ
      obtain ⟨α', hα', β, hβ⟩ := hs
      have hround : g.Leads α' left := leads_of_derives hβ
      have hfirst' := mem_firstOf_of_leads ht hround (rest ++ after)
      obtain rfl := hdisjoint.eq_of_selects hfollowed hα hα' hfirst hfirst'
      exact ih ht hbelow rfl hround
    | @expand _ _ α' rest hα' hrest =>
      obtain ⟨rfl, rfl⟩ := List.cons.inj hσ
      have hfirst' := mem_firstOf_of_leads ht hrest after
      rw [List.append_assoc] at hfirst'
      obtain rfl := hdisjoint.eq_of_selects hfollowed hα hα' hfirst hfirst'
      exact ih ht hbelow (List.append_assoc α rest after).symm hrest

/-- In a table without conflicts left-recursive symbols start with nothing. -/
theorem not_leftRecursive_of_mem_firstOf (hdisjoint : g.SelectorsDisjoint g.lookahead)
    (ht : t ∈ (g.lookahead.firstOf [s]).terminals) : ¬ g.LeftRecursive s := by
  intro hs
  obtain ⟨-, γ, hγ⟩ := mem_firstOf_iff.mp ht
  exact not_leads_of_leftRecursive hdisjoint hs ht (leads_of_derives hγ) (.singleton s)
    (List.append_nil [s]).symm (.here s [])

end Grammar

namespace Parser

/-- **Left recursion that can matter is in conflict.** If a symbol derives a string that it stands
in front of, in one or more steps, and its FIRST set has a member, then the grammar is not LL(1),
and a conflict is reported. -/
theorem conflicts_of_leftRecursive {rules : List Rule} {start : Option String} {config : Config}
    {p : Parser} (hp : Parser.build rules start config = .ok p) {left : Nat}
    (hleft : p.grammar.LeftRecursive left)
    (hfirst : ∃ t, t ∈ (First.ofSymbol p.lookahead.first left).terminals) :
    p.table.isLL1 = false ∧ p.conflicts ≠ [] := by
  obtain ⟨g, hg, rfl⟩ := exists_of_build hp
  obtain ⟨t, ht⟩ := hfirst
  have hcontested : ¬ g.SelectorsDisjoint g.lookahead := by
    intro hdisjoint
    refine Grammar.not_leftRecursive_of_mem_firstOf (t := t) hdisjoint ?_ hleft
    rw [Grammar.firstOf_singleton]
    exact ht
  constructor
  · have hverdict := mt (Grammar.isLL1_iff_selectorsDisjoint hg).mp hcontested
    exact Bool.not_eq_true _ ▸ hverdict
  · exact mt (Grammar.conflicts_eq_nil_iff hg).mp hcontested

/-- Rules of a symbol that comes back in front of itself behind another one that vanishes. The
symbol has one alternative only, so that the conflict is about the other one. -/
def vanishingPrefixRules : List Rule :=
  [⟨"S", [["X", "S"]], []⟩, ⟨"X", [["a"], ["_"]], []⟩]

/-- The grammar of these rules. -/
def vanishingPrefixGrammar : Grammar :=
  ⟨⟨#[.nonterminal "S" [[1, 0]], .nonterminal "X" [[2], []], .terminal "a", .terminal "$"]⟩, 0, 3⟩

theorem conflicts_of_leftRecursive_vanishing :
    build vanishingPrefixRules none {} = .ok (generate vanishingPrefixGrammar) ∧
      vanishingPrefixGrammar.LeftRecursive 0 ∧
      2 ∈ (First.ofSymbol (generate vanishingPrefixGrammar).lookahead.first 0).terminals ∧
      (generate vanishingPrefixGrammar).table.isLL1 = false ∧
      (generate vanishingPrefixGrammar).conflicts ≠ [] := by
  have hp : build vanishingPrefixRules none {} = .ok (generate vanishingPrefixGrammar) :=
    build_eq_ok (by decide +kernel)
  have hround : vanishingPrefixGrammar.Derives [1, 0] [0] :=
    .step (β := []) (γ := [0]) (δ := []) .refl (by decide)
  have hleft : vanishingPrefixGrammar.LeftRecursive 0 := ⟨[1, 0], by decide, [], hround⟩
  have hfirst :
      2 ∈ (First.ofSymbol (generate vanishingPrefixGrammar).lookahead.first 0).terminals := by
    decide
  exact ⟨hp, hleft, hfirst, conflicts_of_leftRecursive hp hleft ⟨2, hfirst⟩⟩

end Parser

end TopDown
