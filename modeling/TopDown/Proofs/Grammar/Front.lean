import Mathlib.Data.Finset.Card
import Mathlib.Logic.Relation
import TopDown.Proofs.First.Exact

/-!
# The front of what is derived

Rewriting from the left alone is enough to bring a symbol to the front: what stands behind the
front need not be touched (`Grammar.Leads`). A parser works in this way, and so its steps can be
followed along `Leads`, where they could not be followed along a derivation in any order.

A symbol of an alternative comes to the front once the symbols before it are gone. Which symbols
can go without leaving a trace is a parameter (`Grammar.Exposed`): if these are the symbols that
derive the empty string, then a nonterminal that exposes itself again is left-recursive; a parser
that gives up nonterminals also exposes what it finds behind them. If no symbol exposes itself
again, then the symbols can be ranked, because there are finitely many.

## Main definitions

* `Grammar.Leads`: a symbol comes to the front by rewriting from the left
* `Grammar.Exposed`: a symbol of an alternative behind others that can go
* `Grammar.Recurrent`: the symbols that come back in front if nonterminals are left out

## Main results

* `Grammar.Derives.cases_cons`: the first symbol stays, or is rewritten first
* `Grammar.leads_of_derives`: what comes to the front comes there from the left
* `Grammar.wellFounded_exposed`: if no symbol exposes itself again, the symbols can be ranked
* `Grammar.leftRecursive_iff`: left recursion is a cycle of exposed symbols
* `Grammar.not_leftRecursive_of_rank`, `Grammar.not_recurrent_of_rank`: a ranking shows that no
  symbol is left-recursive, or comes back in front
-/

namespace TopDown

open First (visible)

namespace Grammar

variable {g : Grammar} {α β γ δ : List Nat} {s left : Nat}

/-! ## Rewriting from the left -/

/-- Either the first symbol of a string stays there, or it can be rewritten before all others. -/
theorem Derives.cases_cons (h : g.Derives (left :: γ) δ) :
    (∃ γ', δ = left :: γ' ∧ g.Derives γ γ') ∨
      ∃ α ∈ g.alternatives left, g.Derives (α ++ γ) δ := by
  induction h with
  | refl => exact Or.inl ⟨γ, rfl, .refl⟩
  | @step before after δ symbol _ halt ih =>
    rcases ih with ⟨γ', heq, hγ'⟩ | ⟨α, hα, h⟩
    · cases before with
      | nil =>
        obtain ⟨rfl, rfl⟩ := List.cons.inj heq
        have hbehind : g.Derives (δ ++ γ) (δ ++ after) := Derives.refl.append hγ'
        exact Or.inr ⟨δ, halt, hbehind⟩
      | cons first before =>
        obtain ⟨rfl, rfl⟩ := List.cons.inj heq
        exact Or.inl ⟨before ++ (δ ++ after), rfl, hγ'.step halt⟩
    · exact Or.inr ⟨α, hα, h.step halt⟩

/-- A symbol comes to the front of a string if it is there, or if it does so after the first symbol
has been replaced by one of its alternatives. -/
inductive Leads (g : Grammar) : List Nat → Nat → Prop where
  | here (s : Nat) (γ : List Nat) : Leads g (s :: γ) s
  | expand {left s : Nat} {α γ : List Nat} (halt : α ∈ g.alternatives left)
      (h : Leads g (α ++ γ) s) : Leads g (left :: γ) s

namespace Leads

/-- What comes to the front after a symbol has been rewritten, wherever it stands, does so
before. -/
theorem of_replace {symbol : Nat} (halt : δ ∈ g.alternatives symbol) (before : List Nat)
    (h : g.Leads (before ++ (δ ++ γ)) s) : g.Leads (before ++ symbol :: γ) s := by
  generalize hσ : before ++ (δ ++ γ) = σ at h
  -- Induction on the way to the front, whatever part of it is before the symbol.
  induction h generalizing before with
  | here s τ =>
    cases before with
    | nil =>
      rw [List.nil_append] at hσ ⊢
      exact .expand halt (hσ ▸ .here s τ)
    | cons first before =>
      obtain ⟨rfl, -⟩ := List.cons.inj hσ
      exact .here first _
  | @expand left s α τ hα h ih =>
    cases before with
    | nil =>
      rw [List.nil_append] at hσ ⊢
      exact .expand halt (hσ ▸ .expand hα h)
    | cons first before =>
      obtain ⟨rfl, rfl⟩ := List.cons.inj hσ
      have hbehind := ih (α ++ before) (by simp)
      rw [List.append_assoc] at hbehind
      exact .expand hα hbehind

/-- Rewriting from the left is a derivation. -/
theorem exists_derives (h : g.Leads α s) : ∃ β, g.Derives α (s :: β) := by
  induction h with
  | here s γ => exact ⟨γ, .refl⟩
  | @expand left s α γ halt _ ih =>
    obtain ⟨β, hβ⟩ := ih
    have hleft : g.Derives (left :: γ) (α ++ γ) := (Derives.single halt).append .refl
    exact ⟨β, hleft.trans hβ⟩

end Leads

/-- **What comes to the front comes there from the left.** -/
theorem leads_of_derives (h : g.Derives α (s :: β)) : g.Leads α s := by
  suffices hback : ∀ δ, g.Derives α δ → g.Leads δ s → g.Leads α s from
    hback _ h (.here s β)
  intro δ hδ
  induction hδ with
  | refl => exact id
  | step _ halt ih =>
    intro hlast
    apply ih
    exact hlast.of_replace halt _

/-! ## Symbols behind others that can go -/

/-- A symbol of an alternative of a left side, all symbols before which can go. -/
def Exposed (g : Grammar) (erasable : Nat → Prop) (s left : Nat) : Prop :=
  ∃ before after, before ++ s :: after ∈ g.alternatives left ∧ ∀ b ∈ before, erasable b

/-- A symbol that comes back in front of itself if nonterminals before it are left out. -/
def Recurrent (g : Grammar) (s : Nat) : Prop :=
  Relation.TransGen (g.Exposed (g.isNonterminal · = true)) s s

open Classical in
/-- **If no symbol exposes itself again, the symbols can be ranked.** -/
theorem wellFounded_exposed (hg : g.WellFormed) {erasable : Nat → Prop}
    (h : ∀ s, ¬ Relation.TransGen (g.Exposed erasable) s s) :
    WellFounded (g.Exposed erasable) := by
  -- The rank of a symbol is the number of symbols that it exposes, at once or later.
  let below (left : Nat) : Finset Nat :=
    (Finset.range g.size).filter (Relation.TransGen (g.Exposed erasable) · left)
  have hrank : ∀ s left, g.Exposed erasable s left →
      (below s).card < (below left).card := by
    intro s left hexposed
    obtain ⟨before, after, halt, -⟩ := id hexposed
    have hlt : s < g.size := Nat.lt_trans (hg.closed halt s (by simp)) hg.finish_lt
    apply Finset.card_lt_card
    refine Finset.ssubset_iff_of_subset ?_ |>.mpr ⟨s, ?_, ?_⟩
    · intro b hb
      obtain ⟨hsize, hchain⟩ := Finset.mem_filter.mp hb
      exact Finset.mem_filter.mpr ⟨hsize, hchain.tail hexposed⟩
    · exact Finset.mem_filter.mpr ⟨Finset.mem_range.mpr hlt, .single hexposed⟩
    · intro hs
      exact h s (Finset.mem_filter.mp hs).2
  exact Subrelation.wf (hrank _ _) (measure fun s => (below s).card).wf

/-! ## Left recursion -/

/-- A string vanishes if and only if each of its symbols does. -/
theorem derives_nil_iff : g.Derives α [] ↔ ∀ b ∈ α, g.Derives [b] [] := by
  induction α with
  | nil => simp [Derives.refl]
  | cons b α ih =>
    rw [List.forall_mem_cons, ← ih]
    constructor
    · intro h
      obtain ⟨γ₁, γ₂, heq, hb, hα⟩ := Derives.exists_append (α := [b]) h
      obtain ⟨rfl, rfl⟩ := List.nil_eq_append_iff.mp heq
      exact ⟨hb, hα⟩
    · rintro ⟨hb, hα⟩
      exact hb.append hα

/-- A symbol that is exposed behind symbols that vanish comes to the front. -/
theorem Exposed.exists_derives (h : g.Exposed (fun b => g.Derives [b] []) s left) :
    ∃ α ∈ g.alternatives left, ∃ β, g.Derives α (s :: β) := by
  obtain ⟨before, after, halt, hbefore⟩ := h
  exact ⟨_, halt, after, (derives_nil_iff.mpr hbefore).append .refl⟩

/-- What comes to the front is a symbol of the string behind others that vanish, or it is exposed
in the end by such a symbol. -/
theorem Leads.exists_exposed (h : g.Leads α s) : ∃ before b after, α = before ++ b :: after ∧
    g.Derives before [] ∧ Relation.ReflTransGen (g.Exposed fun b => g.Derives [b] []) s b := by
  induction h with
  | here s γ => exact ⟨[], s, γ, rfl, .refl, .refl⟩
  | @expand left s α γ halt _ ih =>
    obtain ⟨before, b, after, heq, hbefore, hchain⟩ := ih
    rcases List.append_eq_append_iff.mp heq with ⟨mid, rfl, rfl⟩ | ⟨mid, rfl, hmid⟩
    · obtain ⟨γ₁, γ₂, hnil, hα, hrest⟩ := hbefore.exists_append
      obtain ⟨rfl, rfl⟩ := List.nil_eq_append_iff.mp hnil
      have hleft : g.Derives (left :: mid) [] := ((Derives.single halt).trans hα).append hrest
      exact ⟨left :: mid, b, after, rfl, hleft, hchain⟩
    · cases mid with
      | nil =>
        have hleft := (Derives.single halt).trans (by simpa using hbefore)
        exact ⟨[left], b, after, by simpa using hmid.symm, hleft, hchain⟩
      | cons first mid =>
        obtain ⟨rfl, -⟩ := List.cons.inj hmid
        exact ⟨[], left, γ, rfl, .refl, hchain.tail ⟨_, mid, halt, derives_nil_iff.mp hbefore⟩⟩

/-- **Left recursion is a cycle of exposed symbols.** -/
theorem leftRecursive_iff : g.LeftRecursive s ↔
    Relation.TransGen (g.Exposed fun b => g.Derives [b] []) s s := by
  constructor
  · rintro ⟨α, hα, β, h⟩
    obtain ⟨before, b, after, rfl, hbefore, hchain⟩ := (leads_of_derives h).exists_exposed
    exact .tail' hchain ⟨before, after, hα, derives_nil_iff.mp hbefore⟩
  · intro h
    suffices hchain : ∀ left, Relation.TransGen (g.Exposed fun b => g.Derives [b] []) s left →
        ∃ α ∈ g.alternatives left, ∃ β, g.Derives α (s :: β) from hchain s h
    intro left h
    induction h with
    | single h => exact h.exists_derives
    | tail _ h ih =>
      obtain ⟨α, hα, β, hβ⟩ := h.exists_derives
      obtain ⟨α', hα', β', hβ'⟩ := ih
      have hfront : g.Derives (_ :: β) ((s :: β') ++ β) :=
        ((Derives.single hα').trans hβ').append .refl
      exact ⟨α, hα, β' ++ β, hβ.trans hfront⟩

/-- A symbol behind others that vanish can be seen. -/
theorem mem_visible {before after : List Nat} (h : ∀ b ∈ before, g.Derives [b] []) :
    s ∈ visible g.lookahead.first (before ++ s :: after) := by
  induction before with
  | nil => simp [visible]
  | cons b before ih =>
    obtain ⟨hb, hbefore⟩ := List.forall_mem_cons.mp h
    have hnull : (First.ofSymbol g.lookahead.first b).nullable = true := by
      rw [← firstOf_singleton, nullable_firstOf_iff]
      exact hb
    rw [List.cons_append, visible, if_pos hnull]
    exact List.mem_cons_of_mem _ (ih hbefore)

/-- If every symbol has a higher rank than those that it exposes, none exposes itself again. -/
theorem not_exposed_of_rank {erasable : Nat → Prop} (rank : Nat → Nat)
    (h : ∀ b left, g.Exposed erasable b left → rank b < rank left) (s : Nat) :
    ¬ Relation.TransGen (g.Exposed erasable) s s := by
  intro hs
  have hlt : ∀ left, Relation.TransGen (g.Exposed erasable) s left → rank s < rank left := by
    intro left hchain
    induction hchain with
    | single hb => exact h _ _ hb
    | tail _ hb ih => exact Nat.lt_trans ih (h _ _ hb)
  exact Nat.lt_irrefl _ (hlt s hs)

/-- If the symbols that can be seen in the alternatives of a left side have a lower rank than the
left side, then no symbol is left-recursive. -/
theorem not_leftRecursive_of_rank (rank : Nat → Nat)
    (h : ∀ left < g.size, ∀ α ∈ g.alternatives left, ∀ b ∈ visible g.lookahead.first α,
      rank b < rank left) : ∀ s, ¬ g.LeftRecursive s := by
  intro s hs
  refine not_exposed_of_rank rank ?_ s (leftRecursive_iff.mp hs)
  rintro b left ⟨before, after, halt, hbefore⟩
  have hleft := Catalog.lt_size_of_isNonterminal (Catalog.isNonterminal_of_mem halt)
  exact h left hleft _ halt b (mem_visible hbefore)

/-- If the symbols that stand behind nothing but nonterminals in the alternatives of a left side
have a lower rank than the left side, then no symbol comes back in front of itself. -/
theorem not_recurrent_of_rank (rank : Nat → Nat)
    (h : ∀ left < g.size, ∀ α ∈ g.alternatives left, ∀ i : Fin α.length,
      (∀ b ∈ α.take i, g.isNonterminal b = true) → rank α[i] < rank left) :
    ∀ s, ¬ g.Recurrent s := by
  refine not_exposed_of_rank rank ?_
  rintro s left ⟨before, after, halt, hbefore⟩
  have hleft := Catalog.lt_size_of_isNonterminal (Catalog.isNonterminal_of_mem halt)
  have hi : before.length < (before ++ s :: after).length := by simp
  simpa using h left hleft _ halt ⟨before.length, hi⟩ (by simpa using hbefore)

end Grammar

end TopDown
