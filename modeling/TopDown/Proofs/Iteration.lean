import Mathlib.Data.Finset.Card
import Mathlib.Order.Monotone.Basic
import TopDown.Iteration

/-!
# How soon an iteration ends

The passes over a grammar make sets of nonterminals larger until a pass adds nothing to them. When
the next stage of such a set depends on the present stage alone, it stays as it is from then on; so
it has settled after as many passes as there are nonterminals (`settled_of_card_le`). An iteration
whose stages repeat at some point ends there at the latest (`passes_stabilize_le`).

A program does not compare what it has after a pass with what it had before. Each change that it
makes reports whether it has changed something, a pass collects the reports, and a loop calls the
pass again as long as there is one. If changes only add to what is there, then none of them takes
back what another one has done, and a pass reports a change exactly if there is one in the end
(`IsReported.inTurn`). Such a loop is the iteration (`loopRuns_stabilize`).

## Main definitions

* `inTurn`: changes made one after the other, with their report
* `IsReported`: a change that adds something or nothing, as it reports
* `calls`, `LoopRuns`: the calls of a pass, and the loop that they make up
-/

namespace TopDown

/-- Sets that grow within a finite set, and stay as they are after the first stage that adds
nothing, have settled after as many stages as that set has members. -/
theorem settled_of_card_le {S : Nat → Finset Nat} {U : Finset Nat} {bound stage : Nat}
    (hU : ∀ k, S k ⊆ U) (hgrow : ∀ k, S k ⊆ S (k + 1))
    (hstay : ∀ k, S k = S (k + 1) → S (k + 1) = S (k + 2))
    (hbound : U.card ≤ bound) (hstage : bound ≤ stage) : S stage = S bound := by
  have hmono : Monotone S := monotone_nat_of_le_succ hgrow
  have hcard : (S stage).card = (S bound).card := by
    refine Nat.stabilises_of_monotone (f := fun k => (S k).card)
      (fun i j hij => Finset.card_le_card (hmono hij))
      (fun k => (Finset.card_le_card (hU k)).trans hbound) (fun k hk => ?_) hstage
    exact congrArg Finset.card (hstay k (Finset.eq_of_subset_of_card_le (hgrow k) hk.ge))
  exact (Finset.eq_of_subset_of_card_le (hmono hstage) hcard.le).symm

section

variable {α : Type} [DecidableEq α] {step : α → α}

/-- An iteration ends with the first stage that repeats, if not before. -/
theorem passes_stabilizeAfter_le {a : α} {k passes bound : Nat}
    (h : step (step^[k] a) = step^[k] a) :
    (stabilizeAfter step passes bound a).passes ≤ passes + (k + 1) := by
  induction bound generalizing a k passes with
  | zero => simp [stabilizeAfter]
  | succ bound ih =>
    rw [stabilizeAfter]
    split
    · dsimp only
      omega
    · next hne =>
      cases k with
      | zero => exact absurd h hne
      | succ k =>
        have h' : step (step^[k] (step a)) = step^[k] (step a) := by simpa using h
        exact (ih h').trans (by omega)

theorem passes_stabilize_le {a : α} {k bound : Nat} (h : step (step^[k] a) = step^[k] a) :
    (stabilize step bound a).passes ≤ k + 1 := by
  have hle : (stabilizeAfter step 0 bound a).passes ≤ 0 + (k + 1) := passes_stabilizeAfter_le h
  rwa [Nat.zero_add] at hle

/-- An iteration whose stages repeat within its bound ends with a fixed point. -/
theorem step_stabilize_of_iterate {a : α} {k bound : Nat} (h : step (step^[k] a) = step^[k] a)
    (hk : k + 1 < bound) :
    step (stabilize step bound a).value = (stabilize step bound a).value :=
  step_stabilize step (Nat.lt_of_le_of_lt (passes_stabilize_le h) hk)

end

/-! ## Changes that are reported -/

section Reports

variable {β γ : Type} {change : γ → β → β × Bool} {cs : List γ} {b : β}

/-- Changes made one after the other, with the report whether there was one among them that changed
something. -/
def inTurn (change : γ → β → β × Bool) : List γ → β → β × Bool
  | [], b => (b, false)
  | c :: cs, b =>
    let first := change c b
    let rest := inTurn change cs first.1
    (rest.1, first.2 || rest.2)

theorem inTurn_fst (change : γ → β → β × Bool) (cs : List γ) (b : β) :
    (inTurn change cs b).1 = cs.foldl (fun b c => (change c b).1) b := by
  induction cs generalizing b with
  | nil => rfl
  | cons c cs ih => exact ih (change c b).1

/-- The result of a change, with its report: the change keeps a property of the value and takes
nothing away from it, and it is reported exactly if it adds something. -/
structure IsReported [PartialOrder β] (P : β → Prop) (b : β) (result : β × Bool) : Prop where
  keeps : P result.1
  le : b ≤ result.1
  report_iff : result.2 = true ↔ result.1 ≠ b

/-- **Changes are reported together** if each of them is reported. -/
theorem IsReported.inTurn [PartialOrder β] {P : β → Prop}
    (h : ∀ c ∈ cs, ∀ b, P b → IsReported P b (change c b)) (hb : P b) :
    IsReported P b (inTurn change cs b) := by
  induction cs generalizing b with
  | nil => exact ⟨hb, le_rfl, by simp [TopDown.inTurn]⟩
  | cons c cs ih =>
    obtain ⟨hc, hcs⟩ := List.forall_mem_cons.mp h
    have hfirst := hc b hb
    have hrest := ih hcs hfirst.keeps
    refine ⟨hrest.keeps, hfirst.le.trans hrest.le, ?_⟩
    change ((change c b).2 || (TopDown.inTurn change cs (change c b).1).2) = true ↔ _
    rw [Bool.or_eq_true, hfirst.report_iff, hrest.report_iff]
    change _ ↔ (TopDown.inTurn change cs (change c b).1).1 ≠ b
    constructor
    · rintro hchange heq
      have hback : (change c b).1 ≤ b := hrest.le.trans_eq heq
      have hsame : (change c b).1 = b := le_antisymm hback hfirst.le
      exact hchange.elim (absurd hsame) (absurd (heq.trans hsame.symm))
    · intro hchange
      by_contra hnone
      obtain ⟨hsame, hsame'⟩ := not_or.mp hnone
      exact hchange ((not_not.mp hsame').trans (not_not.mp hsame))

end Reports

/-! ## Loops -/

section Loops

variable {α β : Type} [DecidableEq α] {f : α → α} {step : β → β × Bool} {P : α → Prop} {a : α}

/-- What a number of calls of a pass make of a value, whatever they report. -/
def calls (step : β → β × Bool) (k : Nat) (b : β) : β :=
  (fun b => (step b).1)^[k] b

theorem calls_succ (step : β → β × Bool) (k : Nat) (b : β) :
    calls step (k + 1) b = (step (calls step k b)).1 :=
  Function.iterate_succ_apply' _ _ _

/-- A loop that calls a pass as long as it reports a change: the value before it, the number of its
calls, and the value after it. The last call is the one that reports no change. -/
inductive LoopRuns (step : β → β × Bool) : β → Nat → β → Prop where
  | last {b : β} (h : (step b).2 = false) : LoopRuns step b 1 (step b).1
  | more {b c : β} {n : Nat} (h : (step b).2 = true) (hs : LoopRuns step (step b).1 n c) :
      LoopRuns step b (n + 1) c

/-- A pass carries out a step, as seen through a view of its values, and reports whether the step
changes something. -/
def CarriesOut (step : β → β × Bool) (view : α → β) (f : α → α) (a : α) : Prop :=
  step (view a) = (view (f a), decide (f a ≠ a))

variable (view : α → β)

/-- Calls of a pass carry out the stages of an iteration. -/
theorem calls_view (hP : ∀ a, P a → P (f a)) (hstep : ∀ a, P a → CarriesOut step view f a)
    (ha : P a) (k : Nat) : calls step k (view a) = view (f^[k] a) ∧ P (f^[k] a) := by
  induction k with
  | zero => exact ⟨rfl, ha⟩
  | succ k ih =>
    obtain ⟨hcalls, hk⟩ := ih
    rw [calls_succ, Function.iterate_succ_apply', hcalls, hstep _ hk]
    exact ⟨rfl, hP _ hk⟩

theorem loopRuns_stabilizeAfter (hP : ∀ a, P a → P (f a))
    (hstep : ∀ a, P a → CarriesOut step view f a) (ha : P a) {passes bound : Nat}
    (h : (stabilizeAfter f passes bound a).passes < passes + bound) :
    ∃ n, (stabilizeAfter f passes bound a).passes = passes + n ∧
      LoopRuns step (view a) n (view (stabilizeAfter f passes bound a).value) := by
  induction bound generalizing a passes with
  | zero => exact absurd h (Nat.lt_irrefl _)
  | succ bound ih =>
    have hview : step (view a) = (view (f a), decide (f a ≠ a)) := hstep a ha
    rw [stabilizeAfter] at h ⊢
    by_cases hfixed : f a = a
    · have hreport : (step (view a)).2 = false := by simp [hview, hfixed]
      have hlast := LoopRuns.last hreport
      rw [hview, hfixed] at hlast
      rw [if_pos hfixed]
      exact ⟨1, rfl, hlast⟩
    · rw [if_neg hfixed] at h ⊢
      have hlt : (stabilizeAfter f (passes + 1) bound (f a)).passes < passes + 1 + bound := by
        omega
      obtain ⟨n, hpasses, hloop⟩ := ih (hP a ha) hlt
      refine ⟨n + 1, by omega, .more (by simp [hview, hfixed]) ?_⟩
      rw [hview]
      exact hloop

/-- **The loop is the iteration**: it has as many calls as the iteration has passes, and ends with
the same value. -/
theorem loopRuns_stabilize (hP : ∀ a, P a → P (f a))
    (hstep : ∀ a, P a → CarriesOut step view f a) (ha : P a) {bound : Nat}
    (h : (stabilize f bound a).passes < bound) :
    LoopRuns step (view a) (stabilize f bound a).passes (view (stabilize f bound a).value) := by
  have hlt : (stabilizeAfter f 0 bound a).passes < 0 + bound := by rwa [Nat.zero_add]
  obtain ⟨n, hpasses, hloop⟩ := loopRuns_stabilizeAfter view hP hstep ha hlt
  rw [Nat.zero_add] at hpasses
  rw [stabilize, hpasses]
  exact hloop

end Loops

end TopDown
