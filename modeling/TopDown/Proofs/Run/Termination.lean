import TopDown.Proofs.Grammar.Front
import TopDown.Proofs.Run.Completeness
import TopDown.Proofs.Run.Soundness
import TopDown.Proofs.Table.Exact

/-!
# Runs come to an end

The limit on the number of steps is no more than a guard if the grammar is LL(1): with steps enough
every run ends by itself, whatever the tokens are and whether it recovers from errors or not. It is
no more than a guard either if no symbol is left-recursive and the run stops at the first error.
A run that recovers may need the guard then, but only because it gives up nonterminals again and
again: an alternative that is predicted for a token may turn out not to derive it, and giving up a
nonterminal uses up no token.

Whether a run ends depends on the stack and on the tokens that are left, and on nothing else
(`Parser.Turn`). Tokens that are matched or passed over are gone, so that only expansions and
nonterminals that are given up can go on forever. Without left recursion, what is exposed in a
string has a lower rank. In a table without conflicts there may be left recursion, of symbols that
derive nothing; but a cell that predicts an alternative says that the token comes first in what
the stack derives, and the automaton follows the way to it (`Grammar.Leads`).

## Main definitions

* `Situation`, `Parser.Turn`: a step, as far as the stack and the tokens are concerned
* `Parser.Halts`: no infinitely many steps of the allowed kinds
* `Run.OutOfSteps`, `Parser.Ends`: a run that its limit stops, and runs that none does

## Main results

* `Parser.halts_of_isLL1`: steps in a table without conflicts
* `Parser.halts_of_wellFounded`: steps if no symbol exposes itself again
* `Parser.exists_bound`: a bound on the steps, up to a number of steps of other kinds
* `Parser.run_ends`: when the limit is not needed
* `Parser.not_ends_loop`: a run that does not end, without left recursion
-/

namespace TopDown

/-! ## Turns -/

/-- What the rest of a run depends on: the symbols that are still to be dealt with, and the tokens
that are left. -/
structure Situation where
  stack : List Nat
  input : List String

/-- The situation in a state. -/
def State.situation (g : Grammar) (s : State) : Situation :=
  ⟨s.focus.stack g, s.input⟩

namespace Parser

variable {g : Grammar} {p : Parser} {recovery : Recovery} {allowed : Move → Bool}

/-- A step, as far as the stack and the tokens are concerned. -/
inductive Turn (p : Parser) : Situation → Move → Situation → Prop where
  | shift {symbol : Nat} {γ : List Nat} {rest : List String} :
      Turn p ⟨symbol :: γ, p.grammar.name symbol :: rest⟩ .shift ⟨γ, rest⟩
  | expand {symbol number : Nat} {rivals γ : List Nat} {input : List String}
      (hcell : p.consult symbol input = some (.predict number rivals)) :
      Turn p ⟨symbol :: γ, input⟩ (.expand number)
        ⟨p.grammar.alternative symbol number ++ γ, input⟩
  | giveUp {symbol : Nat} {γ : List Nat} {input : List String}
      (hcell : p.consult symbol input = some .sync) :
      Turn p ⟨symbol :: γ, input⟩ .giveUp ⟨γ, input⟩
  | passOver {symbol : Nat} {γ : List Nat} {input : List String}
      (hcell : p.consult symbol input = some .skip) :
      Turn p ⟨symbol :: γ, input⟩ .passOver ⟨symbol :: γ, input.tail⟩

/-- Every step takes a turn. -/
theorem Step.turn {s next : State} {m : Move} (h : p.Step recovery s m next) :
    p.Turn (s.situation p.grammar) m (next.situation p.grammar) := by
  cases h with
  | shift hsymbol =>
    rw [State.situation, State.situation, Focus.stack_plug]
    exact .shift
  | expand hsymbol hrow hcell =>
    rw [State.situation, State.situation, Focus.stack_expand]
    exact .expand hcell
  | giveUp hsymbol hrow hrecovery hcell =>
    rw [State.situation, State.situation, Focus.stack_leaveOut]
    exact .giveUp hcell
  | passOver hsymbol hrow hrecovery hcell =>
    rw [State.situation, State.situation]
    exact .passOver hcell

/-! ## The cells of recovery -/

/-- At the end of the input no token is passed over. -/
theorem consult_nil_ne_skip (symbol : Nat) :
    (generate g).consult symbol [] ≠ some .skip := by
  intro hcell
  change (g.table g.lookahead).cell? symbol g.finish = some .skip at hcell
  obtain ⟨hsymbol, hfinish⟩ := Grammar.kinds_of_cell?_table hcell
  rw [Grammar.cell?_table hsymbol hfinish, Option.some.injEq, Grammar.cellOf] at hcell
  split at hcell
  · cases hcell
  · simp [Grammar.recovery] at hcell

/-- Other symbols than nonterminals have no cell, except that a token may be passed over. -/
theorem isNonterminal_of_consult {symbol : Nat} {input : List String} {cell : Cell}
    (h : (generate g).consult symbol input = some cell) (hcell : cell ≠ .skip) :
    g.isNonterminal symbol = true := by
  rw [consult] at h
  split at h
  · exact (Grammar.kinds_of_cell?_table h).1
  · exact absurd (Option.some.inj h).symm hcell

/-! ## Halting -/

/-- From a situation on, there are no infinitely many turns by allowed moves. -/
def Halts (p : Parser) (allowed : Move → Bool) (c : Situation) : Prop :=
  Acc (fun next c => ∃ m, allowed m = true ∧ p.Turn c m next) c

namespace Halts

theorem nil (input : List String) : p.Halts allowed ⟨[], input⟩ := by
  apply Acc.intro
  rintro next ⟨m, -, hturn⟩
  cases hturn

/-- Tokens that are matched or passed over are gone, and so two kinds of turns are left. -/
theorem of_shorter {symbol : Nat} {γ : List Nat} {input : List String}
    (hshorter : ∀ c : Situation, c.input.length < input.length → (generate g).Halts allowed c)
    (hexpand : ∀ number rivals,
      (generate g).consult symbol input = some (.predict number rivals) →
      (generate g).Halts allowed ⟨g.alternative symbol number ++ γ, input⟩)
    (hgiveUp : allowed .giveUp = true → (generate g).consult symbol input = some .sync →
      (generate g).Halts allowed ⟨γ, input⟩) :
    (generate g).Halts allowed ⟨symbol :: γ, input⟩ := by
  apply Acc.intro
  rintro next ⟨m, hm, hturn⟩
  cases hturn with
  | shift =>
    apply hshorter
    simp
  | expand hcell => exact hexpand _ _ hcell
  | giveUp hcell => exact hgiveUp hm hcell
  | passOver hcell =>
    apply hshorter
    cases input with
    | nil => exact absurd hcell (consult_nil_ne_skip symbol)
    | cons token rest => simp

/-- It is enough to deal with one symbol after the other, on fewer and fewer tokens. -/
theorem of_cons (h : ∀ input : List String,
      (∀ c : Situation, c.input.length < input.length → p.Halts allowed c) →
      ∀ symbol γ, p.Halts allowed ⟨γ, input⟩ → p.Halts allowed ⟨symbol :: γ, input⟩)
    (c : Situation) : p.Halts allowed c := by
  obtain ⟨stack, input⟩ := c
  induction hlength : input.length using Nat.strong_induction_on generalizing stack input with
  | _ length ih =>
    subst hlength
    have hshorter : ∀ c : Situation, c.input.length < input.length → p.Halts allowed c :=
      fun c hlt => ih c.input.length hlt c.stack c.input rfl
    induction stack with
    | nil => exact nil input
    | cons symbol γ hγ => exact h input hshorter symbol γ hγ

end Halts

/-! ## Ranked symbols -/

/-- **If no symbol exposes itself again, there are no infinitely many turns.** Symbols that the
automaton may remove without using up a token are to be erasable: those all symbols of an
alternative of which are, and all nonterminals if these may be given up. -/
theorem halts_of_wellFounded (hg : g.WellFormed) {erasable : Nat → Prop}
    (hwf : WellFounded (g.Exposed erasable))
    (hclosed : ∀ left, ∀ α ∈ g.alternatives left, (∀ s ∈ α, erasable s) → erasable left)
    (hgiveUp : allowed .giveUp = true → ∀ s, g.isNonterminal s = true → erasable s)
    (c : Situation) : (generate g).Halts allowed c := by
  apply Halts.of_cons
  intro input hshorter symbol
  -- What is below a symbol on the stack matters only if the symbol can be erased.
  suffices herasable : ∀ γ, (erasable symbol → (generate g).Halts allowed ⟨γ, input⟩) →
      (generate g).Halts allowed ⟨symbol :: γ, input⟩ from
    fun γ hγ => herasable γ fun _ => hγ
  induction symbol using hwf.induction with
  | _ symbol ih =>
    intro γ hγ
    apply Halts.of_shorter hshorter
    · intro number rivals hcell
      have halt := mem_alternatives_of_consult hg hcell
      -- The symbols of the alternative, the last one first; all before it can be erased.
      suffices hrest : ∀ after before, before ++ after = g.alternative symbol number →
          (∀ s ∈ before, erasable s) → (generate g).Halts allowed ⟨after ++ γ, input⟩ from
        hrest _ [] rfl (by simp)
      intro after
      induction after with
      | nil =>
        intro before heq hbefore
        rw [List.append_nil] at heq
        apply hγ
        exact hclosed symbol _ halt (heq ▸ hbefore)
      | cons s after ihafter =>
        intro before heq hbefore
        have hexposed : g.Exposed erasable s symbol := ⟨before, after, heq ▸ halt, hbefore⟩
        apply ih s hexposed
        intro hs
        apply ihafter (before ++ [s]) (by simpa using heq)
        intro b hb
        rcases List.mem_append.mp hb with hb | hb
        · exact hbefore b hb
        · obtain rfl := List.mem_singleton.mp hb
          exact hs
    · intro hallowed hcell
      exact hγ (hgiveUp hallowed symbol (isNonterminal_of_consult hcell (by simp)))

/-! ## Tables without conflicts -/

/-- The automaton follows the way on which the next token comes to the front of a string, in a
table without conflicts. If it arrives behind a part of the string before that, then it is where
it would be without the part. -/
theorem halts_of_leads (hg : g.WellFormed) (hll1 : (generate g).table.isLL1 = true)
    {input : List String} {t : Nat} (hnext : (generate g).nextTerminal? input = some t)
    (hshorter : ∀ c : Situation, c.input.length < input.length → (generate g).Halts allowed c)
    {σ : List Nat} (h : g.Leads σ t) (hfollowed : g.Followed σ) {before after γ : List Nat}
    (hσ : σ = before ++ after) (hγ : (generate g).Halts allowed ⟨γ, input⟩) :
    (generate g).Halts allowed ⟨before ++ γ, input⟩ := by
  have ht : g.isTerminal t = true := isTerminal_of_nextTerminal? hg hnext
  induction h generalizing before with
  | here t τ =>
    cases before with
    | nil => exact hγ
    | cons first before =>
      obtain ⟨rfl, -⟩ := List.cons.inj hσ
      have hskip : ∀ cell, (generate g).consult t input = some cell → cell = .skip := by
        intro cell hcell
        by_contra hne
        have hkind := Catalog.isTerminal_eq_false (isNonterminal_of_consult hcell hne)
        rw [ht] at hkind
        cases hkind
      apply Halts.of_shorter hshorter
      · intro number rivals hcell
        cases hskip _ hcell
      · intro _ hcell
        cases hskip _ hcell
  | @expand left t α τ halt h ih =>
    cases before with
    | nil => exact hγ
    | cons first before =>
      obtain ⟨rfl, rfl⟩ := List.cons.inj hσ
      obtain ⟨β, hβ⟩ := h.exists_derives
      have hselects : Selects g input (α ++ (before ++ after)) :=
        ⟨t, hnext, Grammar.mem_firstOf_iff.mpr ⟨ht, β, hβ⟩⟩
      obtain ⟨number, hcell, halternative⟩ := consult_of_selects hll1 halt hfollowed hselects
      have hbelow : g.Followed (α ++ (before ++ after)) :=
        hfollowed.replace_head (Catalog.isNonterminal_of_mem halt) [] halt
      apply Halts.of_shorter hshorter
      · intro number' rivals hcell'
        rw [hcell] at hcell'
        cases hcell'
        have hbehind := ih hnext hbelow (List.append_assoc α before after).symm ht
        rw [List.append_assoc] at hbehind
        rw [halternative]
        exact hbehind
      · intro _ hsync
        rw [hcell] at hsync
        cases hsync

/-- **In a table without conflicts there are no infinitely many turns**, of whatever kind. -/
theorem halts_of_isLL1 (hg : g.WellFormed) (hll1 : (generate g).table.isLL1 = true)
    (c : Situation) : (generate g).Halts allowed c := by
  apply Halts.of_cons
  intro input hshorter symbol γ hγ
  apply Halts.of_shorter hshorter
  · intro number rivals hcell
    obtain ⟨t, hnext, halt, hselector⟩ := exists_selector_of_consult hg hcell
    have hsymbol := Catalog.isNonterminal_of_mem halt
    have ht := isTerminal_of_nextTerminal? hg hnext
    rcases Lookahead.mem_selectors.mp hselector with hfirst | ⟨hnull, hfollow⟩
    · obtain ⟨-, β, hβ⟩ := Grammar.mem_firstOf_iff.mp hfirst
      have hfollowed := (Grammar.Followed.singleton symbol).replace_head hsymbol [] halt
      rw [List.append_nil] at hfollowed
      exact halts_of_leads hg hll1 hnext hshorter (Grammar.leads_of_derives hβ) hfollowed
        (List.append_nil _).symm hγ
    · have hbehind : g.Derives (g.alternative symbol number ++ [t]) [t] :=
        (Grammar.nullable_firstOf_iff.mp hnull).append .refl
      have hpair : g.Followed [symbol, t] := .pair ht fun _ => hfollow
      have hfollowed := hpair.replace_head hsymbol [] halt
      exact halts_of_leads hg hll1 hnext hshorter (Grammar.leads_of_derives hbehind) hfollowed rfl
        hγ
  · intro _ _
    exact hγ

/-! ## Bounds -/

/-- A bound on what comes after a step is a bound on what begins with the step. -/
theorem Step.length_le {s next : State} {m : Move} (h : p.Step recovery s m next) {k N : Nat}
    (hN : ∀ es last, p.Steps recovery next es last →
      (⟨s, m⟩ :: es : List Event).countP (!allowed ·.move) ≤ k → es.length ≤ N) :
    ∀ es last, p.Steps recovery s es last → es.countP (!allowed ·.move) ≤ k →
      es.length ≤ N + 1 := by
  intro es last hsteps hcount
  cases hsteps with
  | refl => exact Nat.zero_le _
  | cons hfirst hrest =>
    obtain ⟨rfl, rfl⟩ := h.unique hfirst
    rw [List.length_cons]
    exact Nat.succ_le_succ (hN _ last hrest hcount)

/-- **Bounds on stretches of steps.** If from no situation on there are infinitely many turns by
allowed moves, then a stretch of steps with only so many other moves has a bound. An allowed move
leaves as many of the others to be made, and any other move one less. -/
theorem exists_bound (h : ∀ c, p.Halts allowed c) (recovery : Recovery) (k : Nat) (s : State) :
    ∃ N, ∀ es last, p.Steps recovery s es last → es.countP (!allowed ·.move) ≤ k →
      es.length ≤ N := by
  induction k using Nat.strong_induction_on generalizing s with
  | _ k ihk =>
    have hacc := InvImage.accessible (State.situation p.grammar) (h (s.situation p.grammar))
    induction hacc with
    | intro s _ ihs =>
      by_cases hstep : ∃ m next, p.Step recovery s m next
      · obtain ⟨m, next, hstep⟩ := hstep
        by_cases hm : allowed m = true
        · obtain ⟨N, hN⟩ := ihs next ⟨m, hm, hstep.turn⟩
          refine ⟨N + 1, hstep.length_le fun es last hsteps hcount => hN es last hsteps ?_⟩
          rwa [List.countP_cons_of_neg (by simp [hm])] at hcount
        · have hcons : ∀ es : List Event,
              (⟨s, m⟩ :: es).countP (!allowed ·.move) = es.countP (!allowed ·.move) + 1 :=
            fun es => List.countP_cons_of_pos (by simp [hm])
          rcases Nat.eq_zero_or_pos k with rfl | hk
          · refine ⟨0 + 1, hstep.length_le fun es last _ hcount => ?_⟩
            rw [hcons] at hcount
            omega
          · obtain ⟨N, hN⟩ := ihk (k - 1) (by omega) next
            refine ⟨N + 1, hstep.length_le fun es last hsteps hcount => hN es last hsteps ?_⟩
            rw [hcons] at hcount
            omega
      · refine ⟨0, fun es last hsteps _ => ?_⟩
        cases hsteps with
        | refl => exact Nat.le_refl _
        | cons hfirst _ => exact absurd ⟨_, _, hfirst⟩ hstep

end Parser

/-! ## Runs -/

/-- The run was stopped by the limit on its steps. -/
def Run.OutOfSteps (r : Run) : Prop :=
  ∃ limit, r.lastAction? = some (.error (.stepLimit limit))

namespace Parser

variable {g : Grammar} {p : Parser} {recovery : Recovery} {input : List String}

/-- With steps enough, no run on the tokens is stopped by the limit. -/
def Ends (p : Parser) (recovery : Recovery) (input : List String) : Prop :=
  ∃ N, ∀ n ≥ N, ¬ (p.run input ⟨n, recovery⟩).OutOfSteps

/-- A run that was stopped by the limit has made as many steps. -/
theorem exists_steps_of_outOfSteps {options : RunOptions}
    (h : (p.run input options).OutOfSteps) :
    ∃ es last, p.Steps options.recovery (p.initial input) es last ∧
      es.length = options.maxSteps ∧
      es.countP (·.move = .giveUp) = (p.run input options).syncPoints.length := by
  obtain ⟨es, last, m, hsteps, hrun, hend⟩ := exists_run_eq p input options
  obtain ⟨limit, hlimit⟩ := h
  rw [hrun, lastAction?_report, Option.some.injEq] at hlimit
  have hm : m = .fail (.stepLimit limit) := move_of_action_eq_error hlimit
  have hlength : es.length = options.maxSteps := by
    rcases hend with ⟨hlength, -⟩ | ⟨-, hmove, -⟩
    · exact hlength
    · exact absurd (hmove.symm.trans hm) (move_ne_stepLimit last limit)
  refine ⟨es, last, hsteps, hlength, ?_⟩
  rw [hrun, length_syncPoints, List.countP_append, hm]
  rfl

/-- Stretches of steps with a bound come to an end. -/
theorem ends_of_bound {N : Nat}
    (h : ∀ es last, p.Steps recovery (p.initial input) es last → es.length ≤ N) :
    p.Ends recovery input := by
  refine ⟨N + 1, fun n hn hout => ?_⟩
  obtain ⟨es, last, hsteps, hlength, -⟩ := exists_steps_of_outOfSteps hout
  have hle := h es last hsteps
  have hlength : es.length = n := hlength
  omega

/-- If there are no infinitely many turns, then runs end. -/
theorem ends_of_halts (h : ∀ c, p.Halts (fun _ => true) c) (recovery : Recovery)
    (input : List String) : p.Ends recovery input := by
  obtain ⟨N, hN⟩ := exists_bound h recovery 0 (p.initial input)
  apply ends_of_bound
  intro es last hsteps
  exact hN es last hsteps (by simp)

/-- A run that stops at the first error gives up nothing. -/
theorem Steps.ne_giveUp {s last : State} {es : List Event} (h : p.Steps .none s es last) :
    ∀ e ∈ es, e.move ≠ .giveUp := by
  induction h with
  | refl => simp
  | cons hstep _ ih =>
    refine List.forall_mem_cons.mpr ⟨?_, ih⟩
    intro hm
    cases hm
    cases hstep with
    | giveUp _ _ hrecovery _ => cases hrecovery

/-- Without left recursion, a stretch of steps that gives up only so many nonterminals has a
bound. -/
theorem exists_bound_of_not_leftRecursive (hg : g.WellFormed) (h : ∀ s, ¬ g.LeftRecursive s)
    (recovery : Recovery) (k : Nat) (s : State) :
    ∃ N, ∀ es last, (generate g).Steps recovery s es last →
      es.countP (·.move = .giveUp) ≤ k → es.length ≤ N := by
  have hwf : WellFounded (g.Exposed fun b => g.Derives [b] []) := by
    apply Grammar.wellFounded_exposed hg
    intro s hs
    exact h s (Grammar.leftRecursive_iff.mpr hs)
  have hclosed : ∀ left, ∀ α ∈ g.alternatives left, (∀ s ∈ α, g.Derives [s] []) →
      g.Derives [left] [] := by
    intro left α hα hvanish
    exact (Grammar.Derives.single hα).trans (Grammar.derives_nil_iff.mpr hvanish)
  have hhalts : ∀ c, (generate g).Halts (· ≠ .giveUp) c :=
    halts_of_wellFounded hg hwf hclosed (by simp)
  obtain ⟨N, hN⟩ := exists_bound hhalts recovery k s
  refine ⟨N, fun es last hsteps hcount => hN es last hsteps ?_⟩
  simpa using hcount

/-- If no symbol comes back in front where nonterminals are left out, there are no infinitely many
turns. -/
theorem halts_of_not_recurrent (hg : g.WellFormed) (h : ∀ s, ¬ g.Recurrent s)
    {allowed : Move → Bool} (c : Situation) : (generate g).Halts allowed c := by
  apply halts_of_wellFounded hg (Grammar.wellFounded_exposed hg h)
  · intro left α hα _
    exact Catalog.isNonterminal_of_mem hα
  · intro _ s hs
    exact hs

/-- **When the limit on the steps is not needed.** With steps enough no run of an LL(1) grammar is
stopped by the limit, whether it recovers from errors or not. If no symbol is left-recursive, then
this holds of runs that stop at the first error; a run that recovers either ends too, or it gives
up more and more nonterminals with the steps that it is allowed. It ends if no symbol comes back
in front of itself where nonterminals before it may be left out. -/
theorem run_ends {rules : List Rule} {start : Option String} {config : Config} {p : Parser}
    (hp : Parser.build rules start config = .ok p) (input : List String) :
    (p.table.isLL1 = true → ∀ recovery, p.Ends recovery input) ∧
    ((∀ s, ¬ p.grammar.LeftRecursive s) →
      p.Ends .none input ∧
      ∀ k, ∃ N, ∀ n ≥ N, (p.run input ⟨n, .panic⟩).OutOfSteps →
        k < (p.run input ⟨n, .panic⟩).syncPoints.length) ∧
    ((∀ s, ¬ p.grammar.Recurrent s) → ∀ recovery, p.Ends recovery input) := by
  obtain ⟨g, hg, rfl⟩ := exists_of_build hp
  refine ⟨fun hll1 recovery => ?_, fun hleft => ⟨?_, fun k => ?_⟩, fun hrecurrent recovery => ?_⟩
  · exact ends_of_halts (halts_of_isLL1 hg hll1) recovery input
  · obtain ⟨N, hN⟩ := exists_bound_of_not_leftRecursive hg hleft .none 0
      ((generate g).initial input)
    apply ends_of_bound
    intro es last hsteps
    apply hN es last hsteps
    have hcount : es.countP (·.move = .giveUp) = 0 := by
      rw [List.countP_eq_zero]
      intro e he
      simpa using hsteps.ne_giveUp e he
    omega
  · obtain ⟨N, hN⟩ := exists_bound_of_not_leftRecursive hg hleft .panic k
      ((generate g).initial input)
    refine ⟨N + 1, fun n hn hout => ?_⟩
    obtain ⟨es, last, hsteps, hlength, hcount⟩ := exists_steps_of_outOfSteps hout
    have hlength : es.length = n := hlength
    rw [← hcount]
    by_contra hfew
    have hle := hN es last hsteps (by omega)
    omega
  · exact ends_of_halts (halts_of_not_recurrent hg hrecurrent) recovery input

/-- Rules of a left-recursive nonterminal that derives no string of terminals; the table has no
conflicts. -/
def sinkRules : List Rule :=
  [⟨"S", [["S", "a"]], []⟩]

/-- The grammar of these rules. -/
def sinkGrammar : Grammar :=
  ⟨⟨#[.nonterminal "S" [[0, 1]], .terminal "a", .terminal "$"]⟩, 0, 2⟩

/-- Rules of a nonterminal that comes back behind two that vanish and one that is given up. The
token that the earlier alternative of `A` is predicted for is not derived by what stands there,
because the earlier alternative of `X` is predicted as well. -/
def loopRules : List Rule :=
  [⟨"A", [["X", "X", "B", "A"], ["c"]], []⟩, ⟨"X", [["_"], ["a"]], []⟩, ⟨"B", [["b"]], []⟩]

/-- The grammar of these rules. -/
def loopGrammar : Grammar :=
  ⟨⟨#[.nonterminal "A" [[1, 1, 2, 0], [3]], .nonterminal "X" [[], [4]],
    .nonterminal "B" [[5]], .terminal "c", .terminal "a", .terminal "b", .terminal "$"]⟩, 0, 6⟩

theorem loopGrammar_not_leftRecursive : ∀ s, ¬ loopGrammar.LeftRecursive s := by
  apply Grammar.not_leftRecursive_of_rank fun s => if s = 0 then 2 else if s ≤ 2 then 1 else 0
  decide +kernel

/-- Rules as before, with a terminal that keeps `A` from coming back in front. The two alternatives
of `X` are still in conflict. -/
def guardedRules : List Rule :=
  [⟨"A", [["X", "X", "B", "b", "A"], ["c"]], []⟩, ⟨"X", [["_"], ["a"]], []⟩, ⟨"B", [["b"]], []⟩]

/-- The grammar of these rules. -/
def guardedGrammar : Grammar :=
  ⟨⟨#[.nonterminal "A" [[1, 1, 2, 3, 0], [4]], .nonterminal "X" [[], [5]],
    .nonterminal "B" [[3]], .terminal "b", .terminal "c", .terminal "a", .terminal "$"]⟩, 0, 6⟩

theorem guardedGrammar_not_recurrent : ∀ s, ¬ guardedGrammar.Recurrent s := by
  apply Grammar.not_recurrent_of_rank fun s => if s = 0 then 2 else if s ≤ 2 then 1 else 0
  decide +kernel

/-- On the token `a`, the automaton comes back to `A` deeper in the tree, with nothing matched. -/
theorem loop_round (frames : List Frame) : ∃ es f,
    (generate loopGrammar).Steps .panic ⟨.awaiting 0 frames, ["a"]⟩ es
      ⟨.awaiting 0 (f :: frames), ["a"]⟩ ∧ es.length = 4 := by
  have hA : (generate loopGrammar).consult 0 ["a"] = some (.predict 0 []) := by decide +kernel
  have hX : (generate loopGrammar).consult 1 ["a"] = some (.predict 0 [1]) := by decide +kernel
  have hB : (generate loopGrammar).consult 2 ["a"] = some .sync := by decide +kernel
  refine ⟨_, _, .cons (.expand ?_ ?_ hA) (.cons (.expand ?_ ?_ hX) (.cons (.expand ?_ ?_ hX)
    (.cons (.giveUp ?_ ?_ rfl hB) (.refl _)))), rfl⟩
  all_goals decide

/-- Rounds enough for every limit. -/
theorem loop_rounds (k : Nat) (frames : List Frame) : ∃ es last,
    (generate loopGrammar).Steps .panic ⟨.awaiting 0 frames, ["a"]⟩ es last ∧
      k ≤ es.length := by
  induction k generalizing frames with
  | zero => exact ⟨[], _, .refl _, Nat.le_refl _⟩
  | succ k ih =>
    obtain ⟨es, f, hround, hlength⟩ := loop_round frames
    obtain ⟨es', last, hrest, hle⟩ := ih (f :: frames)
    refine ⟨es ++ es', last, hround.trans hrest, ?_⟩
    rw [List.length_append]
    omega

theorem lastAction?_loop (n : Nat) :
    ((generate loopGrammar).run ["a"] ⟨n, .panic⟩).lastAction? =
      some (.error (.stepLimit n)) := by
  obtain ⟨es, last, hsteps, hle⟩ := loop_rounds n []
  obtain ⟨s, hhistory⟩ := historyFrom_of_steps_of_le n hsteps hle
  have hrun : (generate loopGrammar).history ["a"] ⟨n, .panic⟩ =
      es.take n ++ [⟨s, .fail (.stepLimit n)⟩] := hhistory
  rw [run, hrun]
  exact lastAction?_report _ _ _

/-- The three cases: a left-recursive LL(1) grammar, one that is not left-recursive and one in which
no symbol comes back in front. The other two have conflicts. -/
theorem run_ends_loop :
    build sinkRules none {} = .ok (generate sinkGrammar) ∧
      build loopRules none {} = .ok (generate loopGrammar) ∧
      sinkGrammar.LeftRecursive 0 ∧
      (∀ recovery, (generate sinkGrammar).Ends recovery ["a"]) ∧
      (generate loopGrammar).Ends .none ["a"] ∧
      (∃ n, 10 < ((generate loopGrammar).run ["a"] ⟨n, .panic⟩).syncPoints.length) ∧
      build guardedRules none {} = .ok (generate guardedGrammar) ∧
      (generate guardedGrammar).table.isLL1 = false ∧
      (∀ s, ¬ guardedGrammar.Recurrent s) ∧
      ∀ recovery, (generate guardedGrammar).Ends recovery ["a"] := by
  have hsink : build sinkRules none {} = .ok (generate sinkGrammar) :=
    build_eq_ok (by decide +kernel)
  have hloop : build loopRules none {} = .ok (generate loopGrammar) :=
    build_eq_ok (by decide +kernel)
  have hguarded : build guardedRules none {} = .ok (generate guardedGrammar) :=
    build_eq_ok (by decide +kernel)
  obtain ⟨hll1, -, -⟩ := run_ends hsink ["a"]
  obtain ⟨-, hleft, -⟩ := run_ends hloop ["a"]
  obtain ⟨hends, hgiveUps⟩ := hleft loopGrammar_not_leftRecursive
  obtain ⟨n, hn⟩ := hgiveUps 10
  obtain ⟨-, -, hrecurrent⟩ := run_ends hguarded ["a"]
  exact ⟨hsink, hloop, ⟨[0, 1], by decide, [1], .refl⟩, hll1 (by decide), hends,
    ⟨n, hn n (Nat.le_refl n) ⟨n, lastAction?_loop n⟩⟩, hguarded, by decide +kernel,
    guardedGrammar_not_recurrent, hrecurrent guardedGrammar_not_recurrent⟩

/-- Without left recursion, a run that recovers may go on as long as it is allowed to. -/
theorem not_ends_loop :
    build loopRules none {} = .ok (generate loopGrammar) ∧
      (∀ s, ¬ loopGrammar.LeftRecursive s) ∧
      (∀ n, ((generate loopGrammar).run ["a"] ⟨n, .panic⟩).lastAction? =
        some (.error (.stepLimit n))) ∧
      ¬ (generate loopGrammar).Ends .panic ["a"] := by
  refine ⟨build_eq_ok (by decide +kernel), loopGrammar_not_leftRecursive, lastAction?_loop, ?_⟩
  rintro ⟨N, hN⟩
  exact hN N (Nat.le_refl N) ⟨N, lastAction?_loop N⟩

end Parser

end TopDown
