import TopDown.Proofs.Run.Modes
import TopDown.Proofs.Run.Trace

/-!
# How a run ends

A run goes on until it accepts or fails, and this happens in a few ways only (`Outcome`). The
automaton is never stuck for want of a row or of a cell: below all symbols of the stack is the end
mark, every symbol above it is a terminal or a nonterminal, and the table has a cell for every
nonterminal and every terminal that can come next. Tokens that are no terminals, and tokens that
look like the end mark, have no column, but they are passed over where a nonterminal is to be
expanded.

So a state in which no step can be made shows which end it is, and a run that recovers from errors
ends in one of three ways: it accepts, it has a terminal on top that is not the one that comes next,
or it has made all steps that it is allowed.

## Main definitions

* `Outcome`: the last entries that a trace can have

## Main results

* `Parser.exists_consult`: a nonterminal on the stack always has a cell
* `Parser.outcome_of_advance_eq_none`: the states in which no step can be made
* `Parser.run_outcome`: how a run ends
-/

namespace TopDown

/-- The last entry of a trace: how a run of a grammar can end. -/
inductive Outcome (g : Grammar) (options : RunOptions) : TraceEntry → Prop where
  /-- The end mark is on top, and the input is used up. -/
  | accept {step : Nat} :
      Outcome g options ⟨step, [Mark.finish], [Mark.finish], .accept⟩
  /-- The end mark is on top, and there are tokens left. -/
  | unfinished {step : Nat} {token : String} {rest : List String} (hrest : rest ≠ []) :
      Outcome g options
        ⟨step, [Mark.finish], token :: rest, .error (.mismatch Mark.finish token)⟩
  /-- A terminal is on top, and another token comes next. -/
  | mismatch {step t : Nat} {below rest : List String} {token : String}
      (ht : g.isTerminal t = true) (hfinish : t ≠ g.finish) (hne : g.name t ≠ token) :
      Outcome g options
        ⟨step, below ++ [g.name t], token :: rest, .error (.mismatch (g.name t) token)⟩
  /-- A nonterminal is on top for which no alternative is predicted, and there is no recovery. -/
  | noProduction {step left : Nat} {below rest : List String} {token : String}
      (hrecovery : options.recovery = .none) (hleft : g.isNonterminal left = true) :
      Outcome g options
        ⟨step, below ++ [g.name left], token :: rest, .error (.noProduction (g.name left) token)⟩
  /-- All steps have been made. -/
  | stepLimit {step : Nat} {stack input : List String} (hstep : step = options.maxSteps + 1) :
      Outcome g options ⟨step, stack, input, .error (.stepLimit options.maxSteps)⟩

namespace Outcome

variable {g : Grammar} {options : RunOptions} {e : TraceEntry}

theorem isFinal (h : Outcome g options e) : e.action.isFinal = true := by
  cases h <;> rfl

/-- A run that accepts has no tokens left. -/
theorem input_of_accept (h : Outcome g options e) (haction : e.action = .accept) :
    e.input = [Mark.finish] := by
  cases h <;> simp_all

theorem ne_unknownSymbol (h : Outcome g options e) (symbol : String) :
    e.action ≠ .error (.unknownSymbol symbol) := by
  cases h <;> simp

/-- Only a run that does not recover ends for want of an alternative. -/
theorem recovery_of_noProduction (h : Outcome g options e) {left token : String}
    (haction : e.action = .error (.noProduction left token)) : options.recovery = .none := by
  cases h <;> simp_all

/-- A mismatch is one of two kinds: the token that comes next is not the terminal that is expected,
or there are tokens left where the end mark is expected. -/
theorem of_mismatch (h : Outcome g options e) {expected found : String}
    (haction : e.action = .error (.mismatch expected found)) :
    e.input.head? = some found ∧
      ((∃ t, g.isTerminal t = true ∧ t ≠ g.finish ∧ g.name t = expected ∧ expected ≠ found) ∨
        expected = Mark.finish ∧ e.input.tail ≠ []) := by
  cases h with
  | accept => cases haction
  | unfinished hrest =>
    cases haction
    exact ⟨rfl, Or.inr ⟨rfl, hrest⟩⟩
  | mismatch ht hfinish hne =>
    cases haction
    exact ⟨rfl, Or.inl ⟨_, ht, hfinish, rfl, hne⟩⟩
  | noProduction => cases haction
  | stepLimit => cases haction

/-- A run that recovers ends in one of three ways. -/
theorem of_panic (h : Outcome g options e) (hpanic : options.recovery = .panic) :
    e.action = .accept ∨ (∃ expected found, e.action = .error (.mismatch expected found)) ∨
      e.action = .error (.stepLimit options.maxSteps) := by
  cases h with
  | accept => exact Or.inl rfl
  | unfinished => exact Or.inr (Or.inl ⟨_, _, rfl⟩)
  | mismatch => exact Or.inr (Or.inl ⟨_, _, rfl⟩)
  | noProduction hrecovery =>
    rw [hpanic] at hrecovery
    cases hrecovery
  | stepLimit => exact Or.inr (Or.inr rfl)

end Outcome

namespace Parser

variable {g : Grammar} {p : Parser} {recovery : Recovery} {s next last : State} {m : Move}
  {es : List Event} {symbol : Nat}

/-! ## No state is stuck -/

/-- **A nonterminal has a cell**, whatever comes next. -/
theorem exists_consult (hg : g.WellFormed) (hsymbol : g.isNonterminal symbol = true)
    (input : List String) : ∃ cell, (generate g).consult symbol input = some cell := by
  rw [consult]
  split
  · next t ht => exact ⟨_, Grammar.cell?_table hsymbol (isTerminal_of_nextTerminal? hg ht)⟩
  · exact ⟨_, rfl⟩

/-- A nonterminal at which the run ends is one for which no alternative is predicted, and there is
no recovery. -/
theorem moveAtNonterminal_eq_fail (hg : g.WellFormed) (hsymbol : g.isNonterminal symbol = true)
    {frames : List Frame} {input : List String}
    (h : (generate g).advance ⟨.awaiting symbol frames, input⟩
      ((generate g).moveAtNonterminal recovery symbol ⟨.awaiting symbol frames, input⟩) = none) :
    recovery = .none ∧
      (generate g).moveAtNonterminal recovery symbol ⟨.awaiting symbol frames, input⟩ =
        .fail (.noProduction (g.name symbol) (input.headD Mark.finish)) := by
  obtain ⟨cell, hcell⟩ := exists_consult hg hsymbol input
  unfold moveAtNonterminal at h ⊢
  rw [hcell] at h ⊢
  cases cell with
  | predict number rivals => cases h
  | sync =>
    cases recovery with
    | panic => cases h
    | none => exact ⟨rfl, rfl⟩
  | skip =>
    cases recovery with
    | panic => cases h
    | none => exact ⟨rfl, rfl⟩

/-- With the end mark behind it, the input shows the token that comes next. -/
theorem exists_append_finish_eq (input : List String) :
    ∃ rest, input ++ [Mark.finish] = input.headD Mark.finish :: rest := by
  cases input with
  | nil => exact ⟨[], rfl⟩
  | cons token rest => exact ⟨rest ++ [Mark.finish], rfl⟩

/-- The entry for a state in which a symbol is to be dealt with. -/
theorem exists_traceEntry_awaiting (p : Parser) (symbol : Nat) (frames : List Frame)
    (input : List String) (failure : Failure) (i : Nat) : ∃ below rest,
    p.traceEntry (⟨⟨.awaiting symbol frames, input⟩, .fail failure⟩, i) =
      ⟨i, below ++ [p.grammar.name symbol], input.headD Mark.finish :: rest, .error failure⟩ := by
  obtain ⟨rest, hrest⟩ := exists_append_finish_eq input
  refine ⟨((frames.flatMap Frame.todo ++ [p.grammar.finish]).map p.grammar.name).reverse, rest, ?_⟩
  rw [← hrest]
  simp [traceEntry, action, Focus.stack]

/-- A terminal that does not match what comes next is another token than that. -/
theorem name_ne_headD (hg : g.WellFormed) (hlt : symbol < g.finish) {input : List String}
    (hhead : input.head? ≠ some (g.name symbol)) : g.name symbol ≠ input.headD Mark.finish := by
  cases input with
  | nil => exact hg.name_ne_finish hlt
  | cons token rest => exact fun heq => hhead (congrArg some heq.symm)

/-- **A state in which no step can be made** shows how the run ends. -/
theorem outcome_of_advance_eq_none (hg : g.WellFormed) {options : RunOptions} (hs : s.Based g)
    (h : (generate g).advance s ((generate g).move options.recovery s) = none) (i : Nat) :
    Outcome g options
      ((generate g).traceEntry (⟨s, (generate g).move options.recovery s⟩, i)) := by
  obtain ⟨focus, input⟩ := s
  cases focus with
  | complete t =>
    cases input with
    | nil =>
      have hentry : (generate g).traceEntry
          (⟨⟨.complete t, []⟩, (generate g).move options.recovery ⟨.complete t, []⟩⟩, i) =
          ⟨i, [g.name g.finish], [Mark.finish], .accept⟩ := rfl
      rw [hentry, hg.name_finish]
      exact .accept
    | cons token rest =>
      have hentry : (generate g).traceEntry (⟨⟨.complete t, token :: rest⟩,
          (generate g).move options.recovery ⟨.complete t, token :: rest⟩⟩, i) =
          ⟨i, [g.name g.finish], token :: (rest ++ [Mark.finish]),
            .error (.mismatch (g.name g.finish) token)⟩ := rfl
      rw [hentry, hg.name_finish]
      exact .unfinished (by simp)
  | awaiting symbol frames =>
    obtain ⟨hlt, -⟩ := based_awaiting_iff.mp hs
    cases hsymbol : g.isTerminal symbol with
    | true =>
      have hmove : (generate g).move options.recovery ⟨.awaiting symbol frames, input⟩ =
          if input.head? = some (g.name symbol) then .shift
          else .fail (.mismatch (g.name symbol) (input.headD Mark.finish)) :=
        move_awaiting_terminal hsymbol
      rw [hmove] at h ⊢
      split at h
      · cases h
      · next hhead =>
        rw [if_neg hhead]
        obtain ⟨below, rest, hentry⟩ := exists_traceEntry_awaiting (generate g) symbol frames input
          (.mismatch (g.name symbol) (input.headD Mark.finish)) i
        rw [hentry]
        exact .mismatch hsymbol hlt.ne (name_ne_headD hg hlt hhead)
    | false =>
      have hkind := Catalog.isNonterminal_of_lt (hlt.trans hg.finish_lt) hsymbol
      have hrow : ((generate g).table.row? symbol).isSome = true :=
        Option.isSome_of_eq_some (Grammar.row?_table hkind)
      have hmove : (generate g).move options.recovery ⟨.awaiting symbol frames, input⟩ = _ :=
        move_awaiting_nonterminal hsymbol hrow
      rw [hmove] at h ⊢
      obtain ⟨hrecovery, hfail⟩ := moveAtNonterminal_eq_fail hg hkind h
      rw [hfail]
      obtain ⟨below, rest, hentry⟩ := exists_traceEntry_awaiting (generate g) symbol frames input
        (.noProduction (g.name symbol) (input.headD Mark.finish)) i
      rw [hentry]
      exact .noProduction hrecovery hkind

/-! ## Steps before the end -/

/-- A step does not end the run. -/
theorem Step.isFinal_action (h : p.Step recovery s m next) :
    (p.action ⟨s, m⟩).isFinal = false := by
  cases h <;> rfl

/-- A step of a run that does not recover is no recovery. -/
theorem Step.isRecovery_action (h : p.Step .none s m next) :
    (p.action ⟨s, m⟩).isRecovery = false := by
  cases h with
  | giveUp _ _ hrecovery => cases hrecovery
  | passOver _ _ hrecovery => cases hrecovery
  | shift => rfl
  | expand => rfl

/-- An action that ends a run is no recovery. -/
theorem isRecovery_of_isFinal {a : Action} (h : a.isFinal = true) : a.isRecovery = false := by
  cases a <;> simp_all [Action.isFinal, Action.isRecovery]

/-- What holds of the action of each step holds of the entries for a stretch of steps. -/
theorem Steps.forall_entry {P : Action → Prop} (h : p.Steps recovery s es last)
    (hstep : ∀ {s m next}, p.Step recovery s m next → P (p.action ⟨s, m⟩)) (i : Nat) :
    ∀ entry ∈ (es.zipIdx i).map p.traceEntry, P entry.action := by
  induction h generalizing i with
  | refl => simp
  | cons hfirst _ ih => exact List.forall_mem_cons.mpr ⟨hstep hfirst, ih (i + 1)⟩

/-! ## Runs -/

/-- The tokens that the entries of a trace use up, and those that are left at the end. -/
theorem Steps.filterMap_consumed? (h : (generate g).Steps recovery s es last)
    (hfinal : ((generate g).action ⟨last, m⟩).isFinal = true) :
    ((generate g).report (es ++ [⟨last, m⟩]) s).trace.filterMap (·.action.consumed?) ++
      last.input = s.input := by
  have hlast : ([⟨last, m⟩].map (generate g).action).filterMap Action.consumed? = [] :=
    List.filterMap_cons_none (Action.consumed?_eq_none hfinal)
  rw [filterMap_action_trace, List.map_append, List.filterMap_append, hlast, List.append_nil]
  exact h.consumed

/-- The entries of a trace are those of the steps, and the one that shows how the run ends. -/
theorem exists_outcome (hg : g.WellFormed) (input : List String) (options : RunOptions) :
    ∃ es last m entry, (generate g).Steps options.recovery ((generate g).initial input) es last ∧
      (generate g).run input options =
        (generate g).report (es ++ [⟨last, m⟩]) ((generate g).initial input) ∧
      ((generate g).run input options).trace =
        (es.zipIdx 1).map (generate g).traceEntry ++ [entry] ∧
      entry = (generate g).traceEntry (⟨last, m⟩, es.length + 1) ∧
      Outcome g options entry := by
  obtain ⟨es, last, m, hsteps, hrun, hend⟩ := exists_run_eq (generate g) input options
  have hbased : last.Based g := hsteps.forall_state (Step.based hg) (based_initial hg input) m
    ⟨last, m⟩ (by simp)
  refine ⟨es, last, m, _, hsteps, hrun, ?_, rfl, ?_⟩
  · rw [hrun]
    simp [report, List.zipIdx_append, Nat.add_comm]
  · rcases hend with ⟨hlength, rfl⟩ | ⟨-, rfl, hadvance⟩
    · exact .stepLimit (by rw [hlength])
    · exact outcome_of_advance_eq_none hg hbased hadvance _

/-- **How a run ends.** The trace of a run is not empty. Its last entry accepts or reports an error,
in one of a few ways, and no entry before it does. No entry reports an unknown symbol; none reports
that there is no alternative if the run recovers, and none recovers otherwise. A mismatch is with
the token that comes next; what is expected is another terminal than this token, or the end mark
while there are tokens left. If the last entry accepts, then every token of the input was matched or
passed over. So a run that recovers ends by accepting, with a mismatch, or because it has made all
the steps that it is allowed. -/
theorem run_outcome {rules : List Rule} {start : Option String} {config : Config} {p : Parser}
    (hp : Parser.build rules start config = .ok p) (input : List String) (options : RunOptions) :
    ∃ before last, (p.run input options).trace = before ++ [last] ∧
      Outcome p.grammar options last ∧
      last.action.isFinal = true ∧
      (∀ e ∈ before, e.action.isFinal = false) ∧
      (∀ e ∈ before ++ [last], ∀ symbol, e.action ≠ .error (.unknownSymbol symbol)) ∧
      (options.recovery = .panic → ∀ e ∈ before ++ [last], ∀ left token,
        e.action ≠ .error (.noProduction left token)) ∧
      (options.recovery = .none → ∀ e ∈ before ++ [last], e.action.isRecovery = false) ∧
      (∀ e ∈ before ++ [last], ∀ expected found, e.action = .error (.mismatch expected found) →
        e.input.head? = some found ∧
          ((∃ t, p.grammar.isTerminal t = true ∧ t ≠ p.grammar.finish ∧
              p.grammar.name t = expected ∧ expected ≠ found) ∨
            expected = Mark.finish ∧ e.input.tail ≠ [])) ∧
      (last.action = .accept →
        (p.run input options).trace.filterMap (·.action.consumed?) = input) ∧
      (options.recovery = .panic → last.action = .accept ∨
        (∃ expected found, last.action = .error (.mismatch expected found)) ∨
        last.action = .error (.stepLimit options.maxSteps)) := by
  obtain ⟨g, hg, rfl⟩ := exists_of_build hp
  obtain ⟨es, last, m, entry, hsteps, hrun, htrace, hentry, houtcome⟩ :=
    exists_outcome hg input options
  have hregular := hsteps.forall_entry (P := (·.isFinal = false)) Step.isFinal_action 1
  have honly : ∀ e ∈ (es.zipIdx 1).map (generate g).traceEntry ++ [entry], ∀ failure,
      e.action = .error failure → e = entry := by
    intro e he failure haction
    rcases List.mem_append.mp he with he | he
    · have hfinal := hregular e he
      rw [haction] at hfinal
      cases hfinal
    · exact List.mem_singleton.mp he
  refine ⟨_, entry, htrace, houtcome, houtcome.isFinal, hregular, ?_, ?_, ?_, ?_, ?_,
    houtcome.of_panic⟩
  · intro e he symbol haction
    obtain rfl := honly e he _ haction
    exact houtcome.ne_unknownSymbol symbol haction
  · intro hpanic e he left token haction
    obtain rfl := honly e he _ haction
    rw [houtcome.recovery_of_noProduction haction] at hpanic
    cases hpanic
  · intro hnone
    rw [hnone] at hsteps
    refine List.forall_mem_append.mpr ⟨?_, ?_⟩
    · exact hsteps.forall_entry (P := (·.isRecovery = false)) Step.isRecovery_action 1
    · simpa using isRecovery_of_isFinal houtcome.isFinal
  · intro e he expected found haction
    obtain rfl := honly e he _ haction
    exact houtcome.of_mismatch haction
  · intro haction
    have hfinal : ((generate g).action ⟨last, m⟩).isFinal = true := by
      have hfinal := houtcome.isFinal
      rwa [hentry] at hfinal
    have hleft : last.input ++ [Mark.finish] = [Mark.finish] := by
      have hinput := houtcome.input_of_accept haction
      rwa [hentry] at hinput
    have hconsumed := hsteps.filterMap_consumed? hfinal
    rwa [List.append_left_eq_self.mp hleft, List.append_nil, ← hrun] at hconsumed

/-- A token that looks like the end mark is no end mark, and what is expected in its place is. -/
theorem run_outcome_slip :
    build slipRules none {} = .ok (generate slipGrammar) ∧
      ((generate slipGrammar).run ["x", "a", "b", "$"] {}).lastAction? =
        some (.error (.mismatch "$" "$")) ∧
      ∃ before last, ((generate slipGrammar).run ["x", "a", "b", "$"] {}).trace =
          before ++ [last] ∧
        Outcome slipGrammar {} last ∧ last.input.tail ≠ [] := by
  have hp : build slipRules none {} = .ok (generate slipGrammar) :=
    build_eq_ok (by decide +kernel)
  have hlastAction : ((generate slipGrammar).run ["x", "a", "b", "$"] {}).lastAction? =
      some (.error (.mismatch "$" "$")) := by
    decide +kernel
  obtain ⟨before, last, htrace, houtcome, -, -, -, -, -, hmismatch, -⟩ :=
    run_outcome hp ["x", "a", "b", "$"] {}
  have haction : last.action = .error (.mismatch "$" "$") := by
    rw [Run.lastAction?, htrace, List.getLast?_concat] at hlastAction
    exact Option.some.inj hlastAction
  obtain ⟨-, ⟨t, -, -, hname, hne⟩ | ⟨-, hleft⟩⟩ := hmismatch last (by simp) _ _ haction
  · exact absurd rfl hne
  · exact ⟨hp, hlastAction, before, last, htrace, houtcome, hleft⟩

end Parser

end TopDown
