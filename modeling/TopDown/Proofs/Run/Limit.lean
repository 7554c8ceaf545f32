import TopDown.Proofs.Run.Trace

/-!
# What the limit on the steps leaves of a run

Two runs of a parser on the same tokens that differ in the limit on their steps only are the same
run, as far as they go. If the lower limit stops none of the steps, then the runs are equal. If it
does, then what is reported is the beginning of what is reported with the higher limit: the entries
of the trace up to the last one, which shows the same state but an error in the place of the move,
the places of recovery among these entries, and the tokens that have been matched by then.

The automaton does not see the limit, so both histories go through the same stretch of steps, and
the longer one goes on where the shorter one stops (`Parser.exists_historyFrom_eq`). No token is
taken out of the tree again: each step keeps the leaves there are or adds one behind them
(`Parser.Step.yield_prefix`).

## Main definitions

* `Run.IsCut`: a run that stopped where another one goes on

## Main results

* `Focus.leaves_tree`: the leaves of the tree as far as it goes are the tokens that were matched
* `Parser.Steps.yield_prefix`: along a stretch of steps, tokens are only added to the tree
* `Parser.exists_historyFrom_eq`: two histories from the same state
* `Parser.isCut_report`: the reports of a history that is cut off and of one that goes on
* `Parser.run_limit`: two runs with different limits
-/

namespace TopDown

/-! ## The tokens in the tree -/

namespace Focus

variable (g : Grammar) (symbol : Nat) (frames : List Frame)

theorem leaves_enclose (t : Tree) :
    (enclose g t frames).leaves = framesYield frames ++ t.leaves := by
  induction frames generalizing t with
  | nil => rfl
  | cons f fs ih => simp [enclose, ih, framesYield, Frame.close, Frame.attach]

/-- The leaves of the tree as far as it goes are the tokens that have been matched. -/
theorem leaves_tree (focus : Focus) : (focus.tree g).leaves = focus.yield := by
  cases focus with
  | complete t => rfl
  | awaiting symbol frames =>
    cases frames with
    | nil => rfl
    | cons f fs => simp [tree, leaves_enclose, yield, framesYield, Frame.close]

theorem yield_leaveOut : (leaveOut g symbol frames).yield = framesYield frames := by
  cases frames with
  | nil => rfl
  | cons f fs =>
    rw [leaveOut]
    split
    · simp [yield_plug, framesYield, Frame.close]
    · rfl

end Focus

/-! ## Runs that are cut off -/

/-- A run that its limit stopped, next to a run that goes on from there. The entries of the traces
before the last one of the run that was stopped are equal, and the next ones show the same step,
stack and input. The places of recovery are those of the longer run up to there, and the leaves of
the tree are the first leaves of its tree. -/
structure Run.IsCut (limit : Nat) (r long : Run) : Prop where
  take_trace : r.trace.take limit = long.trace.take limit
  exists_entry : ∃ e e', r.trace[limit]? = some e ∧ long.trace[limit]? = some e' ∧
    e.action = .error (.stepLimit limit) ∧ e'.step = e.step ∧ e'.stack = e.stack ∧
      e'.input = e.input
  syncPoints_eq : r.syncPoints = long.syncPoints.filter (·.step ≤ limit)
  skipPoints_eq : r.skipPoints = long.skipPoints.filter (·.step ≤ limit)
  leaves_prefix : r.tree.leaves <+: long.tree.leaves

namespace Parser

variable {p : Parser} {recovery : Recovery} {s next last last' : State} {m : Move}
  {es es' : List Event}

/-! ## Two histories from one state -/

/-- A step takes no token out of the tree. -/
theorem Step.yield_prefix (h : p.Step recovery s m next) :
    s.focus.yield <+: next.focus.yield := by
  cases h with
  | shift hsymbol =>
    rw [Focus.yield_plug]
    exact List.prefix_append _ _
  | expand hsymbol hrow hcell =>
    rw [Focus.yield_expand]
    exact List.prefix_rfl
  | giveUp hsymbol hrow hrecovery hcell =>
    rw [Focus.yield_leaveOut]
    exact List.prefix_rfl
  | passOver hsymbol hrow hrecovery hcell => exact List.prefix_rfl

/-- **Along a stretch of steps, tokens are only added to the tree**, behind those there are. -/
theorem Steps.yield_prefix (h : p.Steps recovery s es last) :
    s.focus.yield <+: last.focus.yield := by
  induction h with
  | refl => exact List.prefix_rfl
  | cons hstep _ ih => exact hstep.yield_prefix.trans ih

/-- **Two histories from one state.** Either both end with the same move, or the one that may make
fewer steps is cut off after them and the other one goes on. -/
theorem exists_historyFrom_eq (p : Parser) (recovery : Recovery) (limit limit' : Nat)
    {k k' : Nat} (hk : k ≤ k') (s : State) :
    ∃ es last, p.Steps recovery s es last ∧
      ((es.length < k ∧
          p.historyFrom recovery limit k s = es ++ [⟨last, p.move recovery last⟩] ∧
          p.historyFrom recovery limit' k' s = es ++ [⟨last, p.move recovery last⟩]) ∨
        (es.length = k ∧
          p.historyFrom recovery limit k s = es ++ [⟨last, .fail (.stepLimit limit)⟩] ∧
          ∃ es' last' m, p.Steps recovery last es' last' ∧
            p.historyFrom recovery limit' k' s = es ++ (es' ++ [⟨last', m⟩]))) := by
  obtain ⟨es, last, m, hsteps, hhistory, hend⟩ := exists_steps p recovery limit k s
  refine ⟨es, last, hsteps, ?_⟩
  rcases hend with ⟨hlength, rfl⟩ | ⟨hlength, rfl, hfinal⟩
  · refine Or.inr ⟨hlength, hhistory, ?_⟩
    obtain ⟨es', last', m', hsteps', hrest, -⟩ :=
      exists_steps p recovery limit' (k' - es.length) last
    refine ⟨es', last', m', hsteps', ?_⟩
    rw [← hrest, ← historyFrom_of_steps limit' hsteps]
    congr 1
    omega
  · refine Or.inl ⟨hlength, hhistory, ?_⟩
    obtain ⟨j, rfl⟩ : ∃ j, k' = es.length + (j + 1) := ⟨k' - es.length - 1, by omega⟩
    rw [historyFrom_of_steps limit' hsteps, historyFrom_of_final limit' hfinal]

/-! ## The reports of both -/

section Report

variable (start : State) (rest : List Event)

theorem take_trace_report : (p.report (es ++ rest) start).trace.take es.length =
    (es.zipIdx 1).map p.traceEntry := by
  have hlength : ((es.zipIdx 1).map p.traceEntry).length = es.length := by simp
  simp only [report, List.zipIdx_append, List.map_append]
  exact List.take_left' hlength

theorem getElem?_trace_report {e : Event} (he : rest.head? = some e) :
    (p.report (es ++ rest) start).trace[es.length]? =
      some (p.traceEntry (e, es.length + 1)) := by
  simp only [report, List.getElem?_map, List.getElem?_zipIdx]
  rw [List.getElem?_append_right (Nat.le_refl _), Nat.sub_self, ← List.head?_eq_getElem?, he,
    Option.map_some, Option.map_some, Nat.add_comm]

/-- Events have numbers from one on, and places of recovery the numbers of their events. -/
theorem step_of_mem_filterMap {history : List Event} {k : Nat} {point : RecoveryPoint}
    (h : point ∈ (history.zipIdx k).filterMap (p.recoveryPoint? m)) :
    k ≤ point.step ∧ point.step < k + history.length := by
  obtain ⟨⟨e, i⟩, hmem, hpoint⟩ := List.mem_filterMap.mp h
  have hstep : point.step = i := by
    unfold recoveryPoint? at hpoint
    split at hpoint <;> cases hpoint
    rfl
  rw [hstep]
  exact ⟨List.le_snd_of_mem_zipIdx hmem, List.snd_lt_add_of_mem_zipIdx hmem⟩

/-- **The places of recovery up to a step** are those of the events up to there. -/
theorem filter_recoveryPoint? (es rest : List Event) (m : Move) :
    (((es ++ rest).zipIdx 1).filterMap (p.recoveryPoint? m)).filter (·.step ≤ es.length) =
      (es.zipIdx 1).filterMap (p.recoveryPoint? m) := by
  rw [List.zipIdx_append, List.filterMap_append, List.filter_append]
  have hbefore : ((es.zipIdx 1).filterMap (p.recoveryPoint? m)).filter (·.step ≤ es.length) =
      (es.zipIdx 1).filterMap (p.recoveryPoint? m) := by
    rw [List.filter_eq_self]
    intro point hpoint
    have hstep := step_of_mem_filterMap hpoint
    simp only [decide_eq_true_eq]
    omega
  have hafter : ((rest.zipIdx (1 + es.length)).filterMap (p.recoveryPoint? m)).filter
      (·.step ≤ es.length) = [] := by
    rw [List.filter_eq_nil_iff]
    intro point hpoint
    have hstep := step_of_mem_filterMap hpoint
    simp only [decide_eq_true_eq]
    omega
  rw [hbefore, hafter, List.append_nil]

/-- An event with another move is no place of recovery. -/
theorem filterMap_recoveryPoint?_concat {e : Event} (he : e.move ≠ m) :
    ((es ++ [e]).zipIdx 1).filterMap (p.recoveryPoint? m) =
      (es.zipIdx 1).filterMap (p.recoveryPoint? m) := by
  have hnone : p.recoveryPoint? m (e, 1 + es.length) = none :=
    recoveryPoint?_eq_none_iff.mpr he
  rw [List.zipIdx_append, List.filterMap_append, List.zipIdx_singleton,
    List.filterMap_cons_none hnone, List.filterMap_nil, List.append_nil]

/-- **A history that is cut off and one that goes on** have reports that agree up to there. -/
theorem isCut_report (h : p.Steps recovery last es' last') :
    (p.report (es ++ [⟨last, .fail (.stepLimit es.length)⟩]) start).IsCut es.length
      (p.report (es ++ (es' ++ [⟨last', m⟩])) start) where
  take_trace := by rw [take_trace_report, take_trace_report]
  exists_entry := by
    obtain ⟨⟨state, m'⟩, hhead, hstate⟩ := Option.map_eq_some_iff.mp (h.head?_state m)
    obtain rfl : state = last := hstate
    exact ⟨_, _, getElem?_trace_report start _ rfl, getElem?_trace_report start _ hhead, rfl, rfl,
      rfl, rfl⟩
  syncPoints_eq := by
    have hlast : Move.fail (.stepLimit es.length) ≠ .giveUp := nofun
    exact (filterMap_recoveryPoint?_concat hlast).trans (filter_recoveryPoint? es _ .giveUp).symm
  skipPoints_eq := by
    have hlast : Move.fail (.stepLimit es.length) ≠ .passOver := nofun
    exact (filterMap_recoveryPoint?_concat hlast).trans (filter_recoveryPoint? es _ .passOver).symm
  leaves_prefix := by
    rw [tree_report, ← List.append_assoc, tree_report, Focus.leaves_tree, Focus.leaves_tree]
    exact h.yield_prefix

end Report

/-! ## Two runs -/

theorem length_trace_concat {e : Event} :
    (p.report (es ++ [e]) s).trace.length = es.length + 1 := by
  rw [length_trace_report, List.length_append, List.length_singleton]

theorem outOfSteps_concat {limit : Nat} :
    (p.report (es ++ [⟨last, .fail (.stepLimit limit)⟩]) s).OutOfSteps :=
  ⟨limit, lastAction?_report _ _ _⟩

theorem not_outOfSteps_concat :
    ¬ (p.report (es ++ [⟨last, p.move recovery last⟩]) s).OutOfSteps := by
  rintro ⟨limit, hlimit⟩
  rw [lastAction?_report, Option.some.injEq] at hlimit
  exact move_ne_stepLimit last limit (move_of_action_eq_error hlimit)

theorem not_accepted_of_outOfSteps {history : List Event}
    (h : (p.report history s).OutOfSteps) : (p.report history s).accepted = false := by
  rw [Bool.eq_false_iff]
  intro haccepted
  obtain ⟨⟨e, he, hmove⟩, -⟩ := accepted_iff.mp haccepted
  obtain ⟨before, rfl⟩ := List.getLast?_eq_some_iff.mp he
  obtain ⟨limit, hlimit⟩ := h
  rw [lastAction?_report, Option.some.injEq] at hlimit
  rw [move_of_action_eq_error hlimit] at hmove
  cases hmove

/-- **A limit on the steps only cuts runs off.** Of two runs that differ in the limit only, consider
the one with the lower limit. Its trace has at most one entry more than it has steps to make, and
exactly so many if it is stopped by the limit. If it is not, then the runs are the same. If it is,
then up to the entry that says so the traces agree, the places of recovery are those of the longer
run up to there, and the leaves of its tree are the first leaves of the tree of the longer run. So
what is accepted is accepted with every higher limit. -/
theorem run_limit (p : Parser) (input : List String) (recovery : Recovery) {limit limit' : Nat}
    (h : limit ≤ limit') :
    (p.run input ⟨limit, recovery⟩).trace.length ≤ limit + 1 ∧
      ((p.run input ⟨limit, recovery⟩).trace.length = limit + 1 ↔
        (p.run input ⟨limit, recovery⟩).OutOfSteps) ∧
      (¬ (p.run input ⟨limit, recovery⟩).OutOfSteps →
        p.run input ⟨limit', recovery⟩ = p.run input ⟨limit, recovery⟩) ∧
      ((p.run input ⟨limit, recovery⟩).OutOfSteps →
        (p.run input ⟨limit, recovery⟩).IsCut limit (p.run input ⟨limit', recovery⟩)) ∧
      ((p.run input ⟨limit, recovery⟩).accepted = true →
        (p.run input ⟨limit', recovery⟩).accepted = true) := by
  obtain ⟨es, last, hsteps, hcases⟩ :=
    exists_historyFrom_eq p recovery limit limit' h (p.initial input)
  rcases hcases with ⟨hlength, hshort, hlong⟩ | ⟨rfl, hshort, es', last', m, hsteps', hlong⟩
  · have hrun : p.run input ⟨limit, recovery⟩ =
        p.report (es ++ [⟨last, p.move recovery last⟩]) (p.initial input) :=
      congrArg (p.report · _) hshort
    have hrun' : p.run input ⟨limit', recovery⟩ =
        p.report (es ++ [⟨last, p.move recovery last⟩]) (p.initial input) :=
      congrArg (p.report · _) hlong
    have htrace : (p.run input ⟨limit, recovery⟩).trace.length = es.length + 1 :=
      hrun ▸ length_trace_concat
    have hends : ¬ (p.run input ⟨limit, recovery⟩).OutOfSteps := hrun ▸ not_outOfSteps_concat
    refine ⟨by omega, iff_of_false (by omega) hends, fun _ => hrun'.trans hrun.symm,
      fun hout => absurd hout hends, ?_⟩
    rw [hrun, hrun']
    exact id
  · have hrun : p.run input ⟨es.length, recovery⟩ =
        p.report (es ++ [⟨last, .fail (.stepLimit es.length)⟩]) (p.initial input) :=
      congrArg (p.report · _) hshort
    have hrun' : p.run input ⟨limit', recovery⟩ =
        p.report (es ++ (es' ++ [⟨last', m⟩])) (p.initial input) :=
      congrArg (p.report · _) hlong
    have htrace : (p.run input ⟨es.length, recovery⟩).trace.length = es.length + 1 :=
      hrun ▸ length_trace_concat
    have hout : (p.run input ⟨es.length, recovery⟩).OutOfSteps := hrun ▸ outOfSteps_concat
    refine ⟨htrace.le, iff_of_true htrace hout, fun hends => absurd hout hends, fun _ => ?_, ?_⟩
    · rw [hrun, hrun']
      exact isCut_report _ hsteps'
    · intro haccepted
      rw [hrun, not_accepted_of_outOfSteps (hrun ▸ hout)] at haccepted
      cases haccepted

/-- A run that is stopped after a token was passed over and a symbol expanded, and one that needs no
more steps than it may make. -/
theorem run_limit_loop :
    build loopRules none {} = .ok (generate loopGrammar) ∧
      ((generate loopGrammar).run ["$", "c"] ⟨2, .panic⟩).trace.length = 3 ∧
      ((generate loopGrammar).run ["$", "c"] ⟨2, .panic⟩).IsCut 2
        ((generate loopGrammar).run ["$", "c"] ⟨4, .panic⟩) ∧
      (generate loopGrammar).run ["$", "c"] ⟨5, .panic⟩ =
        (generate loopGrammar).run ["$", "c"] ⟨4, .panic⟩ := by
  have hp : build loopRules none {} = .ok (generate loopGrammar) :=
    build_eq_ok (by decide +kernel)
  have hlength : ((generate loopGrammar).run ["$", "c"] ⟨2, .panic⟩).trace.length = 3 := by
    decide +kernel
  have hlength' : ((generate loopGrammar).run ["$", "c"] ⟨4, .panic⟩).trace.length ≠ 5 := by
    decide +kernel
  obtain ⟨-, hiff, -, hcut, -⟩ :=
    run_limit (generate loopGrammar) ["$", "c"] .panic (show 2 ≤ 4 by decide)
  obtain ⟨-, hiff', hsame, -, -⟩ :=
    run_limit (generate loopGrammar) ["$", "c"] .panic (show 4 ≤ 5 by decide)
  exact ⟨hp, hlength, hcut (hiff.mp hlength), hsame (mt hiff'.mpr hlength')⟩

end Parser

end TopDown
