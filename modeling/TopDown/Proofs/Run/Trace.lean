import Mathlib.Data.List.Chain
import TopDown.Proofs.Run.Termination

/-!
# The trace is a log that can be replayed

An entry of a trace shows the stack and the input before its step, and the action. The action says
how the next entry comes about (`Action.Effect`): so all snapshots can be computed from the first
one and the actions, whatever the run recovers from and however it ends. At the bottom of every
stack, and nowhere else, is the end mark, and what is left of the input ends with the end mark too.
The places of recovery are the entries that recover, and no token gets lost: those that were
matched or passed over and those that are left are the input.

## Main definitions

* `Snapshot`, `TraceEntry.snapshot`, `Parser.snapshot`: a stack and an input
* `Action.Effect`: what an action does to them
* `State.Based`: the end mark below all other symbols

## Main results

* `Parser.Steps.forall_state`: what each step keeps holds along a stretch of steps
* `Parser.Step.effect`: a step has the effect of its action
* `Parser.Steps.consumed`: the tokens that a stretch of steps uses up
* `Parser.of_mem_history`: the state and the move of an event of a run
* `Parser.trace_replays`: what the trace of a run says
-/

namespace TopDown

/-- A stack of names, listed from the bottom to the top, and the tokens that are left. -/
structure Snapshot where
  stack : List String
  input : List String
  deriving DecidableEq, Repr

/-- The stack and the input that an entry of a trace shows. -/
def TraceEntry.snapshot (e : TraceEntry) : Snapshot :=
  ⟨e.stack, e.input⟩

/-- An entry of a trace as a place of recovery: the token that comes next, and the symbol on top of
the stack. -/
def TraceEntry.recoveryPoint (e : TraceEntry) : RecoveryPoint :=
  ⟨e.step, e.input.headD Mark.finish, e.stack.getLastD Mark.finish⟩

namespace Action

/-- What an action does to a stack and an input. An action that ends the run has no effect to go on
with. -/
inductive Effect (g : Grammar) : Action → Snapshot → Snapshot → Prop where
  | matchToken {symbol : Nat} {below input : List String} (h : g.isTerminal symbol = true) :
      Effect g (.matchToken (g.name symbol)) ⟨below ++ [g.name symbol], g.name symbol :: input⟩
        ⟨below, input⟩
  | apply {left number : Nat} {α : List Nat} {below input : List String}
      (h : (g.alternatives left)[number]? = some α) :
      Effect g (.apply (g.productionText left number)) ⟨below ++ [g.name left], input⟩
        ⟨below ++ (α.map g.name).reverse, input⟩
  | syncPop {left : Nat} {below input : List String} (h : g.isNonterminal left = true) :
      Effect g (.syncPop (g.name left)) ⟨below ++ [g.name left], input⟩ ⟨below, input⟩
  | skipToken {left : Nat} {token : String} {below input : List String}
      (h : g.isNonterminal left = true) (hinput : input ≠ []) :
      Effect g (.skipToken token) ⟨below ++ [g.name left], token :: input⟩
        ⟨below ++ [g.name left], input⟩

/-- The token that an action uses up. -/
def consumed? : Action → Option String
  | matchToken token => some token
  | skipToken token => some token
  | _ => none

/-- The action gives up a nonterminal. -/
def isSyncPop : Action → Bool
  | syncPop _ => true
  | _ => false

/-- The action passes over a token. -/
def isSkipToken : Action → Bool
  | skipToken _ => true
  | _ => false

/-- The action ends the run. -/
def isFinal : Action → Bool
  | accept => true
  | error _ => true
  | _ => false

theorem consumed?_eq_none {a : Action} (h : a.isFinal = true) : a.consumed? = none := by
  cases a <;> simp_all [isFinal, consumed?]

end Action

/-- The end mark is at the bottom of the stack, and all symbols above it come before it in the
catalog. -/
def State.Based (g : Grammar) (s : State) : Prop :=
  ∃ γ, s.focus.stack g = γ ++ [g.finish] ∧ ∀ t ∈ γ, t < g.finish

namespace Parser

variable {g : Grammar} {p : Parser} {recovery : Recovery} {s next last : State} {m : Move}
  {es : List Event}

/-- The stack and the input of a state, by name. -/
def snapshot (p : Parser) (s : State) : Snapshot :=
  ⟨((s.focus.stack p.grammar).map p.grammar.name).reverse, s.input ++ [Mark.finish]⟩

/-! ## What a step does -/

/-- What each step keeps holds of all states along a stretch of steps. -/
theorem Steps.forall_state {P : State → Prop} (h : p.Steps recovery s es last)
    (hstep : ∀ {s m next}, p.Step recovery s m next → P s → P next) (hs : P s) (m : Move) :
    ∀ e ∈ es ++ [⟨last, m⟩], P e.state := by
  induction h with
  | refl => simpa using hs
  | cons hfirst _ ih => exact List.forall_mem_cons.mpr ⟨hs, ih (hstep hfirst hs)⟩

/-- A symbol with a row in the table is a nonterminal. -/
theorem isNonterminal_of_row? {symbol : Nat}
    (h : ((generate g).table.row? symbol).isSome = true) : g.isNonterminal symbol = true := by
  by_contra hsymbol
  have hrow : (generate g).table.row? symbol = none :=
    Grammar.row?_table_eq_none (by simpa using hsymbol)
  rw [hrow] at h
  cases h

/-- The symbols that are to be dealt with next are on top of the stack. -/
theorem snapshot_of_stack {α γ : List Nat} (h : s.focus.stack p.grammar = α ++ γ) :
    p.snapshot s = ⟨(γ.map p.grammar.name).reverse ++ (α.map p.grammar.name).reverse,
      s.input ++ [Mark.finish]⟩ := by
  rw [snapshot, h, List.map_append, List.reverse_append]

theorem snapshot_of_stack_cons {symbol : Nat} {γ : List Nat}
    (h : s.focus.stack p.grammar = symbol :: γ) : p.snapshot s =
      ⟨(γ.map p.grammar.name).reverse ++ [p.grammar.name symbol], s.input ++ [Mark.finish]⟩ :=
  snapshot_of_stack (α := [symbol]) h

/-- A token that is passed over is no end mark. -/
theorem ne_nil_of_consult_eq_skip {symbol : Nat} {input : List String}
    (h : (generate g).consult symbol input = some .skip) : input ≠ [] := by
  rintro rfl
  exact consult_nil_ne_skip symbol h

/-- **A step has the effect of its action.** -/
theorem Step.effect (hg : g.WellFormed) (h : (generate g).Step recovery s m next) :
    ((generate g).action ⟨s, m⟩).Effect g ((generate g).snapshot s)
      ((generate g).snapshot next) := by
  cases h with
  | @shift symbol frames rest hsymbol =>
    rw [snapshot_of_stack_cons rfl, snapshot, Focus.stack_plug]
    exact .matchToken hsymbol
  | @expand symbol frames input number rivals hsymbol hrow hcell =>
    obtain ⟨-, α, -, hα, -⟩ := exists_alternative_of_consult hg hcell
    have halternative : (generate g).grammar.alternative symbol number = α :=
      Grammar.alternative_eq hα
    rw [snapshot_of_stack_cons rfl, snapshot_of_stack (Focus.stack_expand _ _ _ _), halternative]
    exact .apply hα
  | @giveUp symbol frames input hsymbol hrow hrecovery hcell =>
    rw [snapshot_of_stack_cons rfl, snapshot, Focus.stack_leaveOut]
    exact .syncPop (isNonterminal_of_row? hrow)
  | @passOver symbol frames input hsymbol hrow hrecovery hcell =>
    obtain ⟨token, rest, rfl⟩ := List.exists_cons_of_ne_nil (ne_nil_of_consult_eq_skip hcell)
    rw [snapshot_of_stack_cons rfl, snapshot_of_stack_cons rfl]
    exact .skipToken (isNonterminal_of_row? hrow) (by simp)

/-! ## What holds of every snapshot -/

theorem based_awaiting_iff {symbol : Nat} {frames : List Frame} {input : List String} :
    State.Based g ⟨.awaiting symbol frames, input⟩ ↔
      symbol < g.finish ∧ ∀ t ∈ frames.flatMap Frame.todo, t < g.finish := by
  constructor
  · rintro ⟨γ, hγ, hlt⟩
    have happend : (symbol :: frames.flatMap Frame.todo) ++ [g.finish] = γ ++ [g.finish] := hγ
    obtain ⟨rfl, -⟩ := List.append_inj' happend rfl
    exact List.forall_mem_cons.mp hlt
  · intro h
    exact ⟨symbol :: frames.flatMap Frame.todo, rfl, List.forall_mem_cons.mpr h⟩

theorem based_initial (hg : g.WellFormed) (input : List String) :
    ((generate g).initial input).Based g :=
  based_awaiting_iff.mpr ⟨hg.start_lt_finish, by simp⟩

/-- **Below all other symbols is the end mark**, after each step again. -/
theorem Step.based (hg : g.WellFormed) (h : (generate g).Step recovery s m next)
    (hs : s.Based g) : next.Based g := by
  cases h with
  | @shift symbol frames rest hsymbol =>
    obtain ⟨-, htodo⟩ := based_awaiting_iff.mp hs
    exact ⟨_, Focus.stack_plug g _ frames, htodo⟩
  | @expand symbol frames input number rivals hsymbol hrow hcell =>
    obtain ⟨-, htodo⟩ := based_awaiting_iff.mp hs
    refine ⟨g.alternative symbol number ++ frames.flatMap Frame.todo, ?_, ?_⟩
    · rw [List.append_assoc]
      exact Focus.stack_expand g symbol frames _
    · intro t ht
      rcases List.mem_append.mp ht with ht | ht
      · exact hg.closed (mem_alternatives_of_consult hg hcell) t ht
      · exact htodo t ht
  | @giveUp symbol frames input hsymbol hrow hrecovery hcell =>
    obtain ⟨-, htodo⟩ := based_awaiting_iff.mp hs
    exact ⟨_, Focus.stack_leaveOut g symbol frames, htodo⟩
  | passOver => exact hs

theorem Step.input_suffix (h : p.Step recovery s m next) : next.input <:+ s.input := by
  cases h with
  | shift => exact List.suffix_cons _ _
  | expand => exact List.suffix_rfl
  | giveUp => exact List.suffix_rfl
  | passOver => exact List.tail_suffix _

theorem snapshot_initial (hg : g.WellFormed) (input : List String) :
    (generate g).snapshot ((generate g).initial input) =
      ⟨[Mark.finish, g.name g.start], input ++ [Mark.finish]⟩ := by
  have hstack : ([g.finish].map g.name).reverse = [Mark.finish] := by simp [hg.name_finish]
  rw [snapshot_of_stack_cons rfl]
  exact congrArg (fun below => Snapshot.mk (below ++ [g.name g.start]) _) hstack

theorem exists_snapshot_stack_eq (hg : g.WellFormed) (h : s.Based g) :
    ∃ above, ((generate g).snapshot s).stack = Mark.finish :: above ∧ Mark.finish ∉ above := by
  obtain ⟨γ, hγ, hlt⟩ := h
  refine ⟨(γ.map g.name).reverse, ?_, ?_⟩
  · rw [snapshot_of_stack (p := generate g) hγ]
    exact congrArg (· :: _) hg.name_finish
  · intro hmem
    obtain ⟨t, ht, hname⟩ := List.mem_map.mp (List.mem_reverse.mp hmem)
    exact hg.name_ne_finish (hlt t ht) hname

/-! ## The tokens that are used up -/

theorem Step.consumed (h : (generate g).Step recovery s m next) :
    ((generate g).action ⟨s, m⟩).consumed?.toList ++ next.input = s.input := by
  cases h with
  | shift => rfl
  | expand => rfl
  | giveUp => rfl
  | passOver _ _ _ hcell =>
    obtain ⟨token, rest, rfl⟩ := List.exists_cons_of_ne_nil (ne_nil_of_consult_eq_skip hcell)
    rfl

/-- **No token gets lost**: those that are used up along a stretch of steps and those that are left
are those there were. -/
theorem Steps.consumed (h : (generate g).Steps recovery s es last) :
    (es.map (generate g).action).filterMap Action.consumed? ++ last.input = s.input := by
  induction h with
  | refl => rfl
  | cons hstep _ ih =>
    rw [← hstep.consumed, ← ih, List.map_cons, List.filterMap_cons]
    cases ((generate g).action _).consumed? <;> rfl

/-! ## Reports -/

/-- A move after which there is no state ends the run. -/
theorem isFinal_of_advance_eq_none (h : p.advance s (p.move recovery s) = none) :
    (p.action ⟨s, p.move recovery s⟩).isFinal = true := by
  obtain ⟨focus, input⟩ := s
  cases focus with
  | complete t => cases input <;> rfl
  | awaiting symbol frames =>
    cases hm : p.move recovery ⟨.awaiting symbol frames, input⟩ with
    | accept => rfl
    | fail failure => rfl
    | shift => simp [hm, advance] at h
    | expand n => simp [hm, advance] at h
    | giveUp => simp [hm, advance] at h
    | passOver => simp [hm, advance] at h

/-- The history of a run is a stretch of steps and an event that ends it, which accepts only if the
automaton does. -/
theorem exists_history_eq (p : Parser) (input : List String) (options : RunOptions) :
    ∃ es last m, p.Steps options.recovery (p.initial input) es last ∧
      p.history input options = es ++ [⟨last, m⟩] ∧ (p.action ⟨last, m⟩).isFinal = true ∧
      (m = .accept → p.move options.recovery last = .accept) := by
  obtain ⟨es, last, m, hsteps, hhistory, hend⟩ := exists_steps p options.recovery
    options.maxSteps options.maxSteps (p.initial input)
  refine ⟨es, last, m, hsteps, hhistory, ?_⟩
  rcases hend with ⟨-, rfl⟩ | ⟨-, rfl, hadvance⟩
  · exact ⟨rfl, nofun⟩
  · exact ⟨isFinal_of_advance_eq_none hadvance, id⟩

/-- **An event of a run** is in a state with the end of the input left, and its move is that of the
state unless the steps are used up. -/
theorem of_mem_history {input : List String} {options : RunOptions} {e : Event}
    (he : e ∈ p.history input options) : e.state.input <:+ input ∧
      (e.move = p.move options.recovery e.state ∨
        e.move = .fail (.stepLimit options.maxSteps)) := by
  obtain ⟨es, rest, hhistory⟩ := List.append_of_mem he
  obtain ⟨hsteps, hmove⟩ := steps_of_historyFrom_eq options.maxSteps hhistory
  refine ⟨?_, hmove⟩
  exact hsteps.forall_state (P := fun s => s.input <:+ input)
    (fun hstep hs => hstep.input_suffix.trans hs) List.suffix_rfl e.move e (by simp)

/-- A stretch of steps and an event after it begin in the first state. -/
theorem Steps.head?_state (h : p.Steps recovery s es last) (m : Move) :
    (es ++ [⟨last, m⟩] : List Event).head?.map Event.state = some s := by
  cases h <;> rfl

/-- One event after another is one step after another. -/
theorem Steps.isChain (h : p.Steps recovery s es last) (m : Move) :
    List.IsChain (fun e next => p.Step recovery e.state e.move next.state)
      (es ++ [⟨last, m⟩] : List Event) := by
  induction h with
  | refl => exact List.isChain_singleton _
  | cons hstep hs ih =>
    rw [List.cons_append, List.isChain_cons]
    refine ⟨fun e he => ?_, ih⟩
    have hhead := hs.head?_state m
    rw [Option.mem_def.mp he, Option.map_some, Option.some.injEq] at hhead
    rw [hhead]
    exact hstep

theorem map_step_trace (history : List Event) (s : State) :
    (p.report history s).trace.map TraceEntry.step =
      List.range' 1 (p.report history s).trace.length := by
  rw [length_trace_report]
  simp only [report, List.map_map]
  exact List.zipIdx_map_snd 1 history

theorem head?_trace (history : List Event) (s : State) :
    (p.report history s).trace.head?.map TraceEntry.snapshot =
      (history.head?.map Event.state).map p.snapshot := by
  cases history <;> rfl

theorem map_action_trace (history : List Event) (s : State) :
    (p.report history s).trace.map TraceEntry.action = history.map p.action := by
  have hfst : history.map p.action = ((history.zipIdx 1).map Prod.fst).map p.action := by
    rw [List.zipIdx_map_fst]
  rw [hfst]
  simp only [report, List.map_map]
  rfl

theorem filterMap_action_trace {α : Type} (f : Action → Option α) (history : List Event)
    (s : State) : (p.report history s).trace.filterMap (fun e => f e.action) =
      (history.map p.action).filterMap f := by
  rw [← map_action_trace (s := s), List.filterMap_map]
  rfl

/-- What an entry of the trace shows is the place at which its event would recover. -/
theorem recoveryPoint_traceEntry (e : Event × Nat) : (p.traceEntry e).recoveryPoint =
    ⟨e.2, e.1.state.token, p.grammar.name (p.current e.1.state)⟩ := by
  have htoken : (e.1.state.input ++ [Mark.finish]).headD Mark.finish = e.1.state.token := by
    rw [State.token]
    cases e.1.state.input <;> rfl
  have htop : (((e.1.state.focus.stack p.grammar).map p.grammar.name).reverse).getLastD
      Mark.finish = p.grammar.name (p.current e.1.state) := by
    obtain ⟨symbol, γ, hγ⟩ : ∃ symbol γ, e.1.state.focus.stack p.grammar = symbol :: γ := by
      cases e.1.state.focus <;> exact ⟨_, _, rfl⟩
    rw [current, hγ, List.map_cons, List.reverse_cons, List.getLastD_concat, List.headD_cons]
  rw [TraceEntry.recoveryPoint]
  simp only [traceEntry, htoken, htop]

/-- **The places of recovery of a kind** are the entries of the trace with the action of this
kind. -/
theorem filterMap_recoveryPoint?_eq {m : Move} {isKind : Action → Bool}
    (hkind : ∀ e, isKind (p.action e) = decide (e.move = m)) (history : List Event) (s : State) :
    (history.zipIdx 1).filterMap (p.recoveryPoint? m) =
      ((p.report history s).trace.filter (isKind ·.action)).map TraceEntry.recoveryPoint := by
  have hentry : ∀ e : Event × Nat, isKind (p.traceEntry e).action = decide (e.1.move = m) :=
    fun e => hkind e.1
  rw [← List.filterMap_eq_map, List.filterMap_filter]
  simp only [report, List.filterMap_map]
  congr 1
  funext e
  simp only [Function.comp_apply, hentry, decide_eq_true_eq, recoveryPoint_traceEntry,
    recoveryPoint?]

theorem isSyncPop_action (e : Event) : (p.action e).isSyncPop = decide (e.move = .giveUp) := by
  unfold action
  split <;> simp_all [Action.isSyncPop]

theorem isSkipToken_action (e : Event) :
    (p.action e).isSkipToken = decide (e.move = .passOver) := by
  unfold action
  split <;> simp_all [Action.isSkipToken]

/-- The entries of a trace are related as their events are, whatever their numbers. -/
theorem isChain_trace {R : TraceEntry → TraceEntry → Prop} {history : List Event}
    (h : List.IsChain (fun e next => ∀ i j, R (p.traceEntry (e, i)) (p.traceEntry (next, j)))
      history) : (p.report history s).trace.IsChain R := by
  rw [← List.zipIdx_map_fst 1 history, List.isChain_map] at h
  change List.IsChain R ((history.zipIdx 1).map p.traceEntry)
  rw [List.isChain_map]
  exact h.imp fun e next hR => hR e.2 next.2

/-- **The trace is a log that can be replayed.** Its entries are numbered from one. The first shows
the start symbol above the end mark, and all of the input before the end mark; every stack has the
end mark at the bottom and nowhere else, and what is left of the input is never nothing, but always
the end of what there was at first. Each stack and input after the first come out of those before
by the effect of the action: a match takes away a token and the terminal that it is the name of, an
expansion puts the symbols of an alternative, of which there may be none, in the place of its left
side; a nonterminal that is given up is taken away, and a token that is passed over, which is not
the end mark that was added, is dropped. The places of recovery are the entries for nonterminals
given up and for tokens passed over, in order, with their numbers, the tokens that came next and
the nonterminals on top. The last entry accepts or reports an error, and the tokens that were
matched or passed over and those that the last entry shows are the input. -/
theorem trace_replays {rules : List Rule} {start : Option String} {config : Config} {p : Parser}
    (hp : Parser.build rules start config = .ok p) (input : List String) (options : RunOptions) :
    (p.run input options).trace.map TraceEntry.step =
        List.range' 1 (p.run input options).trace.length ∧
      ((p.run input options).trace.head?.map TraceEntry.snapshot =
        some ⟨[Mark.finish, p.grammar.name p.grammar.start], input ++ [Mark.finish]⟩) ∧
      (∀ e ∈ (p.run input options).trace,
        (∃ above, e.stack = Mark.finish :: above ∧ Mark.finish ∉ above) ∧
          e.input ≠ [] ∧ e.input <:+ input ++ [Mark.finish]) ∧
      (p.run input options).trace.IsChain
        (fun e next => e.action.Effect p.grammar e.snapshot next.snapshot) ∧
      (p.run input options).syncPoints =
        ((p.run input options).trace.filter (·.action.isSyncPop)).map TraceEntry.recoveryPoint ∧
      (p.run input options).skipPoints =
        ((p.run input options).trace.filter (·.action.isSkipToken)).map TraceEntry.recoveryPoint ∧
      ∃ before last, (p.run input options).trace = before ++ [last] ∧ last.action.isFinal = true ∧
        (p.run input options).trace.filterMap (·.action.consumed?) ++ last.input =
          input ++ [Mark.finish] := by
  obtain ⟨g, hg, rfl⟩ := exists_of_build hp
  obtain ⟨es, last, m, hsteps, hhistory, hfinal, -⟩ := exists_history_eq (generate g) input options
  have hrun : (generate g).run input options =
      (generate g).report (es ++ [⟨last, m⟩]) ((generate g).initial input) := by
    rw [run, hhistory]
  rw [hrun]
  refine ⟨map_step_trace _ _, ?_, ?_, ?_, filterMap_recoveryPoint?_eq isSyncPop_action _ _,
    filterMap_recoveryPoint?_eq isSkipToken_action _ _, ?_⟩
  · rw [head?_trace, hsteps.head?_state m, Option.map_some, snapshot_initial hg]
    rfl
  · have hbased := hsteps.forall_state (Step.based hg) (based_initial hg input) m
    have hsuffix := hsteps.forall_state (P := (·.input <:+ input))
      (fun hstep hs => hstep.input_suffix.trans hs) List.suffix_rfl m
    intro entry hentry
    obtain ⟨⟨e, i⟩, hmem, rfl⟩ := List.mem_map.mp hentry
    have he := List.fst_mem_of_mem_zipIdx hmem
    refine ⟨exists_snapshot_stack_eq hg (hbased e he), by simp [traceEntry], ?_⟩
    obtain ⟨before, hbefore⟩ := hsuffix e he
    exact ⟨before, by rw [← hbefore, List.append_assoc]; rfl⟩
  · apply isChain_trace
    exact (hsteps.isChain m).imp fun e next hstep _ _ => hstep.effect hg
  · refine ⟨(es.zipIdx 1).map (generate g).traceEntry,
      (generate g).traceEntry (⟨last, m⟩, es.length + 1), ?_, hfinal, ?_⟩
    · simp [report, List.zipIdx_append, Nat.add_comm]
    · rw [filterMap_action_trace, List.map_append, List.filterMap_append]
      have hlast : ((generate g).action ⟨last, m⟩).consumed? = none :=
        Action.consumed?_eq_none hfinal
      have hnone : ([⟨last, m⟩].map (generate g).action).filterMap Action.consumed? = [] :=
        List.filterMap_cons_none hlast
      rw [hnone, List.append_nil]
      change _ ++ (last.input ++ [Mark.finish]) = _
      rw [← List.append_assoc, hsteps.consumed]
      rfl

/-- A token that looks like the end mark is passed over, and the next one is matched. -/
theorem trace_replays_loop :
    build loopRules none {} = .ok (generate loopGrammar) ∧
      ((generate loopGrammar).run ["$", "c"] {}).skipPoints = [⟨1, "$", "A"⟩] ∧
      ((generate loopGrammar).run ["$", "c"] {}).trace.map TraceEntry.step = [1, 2, 3, 4] ∧
      ((generate loopGrammar).run ["$", "c"] {}).trace.IsChain
        (fun e next => e.action.Effect loopGrammar e.snapshot next.snapshot) ∧
      ∃ before last, ((generate loopGrammar).run ["$", "c"] {}).trace = before ++ [last] ∧
        last.action.isFinal = true := by
  have hp : build loopRules none {} = .ok (generate loopGrammar) :=
    build_eq_ok (by decide +kernel)
  obtain ⟨hnumbers, -, -, hchain, -, hskip, before, last, htrace, hfinal, -⟩ :=
    trace_replays hp ["$", "c"] {}
  exact ⟨hp, hskip.trans (by decide +kernel), hnumbers.trans (by decide +kernel), hchain, before,
    last, htrace, hfinal⟩

end Parser

end TopDown
