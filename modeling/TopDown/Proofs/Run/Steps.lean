import TopDown.Run.Report

/-!
# Steps of a run

What one step can do, said once: `Parser.Step` has a rule for each kind of move that does not end
the run, with all that has to hold for it. `Parser.step_iff` says that these are the steps that the
automaton takes. Stretches of steps are chained by `Parser.Steps`, and a history is such a stretch
with the event that ends the run behind it.

## Main definitions

* `Parser.Step`, `Parser.Steps`: one step, and a stretch of them
* `Parser.Proceeds`: a stretch of steps without recovery

## Main results

* `Parser.step_iff`: the steps of the automaton
* `Parser.failure_of_move`: what a move that fails can say
* `Parser.historyFrom_of_steps`, `Parser.historyFrom_of_steps_of_le`: a history goes through every
  stretch of steps, as far as it is allowed to
* `Parser.exists_steps`: every history is a stretch of steps with its end
* `Parser.exists_run_eq`: every run is the report of such a history
* `Parser.steps_of_historyFrom_eq`: what is before an event of a history
* `Parser.accepted_iff`: the verdict on a history
-/

namespace TopDown

namespace Parser

variable {p : Parser} {recovery : Recovery}

/-- A step that does not end the run: the state before it, the move and the state after it. -/
inductive Step (p : Parser) (recovery : Recovery) : State → Move → State → Prop where
  | shift {symbol : Nat} {frames : List Frame} {rest : List String}
      (hsymbol : p.grammar.isTerminal symbol = true) :
      Step p recovery ⟨.awaiting symbol frames, p.grammar.name symbol :: rest⟩ .shift
        ⟨.plug p.grammar (p.grammar.leafOf symbol) frames, rest⟩
  | expand {symbol : Nat} {frames : List Frame} {input : List String} {number : Nat}
      {rivals : List Nat} (hsymbol : p.grammar.isTerminal symbol = false)
      (hrow : (p.table.row? symbol).isSome = true)
      (hcell : p.consult symbol input = some (.predict number rivals)) :
      Step p recovery ⟨.awaiting symbol frames, input⟩ (.expand number)
        ⟨.expand p.grammar symbol frames (p.grammar.alternative symbol number), input⟩
  | giveUp {symbol : Nat} {frames : List Frame} {input : List String}
      (hsymbol : p.grammar.isTerminal symbol = false)
      (hrow : (p.table.row? symbol).isSome = true) (hrecovery : recovery = .panic)
      (hcell : p.consult symbol input = some .sync) :
      Step p recovery ⟨.awaiting symbol frames, input⟩ .giveUp
        ⟨.leaveOut p.grammar symbol frames, input⟩
  | passOver {symbol : Nat} {frames : List Frame} {input : List String}
      (hsymbol : p.grammar.isTerminal symbol = false)
      (hrow : (p.table.row? symbol).isSome = true) (hrecovery : recovery = .panic)
      (hcell : p.consult symbol input = some .skip) :
      Step p recovery ⟨.awaiting symbol frames, input⟩ .passOver
        ⟨.awaiting symbol frames, input.tail⟩

/-! ## The steps of the automaton -/

theorem move_awaiting_terminal {symbol : Nat} {frames : List Frame} {input : List String}
    (hsymbol : p.grammar.isTerminal symbol = true) :
    p.move recovery ⟨.awaiting symbol frames, input⟩ =
      if input.head? = some (p.grammar.name symbol) then .shift
      else .fail (.mismatch (p.grammar.name symbol) (input.headD Mark.finish)) := by
  rw [move]
  dsimp only
  rw [if_pos hsymbol, State.token]

theorem move_awaiting_nonterminal {symbol : Nat} {frames : List Frame} {input : List String}
    (hsymbol : p.grammar.isTerminal symbol = false)
    (hrow : (p.table.row? symbol).isSome = true) :
    p.move recovery ⟨.awaiting symbol frames, input⟩ =
      p.moveAtNonterminal recovery symbol ⟨.awaiting symbol frames, input⟩ := by
  obtain ⟨row, hrow⟩ := Option.isSome_iff_exists.mp hrow
  rw [move]
  dsimp only
  rw [if_neg (Bool.not_eq_true _ ▸ hsymbol), hrow]

theorem Step.move_eq {s next : State} {m : Move} (h : p.Step recovery s m next) :
    p.move recovery s = m := by
  cases h with
  | shift hsymbol =>
    rw [move_awaiting_terminal hsymbol]
    simp
  | expand hsymbol hrow hcell =>
    simp only [move_awaiting_nonterminal hsymbol hrow, moveAtNonterminal, hcell]
  | giveUp hsymbol hrow hrecovery hcell =>
    simp only [move_awaiting_nonterminal hsymbol hrow, moveAtNonterminal, hcell, hrecovery]
  | passOver hsymbol hrow hrecovery hcell =>
    simp only [move_awaiting_nonterminal hsymbol hrow, moveAtNonterminal, hcell, hrecovery]

theorem Step.advance_eq {s next : State} {m : Move} (h : p.Step recovery s m next) :
    p.advance s m = some next := by
  cases h <;> rfl

/-- There is at most one step from a state. -/
theorem Step.unique {s next next' : State} {m m' : Move} (h : p.Step recovery s m next)
    (h' : p.Step recovery s m' next') : m = m' ∧ next = next' := by
  obtain rfl : m = m' := h.move_eq.symm.trans h'.move_eq
  have hnext : some next = some next' := h.advance_eq.symm.trans h'.advance_eq
  exact ⟨rfl, Option.some.inj hnext⟩

/-- A move that does not end the run is one of the four kinds. -/
theorem step_of_advance {s next : State} (h : p.advance s (p.move recovery s) = some next) :
    p.Step recovery s (p.move recovery s) next := by
  obtain ⟨focus, input⟩ := s
  cases focus with
  | complete t =>
    cases input <;> cases h
  | awaiting symbol frames =>
    cases hsymbol : p.grammar.isTerminal symbol with
    | true =>
      rw [move_awaiting_terminal hsymbol] at h ⊢
      split at h
      · next hhead =>
        obtain ⟨rest, rfl⟩ := List.head?_eq_some_iff.mp hhead
        cases h
        rw [if_pos hhead]
        exact .shift hsymbol
      · cases h
    | false =>
      cases hrow : p.table.row? symbol with
      | none =>
        simp [move, hsymbol, hrow, advance] at h
      | some row =>
        have hrow : (p.table.row? symbol).isSome = true := by simp [hrow]
        rw [move_awaiting_nonterminal hsymbol hrow] at h ⊢
        generalize hm : p.moveAtNonterminal recovery symbol _ = m at h ⊢
        unfold moveAtNonterminal at hm
        split at hm
        · next hcell =>
          subst hm
          cases h
          exact .expand hsymbol hrow hcell
        · next hcell =>
          subst hm
          cases h
          exact .giveUp hsymbol hrow rfl hcell
        · next hcell =>
          subst hm
          cases h
          exact .passOver hsymbol hrow rfl hcell
        · subst hm
          cases h

/-- **The steps of the automaton.** -/
theorem step_iff {s next : State} {m : Move} :
    p.Step recovery s m next ↔ p.move recovery s = m ∧ p.advance s m = some next := by
  constructor
  · exact fun h => ⟨h.move_eq, h.advance_eq⟩
  · rintro ⟨rfl, h⟩
    exact step_of_advance h

/-- A move that fails names a symbol and the token that comes next, or a symbol that is unknown. -/
theorem failure_of_move {s : State} {failure : Failure}
    (h : p.move recovery s = .fail failure) :
    (∃ symbol, failure = .mismatch (p.grammar.name symbol) s.token) ∨
      (∃ symbol, failure = .noProduction (p.grammar.name symbol) s.token) ∨
        ∃ symbol, failure = .unknownSymbol (p.grammar.name symbol) := by
  obtain ⟨focus, input⟩ := s
  cases focus with
  | complete t =>
    cases input with
    | nil => cases h
    | cons token rest =>
      cases h
      exact Or.inl ⟨_, rfl⟩
  | awaiting symbol frames =>
    unfold move moveAtNonterminal at h
    dsimp only at h
    split at h
    · split at h <;> cases h
      exact Or.inl ⟨_, rfl⟩
    · split at h
      · split at h <;> cases h
        exact Or.inr (Or.inl ⟨_, rfl⟩)
      · cases h
        exact Or.inr (Or.inr ⟨_, rfl⟩)

/-- No move says that the steps are used up. -/
theorem move_ne_stepLimit (s : State) (limit : Nat) :
    p.move recovery s ≠ .fail (.stepLimit limit) := by
  intro h
  rcases failure_of_move h with ⟨_, hfailure⟩ | ⟨_, hfailure⟩ | ⟨_, hfailure⟩ <;> cases hfailure

/-! ## Stretches of steps -/

/-- A stretch of steps: the state before it, its events and the state after it. -/
inductive Steps (p : Parser) (recovery : Recovery) : State → List Event → State → Prop where
  | refl (s : State) : Steps p recovery s [] s
  | cons {s next last : State} {m : Move} {es : List Event} (h : p.Step recovery s m next)
      (hs : Steps p recovery next es last) : Steps p recovery s (⟨s, m⟩ :: es) last

namespace Steps

variable {s mid last : State} {es es' : List Event}

theorem single {m : Move} (h : p.Step recovery s m last) : p.Steps recovery s [⟨s, m⟩] last :=
  cons h (refl last)

theorem trans (h : p.Steps recovery s es mid) (h' : p.Steps recovery mid es' last) :
    p.Steps recovery s (es ++ es') last := by
  induction h with
  | refl => exact h'
  | cons hstep _ ih =>
    apply cons hstep
    exact ih h'

/-- The events of a stretch are moves of the automaton. -/
theorem move_eq (h : p.Steps recovery s es last) :
    ∀ e ∈ es, e.move = p.move recovery e.state := by
  induction h with
  | refl => simp
  | cons hstep _ ih => exact List.forall_mem_cons.mpr ⟨hstep.move_eq.symm, ih⟩

end Steps

/-! ## Stretches without recovery -/

section Proceeds

variable {s mid last : State} {m n : Nat}

/-- A number of steps lead from one state to another, none of which recovers from an error. -/
def Proceeds (p : Parser) (recovery : Recovery) (n : Nat) (s last : State) : Prop :=
  ∃ es, p.Steps recovery s es last ∧ es.length = n ∧
    ∀ e ∈ es, e.move ≠ .giveUp ∧ e.move ≠ .passOver

namespace Proceeds

theorem refl (s : State) : p.Proceeds recovery 0 s s :=
  ⟨[], .refl s, rfl, by simp⟩

theorem of_step {m : Move} (h : p.Step recovery s m last)
    (hm : m ≠ .giveUp ∧ m ≠ .passOver) : p.Proceeds recovery 1 s last :=
  ⟨_, .single h, rfl, by simpa using hm⟩

theorem trans (h : p.Proceeds recovery m s mid) (h' : p.Proceeds recovery n mid last) :
    p.Proceeds recovery (m + n) s last := by
  obtain ⟨es, hsteps, rfl, hes⟩ := h
  obtain ⟨es', hsteps', rfl, hes'⟩ := h'
  refine ⟨es ++ es', hsteps.trans hsteps', List.length_append, ?_⟩
  intro e he
  rcases List.mem_append.mp he with he | he
  · exact hes e he
  · exact hes' e he

end Proceeds

end Proceeds

/-! ## Histories -/

section History

variable {s last : State} {es : List Event} (limit : Nat)

theorem historyFrom_of_step {next : State} {m : Move} (h : p.Step recovery s m next) (k : Nat) :
    p.historyFrom recovery limit (k + 1) s =
      ⟨s, m⟩ :: p.historyFrom recovery limit k next := by
  rw [historyFrom, h.move_eq, h.advance_eq]

theorem historyFrom_of_final (h : p.advance s (p.move recovery s) = none) (k : Nat) :
    p.historyFrom recovery limit (k + 1) s = [⟨s, p.move recovery s⟩] := by
  rw [historyFrom, h]

/-- A history goes through every stretch of steps that it is allowed to make. -/
theorem historyFrom_of_steps (h : p.Steps recovery s es last) (k : Nat) :
    p.historyFrom recovery limit (es.length + k) s =
      es ++ p.historyFrom recovery limit k last := by
  induction h with
  | refl => simp
  | @cons s next last m es hstep _ ih =>
    rw [List.length_cons, Nat.add_right_comm, historyFrom_of_step limit hstep, ih,
      List.cons_append]

/-- A history that may make no step after a stretch, or not all of it, stops for want of steps. -/
theorem historyFrom_of_steps_of_le (h : p.Steps recovery s es last) {k : Nat}
    (hk : k ≤ es.length) : ∃ s', p.historyFrom recovery limit k s =
      es.take k ++ [⟨s', .fail (.stepLimit limit)⟩] := by
  induction h generalizing k with
  | refl s =>
    obtain rfl : k = 0 := Nat.le_zero.mp hk
    exact ⟨s, rfl⟩
  | @cons s next last m es hstep _ ih =>
    cases k with
    | zero => exact ⟨s, rfl⟩
    | succ k =>
      obtain ⟨s', hs'⟩ := ih (Nat.le_of_succ_le_succ hk)
      refine ⟨s', ?_⟩
      rw [historyFrom_of_step limit hstep, hs', List.take_succ_cons, List.cons_append]

/-- **Every history is a stretch of steps with its end**: the move of the last state if it ends the
run, or the report that the steps are used up. -/
theorem exists_steps (p : Parser) (recovery : Recovery) (limit k : Nat) (s : State) :
    ∃ es last m, p.Steps recovery s es last ∧
      p.historyFrom recovery limit k s = es ++ [⟨last, m⟩] ∧
      ((es.length = k ∧ m = .fail (.stepLimit limit)) ∨
        (es.length < k ∧ m = p.move recovery last ∧ p.advance last m = none)) := by
  induction k generalizing s with
  | zero => exact ⟨[], s, _, .refl s, rfl, Or.inl ⟨rfl, rfl⟩⟩
  | succ k ih =>
    cases hnext : p.advance s (p.move recovery s) with
    | none =>
      exact ⟨[], s, _, .refl s, historyFrom_of_final limit hnext k,
        Or.inr ⟨Nat.succ_pos k, rfl, hnext⟩⟩
    | some next =>
      obtain ⟨es, last, m, hsteps, hhistory, hend⟩ := ih next
      have hstep := step_of_advance hnext
      refine ⟨_ :: es, last, m, .cons hstep hsteps, ?_, ?_⟩
      · rw [historyFrom_of_step limit hstep, hhistory, List.cons_append]
      · rw [List.length_cons, Nat.add_right_cancel_iff, Nat.add_lt_add_iff_right]
        exact hend

/-- Before any event of a history is a stretch of steps, and the event is the move of its state
unless the steps are used up. -/
theorem steps_of_historyFrom_eq {e : Event} {rest : List Event} {k : Nat}
    (h : p.historyFrom recovery limit k s = es ++ e :: rest) :
    p.Steps recovery s es e.state ∧
      (e.move = p.move recovery e.state ∨ e.move = .fail (.stepLimit limit)) := by
  induction es generalizing k s with
  | nil =>
    cases k with
    | zero =>
      obtain ⟨rfl, -⟩ := List.cons.inj h
      exact ⟨.refl s, Or.inr rfl⟩
    | succ k =>
      rw [historyFrom] at h
      obtain ⟨rfl, -⟩ := List.cons.inj h
      exact ⟨.refl s, Or.inl rfl⟩
  | cons first es ih =>
    cases k with
    | zero =>
      obtain ⟨-, hnil⟩ := List.cons.inj h
      simp at hnil
    | succ k =>
      rw [historyFrom] at h
      obtain ⟨rfl, htail⟩ := List.cons.inj h
      split at htail
      · next next hnext =>
        obtain ⟨hsteps, hmove⟩ := ih htail
        exact ⟨.cons (step_of_advance hnext) hsteps, hmove⟩
      · simp at htail

end History

/-! ## Actions -/

section Actions

variable {e : Event}

theorem move_of_action_eq_error {failure : Failure} (h : p.action e = .error failure) :
    e.move = .fail failure := by
  unfold action at h
  split at h <;> cases h
  assumption

theorem move_of_action_eq_syncPop {left : String} (h : p.action e = .syncPop left) :
    e.move = .giveUp ∧ p.grammar.name (p.current e.state) = left := by
  unfold action at h
  split at h <;> cases h
  next hmove => exact ⟨hmove, rfl⟩

theorem move_of_action_eq_skipToken {token : String} (h : p.action e = .skipToken token) :
    e.move = .passOver ∧ e.state.token = token := by
  unfold action at h
  split at h <;> cases h
  next hmove => exact ⟨hmove, rfl⟩

end Actions

/-! ## The report -/

section Report

variable (history : List Event) (e : Event) (s : State)

theorem length_trace_report : (p.report history s).trace.length = history.length := by
  simp [report]

/-- The last entry of the trace is that of the last event. -/
theorem lastAction?_report :
    (p.report (history ++ [e]) s).lastAction? = some (p.action e) := by
  simp [report, Run.lastAction?, List.zipIdx_append, traceEntry]

/-- An entry of the trace belongs to an event with as many events before it. -/
theorem exists_of_trace_report_eq {before after : List TraceEntry} {entry : TraceEntry}
    (h : (p.report history s).trace = before ++ entry :: after) :
    ∃ es e rest, history = es ++ e :: rest ∧ before = (es.zipIdx 1).map p.traceEntry ∧
      entry = p.traceEntry (e, es.length + 1) := by
  change (history.zipIdx 1).map p.traceEntry = before ++ entry :: after at h
  obtain ⟨numbered, others, hnumbered, hbefore, hothers⟩ := List.map_eq_append_iff.mp h
  obtain ⟨e, others, rfl, hentry, -⟩ := List.map_eq_cons_iff.mp hothers
  obtain ⟨es, rest, rfl, hes, hrest⟩ := List.zipIdx_eq_append_iff.mp hnumbered
  obtain ⟨e, rest, rfl, rfl, -⟩ := List.zipIdx_eq_cons_iff.mp hrest.symm
  refine ⟨es, e, rest, rfl, ?_, ?_⟩
  · rw [← hbefore, hes]
  · rw [← hentry, Nat.add_comm]

/-- The tree of a report is that of the last state. -/
theorem tree_report : (p.report (history ++ [e]) s).tree = e.state.focus.tree p.grammar := by
  simp [report, finalTree]

end Report

/-- **A run reports a stretch of steps with its end.** -/
theorem exists_run_eq (p : Parser) (input : List String) (options : RunOptions) :
    ∃ es last m, p.Steps options.recovery (p.initial input) es last ∧
      p.run input options = p.report (es ++ [⟨last, m⟩]) (p.initial input) ∧
      ((es.length = options.maxSteps ∧ m = .fail (.stepLimit options.maxSteps)) ∨
        (es.length < options.maxSteps ∧ m = p.move options.recovery last ∧
          p.advance last m = none)) := by
  obtain ⟨es, last, m, hsteps, hhistory, hend⟩ := exists_steps p options.recovery
    options.maxSteps options.maxSteps (p.initial input)
  exact ⟨es, last, m, hsteps, by rw [run, history, hhistory], hend⟩

theorem recoveryPoint?_eq_none_iff {m : Move} {e : Event × Nat} :
    p.recoveryPoint? m e = none ↔ e.1.move ≠ m := by
  simp [recoveryPoint?]

/-- Every event of a history is numbered. -/
theorem exists_mem_zipIdx {history : List Event} {e : Event} (he : e ∈ history) (k : Nat) :
    ∃ i, (e, i) ∈ history.zipIdx k := by
  rw [← List.zipIdx_map_fst k history] at he
  obtain ⟨⟨e, i⟩, hmem, rfl⟩ := List.mem_map.mp he
  exact ⟨i, hmem⟩

/-- No recovery of a kind is reported of a history without moves of that kind. -/
theorem filterMap_recoveryPoint?_eq_nil_iff {m : Move} {history : List Event} (k : Nat) :
    (history.zipIdx k).filterMap (p.recoveryPoint? m) = [] ↔ ∀ e ∈ history, e.move ≠ m := by
  rw [List.filterMap_eq_nil_iff]
  constructor
  · intro h e he
    obtain ⟨i, hmem⟩ := exists_mem_zipIdx he k
    exact recoveryPoint?_eq_none_iff.mp (h _ hmem)
  · rintro h ⟨e, i⟩ he
    exact recoveryPoint?_eq_none_iff.mpr (h e (List.fst_mem_of_mem_zipIdx he))

/-- A recovery is reported for every move of its kind. -/
theorem length_filterMap_recoveryPoint? (m : Move) (history : List Event) (k : Nat) :
    ((history.zipIdx k).filterMap (p.recoveryPoint? m)).length =
      history.countP (·.move = m) := by
  induction history generalizing k with
  | nil => rfl
  | cons e history ih =>
    by_cases he : e.move = m
    · simp [recoveryPoint?, he, ih]
    · simp [recoveryPoint?, he, ih]

theorem length_syncPoints {history : List Event} {s : State} :
    (p.report history s).syncPoints.length = history.countP (·.move = .giveUp) :=
  length_filterMap_recoveryPoint? .giveUp history 1

theorem syncPoints_eq_nil_iff {history : List Event} {s : State} :
    (p.report history s).syncPoints = [] ↔ ∀ e ∈ history, e.move ≠ .giveUp :=
  filterMap_recoveryPoint?_eq_nil_iff 1

theorem skipPoints_eq_nil_iff {history : List Event} {s : State} :
    (p.report history s).skipPoints = [] ↔ ∀ e ∈ history, e.move ≠ .passOver :=
  filterMap_recoveryPoint?_eq_nil_iff 1

/-- **The verdict on a history**: accepted are those that end with that move and hold no
recovery. -/
theorem accepted_iff {history : List Event} {s : State} :
    (p.report history s).accepted = true ↔
      (∃ e, history.getLast? = some e ∧ e.move = .accept) ∧
        ∀ e ∈ history, e.move ≠ .giveUp ∧ e.move ≠ .passOver := by
  have hsync : (p.report history s).syncPoints = [] ↔ _ := syncPoints_eq_nil_iff
  have hskip : (p.report history s).skipPoints = [] ↔ _ := skipPoints_eq_nil_iff
  change (_ && List.isEmpty (p.report history s).syncPoints &&
    List.isEmpty (p.report history s).skipPoints) = true ↔ _
  rw [Bool.and_eq_true, Bool.and_eq_true, List.isEmpty_iff, List.isEmpty_iff, hsync, hskip,
    Option.any_eq_true]
  simp only [beq_iff_eq]
  constructor
  · rintro ⟨⟨hlast, hsync⟩, hskip⟩
    exact ⟨hlast, fun e he => ⟨hsync e he, hskip e he⟩⟩
  · rintro ⟨hlast, hall⟩
    exact ⟨⟨hlast, fun e he => (hall e he).1⟩, fun e he => (hall e he).2⟩

end Parser

end TopDown
