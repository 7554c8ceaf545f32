import Mathlib.Order.Bounds.Defs
import TopDown.Proofs.Run.Termination

/-!
# Errors are met at the earliest token

As long as a run of an LL(1) grammar matches and expands only, the tokens that it has matched are
the beginning of a sentential form. When it does anything else for the first time, then no longer
part of the input begins a sentential form: the token that comes next is the first that cannot
stand there. So an error is never met too late, although an expansion by an alternative that
vanishes may be made on a wrong token.

What has been matched, with the stack behind it, is derived from the start symbol and the end mark
(`State.Continues`); hence it can be gone on with. And as long as the stack derives a string that
begins with the tokens that come next (`State.Expects`), the automaton has only one step to make,
which matches or expands, and after it the stack still does.

## Main definitions

* `Grammar.ViableTokens`: tokens that some sentential form begins with
* `Run.DecidedAt`: the first entry of a trace that does not match or expand
* `State.Continues`, `State.Expects`: the two invariants

## Main results

* `Parser.Step.continues`, `Parser.Steps.continues`: what is matched begins a sentential form
* `Parser.exists_step_of_expects`, `Parser.Steps.expects`: what is expected is matched
* `Parser.isGreatest_of_steps`: the longest part of the input that begins a sentential form
* `Parser.isGreatest_matches`: errors are met at the earliest token
-/

namespace TopDown

/-- Tokens that are the names of terminals that some sentential form begins with. -/
def Grammar.ViableTokens (g : Grammar) (tokens : List String) : Prop :=
  ∃ α, α.map g.name = tokens ∧ (∀ s ∈ α, g.isTerminal s = true) ∧ g.Viable α

namespace Action

/-- The action matches a token. -/
def isMatch : Action → Bool
  | matchToken _ => true
  | _ => false

/-- The action matches a token or expands a nonterminal. -/
def isRegular : Action → Bool
  | matchToken _ => true
  | apply _ => true
  | _ => false

/-- The token that an action was taken on, if it says so. -/
def token? : Action → Option String
  | matchToken token => some token
  | skipToken token => some token
  | error (.mismatch _ found) => some found
  | error (.noProduction _ token) => some token
  | _ => none

end Action

/-- The first entry of a trace that neither matches nor expands: those before it do, and it was not
written for want of steps. -/
structure Run.DecidedAt (r : Run) (before : List TraceEntry) (entry : TraceEntry) : Prop where
  trace_eq : ∃ after, r.trace = before ++ entry :: after
  regular : ∀ e ∈ before, e.action.isRegular = true
  decides : entry.action.isRegular = false
  inSteps : ∀ limit, entry.action ≠ .error (.stepLimit limit)

/-- The terminals have been matched, what is left of the tokens comes after them, and what is left
on the stack comes after them in a string derived from the start symbol and the end mark. -/
structure State.Continues (g : Grammar) (tokens : List String) (α : List Nat) (s : State) :
    Prop where
  derives : g.Derives [g.start, g.finish] (α ++ s.focus.stack g)
  isTerminal : ∀ t ∈ α, g.isTerminal t = true
  names : α.map g.name ++ s.input = tokens

/-- The terminals come next, and the stack derives a string that begins with them. -/
structure State.Expects (g : Grammar) (α : List Nat) (s : State) : Prop where
  derives : ∃ β, g.Derives (s.focus.stack g) (α ++ β)
  followed : g.Followed (s.focus.stack g)
  isTerminal : ∀ t ∈ α, g.isTerminal t = true ∧ t < g.finish
  names : ∃ rest, s.input = α.map g.name ++ rest

namespace Parser

variable {g : Grammar} {recovery : Recovery} {s next last : State} {α : List Nat}
  {tokens : List String}

/-! ## What has been matched -/

/-- The stack of a state ends with the end mark. -/
theorem exists_stack_eq (g : Grammar) (s : State) : ∃ γ, s.focus.stack g = γ ++ [g.finish] := by
  obtain ⟨focus, input⟩ := s
  cases focus with
  | awaiting symbol frames => exact ⟨symbol :: frames.flatMap Frame.todo, rfl⟩
  | complete t => exact ⟨[], rfl⟩

/-- Terminals that have been matched begin a sentential form. -/
theorem viable_of_continues (hg : g.WellFormed) (h : s.Continues g tokens α) : g.Viable α := by
  obtain ⟨γ, hγ⟩ := exists_stack_eq g s
  have hderives := h.derives
  rw [hγ, ← List.append_assoc] at hderives
  obtain ⟨γ₁, γ₂, heq, hstart, hfinish⟩ := Grammar.Derives.exists_append (α := [g.start]) hderives
  obtain rfl := hfinish.eq_of_isTerminal hg.isTerminal_finish
  obtain ⟨rfl, -⟩ := List.append_inj' heq rfl
  exact ⟨γ, hstart⟩

/-- A step that matches or expands continues what has been matched. -/
theorem Step.continues (hg : g.WellFormed) {m : Move} (h : (generate g).Step recovery s m next)
    (hm : m ≠ .giveUp ∧ m ≠ .passOver) (hs : s.Continues g tokens α) :
    ∃ α', next.Continues g tokens α' ∧
      α'.length = α.length + if m = .shift then 1 else 0 := by
  obtain ⟨hderives, hterminal, hnames⟩ := hs
  cases h with
  | @shift symbol frames rest hsymbol =>
    refine ⟨α ++ [symbol], ⟨?_, ?_, ?_⟩, by simp⟩
    · change g.Derives _ (α ++ [symbol] ++ (Focus.plug g _ frames).stack g)
      rw [Focus.stack_plug, List.append_assoc]
      exact hderives
    · intro t ht
      rcases List.mem_append.mp ht with ht | ht
      · exact hterminal t ht
      · obtain rfl := List.mem_singleton.mp ht
        exact hsymbol
    · rw [List.map_append, List.append_assoc]
      exact hnames
  | @expand symbol frames input number rivals _ _ hcell =>
    have halt := mem_alternatives_of_consult hg hcell
    refine ⟨α, ⟨?_, hterminal, hnames⟩, by simp⟩
    change g.Derives _ (α ++ (Focus.expand g symbol frames _).stack g)
    rw [Focus.stack_expand]
    exact hderives.step halt
  | giveUp => exact absurd rfl hm.1
  | passOver => exact absurd rfl hm.2

/-- **What has been matched begins a sentential form**, as long as there is no recovery. -/
theorem Steps.continues (hg : g.WellFormed) {es : List Event}
    (h : (generate g).Steps recovery s es last)
    (hes : ∀ e ∈ es, e.move ≠ .giveUp ∧ e.move ≠ .passOver) (hs : s.Continues g tokens α) :
    ∃ α', last.Continues g tokens α' ∧ α'.length = α.length + es.countP (·.move = .shift) := by
  induction h generalizing α with
  | refl => exact ⟨α, hs, by simp⟩
  | @cons s next last m es hstep _ ih =>
    obtain ⟨hm, hrest⟩ := List.forall_mem_cons.mp hes
    obtain ⟨α₁, hnext, hlength⟩ := hstep.continues hg hm hs
    obtain ⟨α₂, hlast, hlength'⟩ := ih hrest hnext
    refine ⟨α₂, hlast, ?_⟩
    rw [hlength', hlength, List.countP_cons]
    simp only [decide_eq_true_eq]
    omega

/-! ## What comes next -/

/-- **The automaton makes the step that is expected of it**: if the stack derives a string that
begins with a token that comes next, then this token is matched, or the nonterminal before it is
expanded. -/
theorem exists_step_of_expects (hg : g.WellFormed) (hll1 : (generate g).table.isLL1 = true)
    (recovery : Recovery) {t : Nat} (h : s.Expects g (t :: α)) :
    ∃ m next, (generate g).Step recovery s m next ∧
      (m = .shift ∧ next.Expects g α ∨ (∃ n, m = .expand n) ∧ next.Expects g (t :: α)) := by
  obtain ⟨⟨β, hβ⟩, hfollowed, hterminal, rest, hnames⟩ := h
  obtain ⟨⟨ht, hlt⟩, hα⟩ := List.forall_mem_cons.mp hterminal
  obtain ⟨focus, input⟩ := s
  obtain rfl : input = g.name t :: (α.map g.name ++ rest) := hnames
  cases focus with
  | complete tree =>
    have heq := Grammar.Derives.eq_of_isTerminal hg.isTerminal_finish hβ
    obtain ⟨rfl, -⟩ := List.cons.inj heq
    exact absurd hlt (Nat.lt_irrefl _)
  | awaiting symbol frames =>
    rcases Grammar.Derives.cases_cons hβ with ⟨γ, heq, hγ⟩ | ⟨δ, hδ, hderives⟩
    · obtain ⟨rfl, rfl⟩ := List.cons.inj heq
      refine ⟨.shift, _, .shift ht, Or.inl ⟨rfl, ⟨β, ?_⟩, ?_, hα, rest, rfl⟩⟩
      · change g.Derives ((Focus.plug g _ frames).stack g) (α ++ β)
        rw [Focus.stack_plug]
        exact hγ
      · change g.Followed ((Focus.plug g _ frames).stack g)
        rw [Focus.stack_plug]
        exact hfollowed.2
    · have hselects : Selects g (g.name t :: (α.map g.name ++ rest))
          (δ ++ Focus.waiting g frames) :=
        ⟨t, nextTerminal?_name hg ht hlt _, Grammar.mem_firstOf_iff.mpr ⟨ht, α ++ β, hderives⟩⟩
      obtain ⟨n, hstep⟩ := exists_step_expand recovery hll1 hδ hfollowed hselects
      refine ⟨.expand n, _, hstep, Or.inr ⟨⟨n, rfl⟩, ⟨β, ?_⟩, ?_, hterminal, rest, rfl⟩⟩
      · rw [Focus.stack_expand]
        exact hderives
      · rw [Focus.stack_expand]
        exact hfollowed.replace_head (Catalog.isNonterminal_of_mem hδ) [] hδ

/-- **What is expected is matched**: a stretch of steps has matched all that was expected, or what
is left of it is still expected. -/
theorem Steps.expects (hg : g.WellFormed) (hll1 : (generate g).table.isLL1 = true)
    {es : List Event} (h : (generate g).Steps recovery s es last) (hs : s.Expects g α)
    (hlt : es.countP (·.move = .shift) < α.length) :
    last.Expects g (α.drop (es.countP (·.move = .shift))) := by
  induction h generalizing α with
  | refl => exact hs
  | @cons s next last m es hstep _ ih =>
    cases α with
    | nil => cases hlt
    | cons t α =>
      obtain ⟨m', next', hstep', hcases⟩ := exists_step_of_expects hg hll1 recovery hs
      obtain ⟨rfl, rfl⟩ := hstep.unique hstep'
      rcases hcases with ⟨rfl, hnext⟩ | ⟨⟨n, rfl⟩, hnext⟩
      · simp only [List.countP_cons, List.length_cons, decide_true, if_true] at hlt ⊢
        rw [List.drop_succ_cons]
        exact ih hnext (by omega)
      · simp only [List.countP_cons, List.length_cons, reduceCtorEq, decide_false,
          Bool.false_eq_true, if_false, Nat.add_zero] at hlt ⊢
        exact ih hnext hlt

/-! ## The first step of another kind -/

theorem isRegular_action_iff {p : Parser} {e : Event} :
    (p.action e).isRegular = true ↔ e.move = .shift ∨ ∃ n, e.move = .expand n := by
  unfold action
  split <;> simp_all [Action.isRegular]

theorem isMatch_action {p : Parser} (e : Event) :
    (p.action e).isMatch = decide (e.move = .shift) := by
  unfold action
  split <;> simp_all [Action.isMatch]

/-- Where the automaton neither matches nor expands, all that was expected has been matched. -/
theorem length_le_of_expects (hg : g.WellFormed) (hll1 : (generate g).table.isLL1 = true)
    {es : List Event} (h : (generate g).Steps recovery s es last) (hs : s.Expects g α)
    (hlast : ¬ ((generate g).move recovery last = .shift ∨
      ∃ n, (generate g).move recovery last = .expand n)) :
    α.length ≤ es.countP (·.move = .shift) := by
  by_contra hlt
  have hleft := h.expects hg hll1 hs (by omega)
  cases hrest : α.drop (es.countP (·.move = .shift)) with
  | nil =>
    rw [List.drop_eq_nil_iff] at hrest
    omega
  | cons t β =>
    rw [hrest] at hleft
    obtain ⟨m, next, hstep, hcases⟩ := exists_step_of_expects hg hll1 recovery hleft
    rw [hstep.move_eq] at hlast
    apply hlast
    rcases hcases with ⟨hm, -⟩ | ⟨hm, -⟩
    · exact Or.inl hm
    · exact Or.inr hm

/-- At the start, any beginning of the input that begins a sentential form is expected. -/
theorem exists_expects_initial (hg : g.WellFormed) {input : List String} {k : Nat}
    (hk : k ≤ input.length) (h : g.ViableTokens (input.take k)) :
    ∃ α, α.length = k ∧ ((generate g).initial input).Expects g α := by
  obtain ⟨α, hα, hterminal, γ, hγ⟩ := h
  have hlength : α.length = k := by
    have hmap := congrArg List.length hα
    rw [List.length_map, List.length_take] at hmap
    omega
  have hfinish : ∀ t ∈ α ++ γ, t < g.finish :=
    hγ.lt_finish hg (by simpa using hg.start_lt_finish)
  refine ⟨α, hlength, ⟨γ ++ [g.finish], ?_⟩, .start_finish hg, ?_, input.drop k, ?_⟩
  · have hend := hγ.append (Grammar.Derives.refl (α := [g.finish]))
    rw [List.append_assoc] at hend
    exact hend
  · intro t ht
    exact ⟨hterminal t ht, hfinish t (List.mem_append_left _ ht)⟩
  · rw [hα]
    exact (List.take_append_drop k input).symm

/-- **Where the automaton neither matches nor expands**, it has matched the longest part of the
input that begins a sentential form. -/
theorem isGreatest_of_steps (hg : g.WellFormed) (hll1 : (generate g).table.isLL1 = true)
    {input : List String} {es : List Event}
    (h : (generate g).Steps recovery ((generate g).initial input) es last)
    (hes : ∀ e ∈ es, e.move ≠ .giveUp ∧ e.move ≠ .passOver)
    (hlast : ¬ ((generate g).move recovery last = .shift ∨
      ∃ n, (generate g).move recovery last = .expand n)) :
    IsGreatest {k | k ≤ input.length ∧ g.ViableTokens (input.take k)}
        (es.countP (·.move = .shift)) ∧
      last.input = input.drop (es.countP (·.move = .shift)) := by
  have hinitial : ((generate g).initial input).Continues g input [] := ⟨.refl, by simp, rfl⟩
  obtain ⟨α, hα, hlength⟩ := h.continues hg hes hinitial
  have hnames := hα.names
  have hmatched : (α.map g.name).length = es.countP (·.move = .shift) := by simpa using hlength
  refine ⟨⟨⟨?_, ?_⟩, ?_⟩, ?_⟩
  · rw [← hmatched, ← hnames, List.length_append]
    exact Nat.le_add_right _ _
  · refine ⟨α, ?_, hα.isTerminal, viable_of_continues hg hα⟩
    rw [← hmatched, ← hnames, List.take_left]
  · rintro k ⟨hk, hviable⟩
    obtain ⟨β, rfl, hexpects⟩ := exists_expects_initial hg hk hviable
    exact length_le_of_expects hg hll1 h hexpects hlast
  · rw [← hmatched, ← hnames, List.drop_left]

/-! ## Reports -/

/-- Whatever token an action names, it is the one that comes next. -/
theorem eq_token_of_action {p : Parser} {token : String}
    (h : (p.action ⟨s, p.move recovery s⟩).token? = some token) : token = s.token := by
  cases hmove : p.move recovery s with
  | accept => simp [action, hmove, Action.token?] at h
  | shift => simpa [action, hmove, Action.token?] using h.symm
  | expand n => simp [action, hmove, Action.token?] at h
  | giveUp => simp [action, hmove, Action.token?] at h
  | passOver => simpa [action, hmove, Action.token?] using h.symm
  | fail failure =>
    rcases failure_of_move hmove with ⟨_, rfl⟩ | ⟨_, rfl⟩ | ⟨_, rfl⟩
    · simpa [action, hmove, Action.token?] using h.symm
    · simpa [action, hmove, Action.token?] using h.symm
    · simp [action, hmove, Action.token?] at h

/-- The matches among the entries are the matches among the events. -/
theorem countP_isMatch {p : Parser} (es : List Event) :
    ((es.zipIdx 1).map p.traceEntry).countP (·.action.isMatch) =
      es.countP (·.move = .shift) := by
  have hentry : ∀ e : Event × Nat, (p.traceEntry e).action.isMatch =
      decide (e.1.move = .shift) := fun e => isMatch_action e.1
  have hnumbers : (es.zipIdx 1).countP (fun e => decide (e.1.move = .shift)) =
      ((es.zipIdx 1).map Prod.fst).countP (·.move = .shift) := by
    rw [List.countP_map]
    rfl
  rw [List.countP_map]
  simp only [Function.comp_def, hentry]
  rw [hnumbers, List.zipIdx_map_fst]

/-- The first recovery of a kind that is reported is the first that is made. -/
theorem head?_recoveryPoints {p : Parser} {m : Move} {es rest : List Event} {e : Event}
    (hes : ∀ e ∈ es, e.move ≠ m) (he : e.move = m) :
    (((es ++ e :: rest).zipIdx 1).filterMap (p.recoveryPoint? m)).head? =
      some ⟨es.length + 1, e.state.token, p.grammar.name (p.current e.state)⟩ := by
  have hnone := (filterMap_recoveryPoint?_eq_nil_iff (p := p) 1).mpr hes
  rw [List.zipIdx_append, List.filterMap_append, hnone, List.nil_append, List.zipIdx_cons,
    Nat.add_comm 1]
  simp [recoveryPoint?, he]

/-- A move that matches or expands does not end the run. -/
theorem advance_ne_none {p : Parser} (h : p.move recovery s = .shift ∨
    ∃ n, p.move recovery s = .expand n) : p.advance s (p.move recovery s) ≠ none := by
  obtain ⟨focus, input⟩ := s
  cases focus with
  | complete t =>
    cases input with
    | nil => simp [move] at h
    | cons token rest => simp [move] at h
  | awaiting symbol frames =>
    rcases h with h | ⟨n, h⟩
    · rw [h]
      simp [advance]
    · rw [h]
      simp [advance]

/-- All events of a run that was not stopped by the limit are moves of the automaton, and the last
one ends the run. -/
theorem exists_last_of_not_outOfSteps {p : Parser} {input : List String} {options : RunOptions}
    (h : ¬ (p.run input options).OutOfSteps) :
    (∀ e ∈ p.history input options, e.move = p.move options.recovery e.state) ∧
      ∃ e ∈ p.history input options,
        p.advance e.state (p.move options.recovery e.state) = none := by
  obtain ⟨es, last, m, hsteps, hhistory, hend⟩ := exists_steps p options.recovery
    options.maxSteps options.maxSteps (p.initial input)
  have hhistory : p.history input options = es ++ [⟨last, m⟩] := hhistory
  have hmove : m = p.move options.recovery last ∧ p.advance last m = none := by
    rcases hend with ⟨-, rfl⟩ | ⟨-, hmove⟩
    · exfalso
      apply h
      refine ⟨options.maxSteps, ?_⟩
      rw [run, hhistory]
      exact lastAction?_report es _ _
    · exact hmove
  obtain ⟨rfl, hadvance⟩ := hmove
  rw [hhistory]
  refine ⟨?_, _, List.mem_append_right _ List.mem_cons_self, hadvance⟩
  intro e he
  rcases List.mem_append.mp he with he | he
  · exact hsteps.move_eq e he
  · obtain rfl := List.mem_singleton.mp he
    rfl

/-- A run that was not stopped by the limit is decided at some entry. -/
theorem exists_decidedAt {p : Parser} {input : List String} {options : RunOptions}
    (h : ¬ (p.run input options).OutOfSteps) :
    ∃ before entry, (p.run input options).DecidedAt before entry := by
  obtain ⟨hmoves, last, hlast, hadvance⟩ := exists_last_of_not_outOfSteps h
  cases hfind : (p.run input options).trace.find? (!·.action.isRegular) with
  | none =>
    exfalso
    obtain ⟨i, hmem⟩ := exists_mem_zipIdx hlast 1
    have hentry : p.traceEntry (last, i) ∈ (p.run input options).trace :=
      List.mem_map_of_mem hmem
    have hregular : (p.traceEntry (last, i)).action.isRegular = true := by
      simpa using List.find?_eq_none.mp hfind _ hentry
    change (p.action last).isRegular = true at hregular
    rw [isRegular_action_iff, hmoves last hlast] at hregular
    exact advance_ne_none hregular hadvance
  | some entry =>
    obtain ⟨hentry, before, after, htrace, hbefore⟩ := List.find?_eq_some_iff_append.mp hfind
    refine ⟨before, entry, ⟨after, htrace⟩, ?_, by simpa using hentry, ?_⟩
    · intro b hb
      simpa using hbefore b hb
    · intro limit hlimit
      obtain ⟨es, e, rest, hhistory, -, rfl⟩ := exists_of_trace_report_eq _ _ htrace
      have hmove := hmoves e (hhistory ▸ List.mem_append_right _ List.mem_cons_self)
      have hfail : e.move = .fail (.stepLimit limit) := move_of_action_eq_error hlimit
      exact move_ne_stepLimit e.state limit (hmove.symm.trans hfail)

/-- Up to the entry at which a run is decided, its history is a stretch of steps that match or
expand, and the entry belongs to a move that does neither. -/
theorem exists_steps_of_decidedAt {p : Parser} {input : List String} {options : RunOptions}
    {before : List TraceEntry} {entry : TraceEntry}
    (h : (p.run input options).DecidedAt before entry) :
    ∃ es e rest, p.history input options = es ++ e :: rest ∧
      p.Steps options.recovery (p.initial input) es e.state ∧
      (∀ e ∈ es, e.move ≠ .giveUp ∧ e.move ≠ .passOver) ∧
      e.move = p.move options.recovery e.state ∧
      ¬ (e.move = .shift ∨ ∃ n, e.move = .expand n) ∧
      before.countP (·.action.isMatch) = es.countP (·.move = .shift) ∧
      entry = p.traceEntry (e, es.length + 1) := by
  obtain ⟨⟨after, htrace⟩, hregular, hdecides, hinSteps⟩ := h
  obtain ⟨es, e, rest, hhistory, rfl, rfl⟩ := exists_of_trace_report_eq _ _ htrace
  obtain ⟨hsteps, hmove⟩ := steps_of_historyFrom_eq _ hhistory
  refine ⟨es, e, rest, hhistory, hsteps, ?_, ?_, ?_, countP_isMatch es, rfl⟩
  · intro e he
    obtain ⟨i, hmem⟩ := exists_mem_zipIdx he 1
    rcases isRegular_action_iff.mp (hregular _ (List.mem_map_of_mem hmem)) with hm | ⟨n, hm⟩
    · simp [show e.move = .shift from hm]
    · simp [show e.move = .expand n from hm]
  · apply hmove.resolve_right
    intro hlimit
    apply hinSteps options.maxSteps
    simp [traceEntry, action, hlimit]
  · rw [← isRegular_action_iff (p := p)]
    exact Bool.eq_false_iff.mp hdecides

/-- **Errors are met at the earliest token.** A run of an LL(1) grammar, if it is allowed steps
enough, comes to an entry that neither matches nor expands. Whatever the number of steps is, if the
run comes to such an entry, then the number of tokens that were matched before it is the length of
the longest part of the input, from its beginning, that some sentential form begins with. The token
after this part, or the end mark if there is none, is the first of the tokens that are left there,
and the one that is reported: by the entry if it names a token, and as the place of the first
recovery if the entry is one. -/
theorem isGreatest_matches {rules : List Rule} {start : Option String} {config : Config}
    {p : Parser} (hp : Parser.build rules start config = .ok p) (hll1 : p.table.isLL1 = true)
    (input : List String) :
    (∀ recovery, ∃ N, ∀ n ≥ N, ∃ before entry,
      (p.run input ⟨n, recovery⟩).DecidedAt before entry) ∧
    ∀ options before entry k, (p.run input options).DecidedAt before entry →
      before.countP (·.action.isMatch) = k →
      IsGreatest {k | k ≤ input.length ∧ p.grammar.ViableTokens (input.take k)} k ∧
      entry.input = input.drop k ++ [Mark.finish] ∧
      (∀ token, entry.action.token? = some token → token = input.getD k Mark.finish) ∧
      (∀ left, entry.action = .syncPop left → (p.run input options).syncPoints.head? =
        some ⟨entry.step, input.getD k Mark.finish, left⟩) ∧
      (∀ token, entry.action = .skipToken token → ∃ left,
        (p.run input options).skipPoints.head? =
          some ⟨entry.step, input.getD k Mark.finish, left⟩) := by
  obtain ⟨g, hg, rfl⟩ := exists_of_build hp
  constructor
  · intro recovery
    obtain ⟨N, hN⟩ := ends_of_halts (halts_of_isLL1 hg hll1) recovery input
    exact ⟨N, fun n hn => exists_decidedAt (hN n hn)⟩
  · rintro options before entry k hdecided rfl
    obtain ⟨es, e, rest, hhistory, hsteps, hes, hmove, hlast, hcount, rfl⟩ :=
      exists_steps_of_decidedAt hdecided
    rw [hmove] at hlast
    rw [hcount]
    obtain ⟨hgreatest, hinput⟩ := isGreatest_of_steps hg hll1 hsteps hes hlast
    have htoken : input.getD (es.countP (·.move = .shift)) Mark.finish = e.state.token := by
      rw [State.token, hinput]
      simp
    rw [htoken]
    refine ⟨hgreatest, ?_, ?_, ?_, ?_⟩
    · rw [← hinput]
      rfl
    · intro token hnamed
      have haction : ((generate g).action
          ⟨e.state, (generate g).move options.recovery e.state⟩).token? = some token := by
        rw [← hmove]
        exact hnamed
      exact eq_token_of_action haction
    · intro left hleft
      obtain ⟨hgiveUp, rfl⟩ := move_of_action_eq_syncPop hleft
      change (((generate g).history input options).zipIdx 1 |>.filterMap _).head? = _
      rw [hhistory]
      exact head?_recoveryPoints (fun e he => (hes e he).1) hgiveUp
    · intro token hskip
      obtain ⟨hpassOver, -⟩ := move_of_action_eq_skipToken hskip
      refine ⟨g.name ((generate g).current e.state), ?_⟩
      change (((generate g).history input options).zipIdx 1 |>.filterMap _).head? = _
      rw [hhistory]
      exact head?_recoveryPoints (fun e he => (hes e he).2) hpassOver

/-- Rules of two kinds of brackets; what is between them vanishes before either closing one. -/
def bracketRules : List Rule :=
  [⟨"S", [["(", "A", ")"], ["[", "A", "]"]], []⟩, ⟨"A", [["x"], ["_"]], []⟩]

/-- The grammar of these rules. -/
def bracketGrammar : Grammar :=
  ⟨⟨#[.nonterminal "S" [[2, 1, 3], [4, 1, 5]], .nonterminal "A" [[6], []], .terminal "(",
    .terminal ")", .terminal "[", .terminal "]", .terminal "x", .terminal "$"]⟩, 0, 7⟩

/-- What is matched, and the expansion on a token that cannot stand there, before the error. -/
def bracketTrace : List TraceEntry :=
  [⟨1, ["$", "S"], ["(", "]", "$"], .apply "S -> ( A )"⟩,
    ⟨2, ["$", ")", "A", "("], ["(", "]", "$"], .matchToken "("⟩,
    ⟨3, ["$", ")", "A"], ["]", "$"], .apply "A -> ε"⟩]

theorem isGreatest_matches_brackets :
    build bracketRules none {} = .ok (generate bracketGrammar) ∧
      (generate bracketGrammar).table.isLL1 = true ∧
      ((generate bracketGrammar).run ["(", "]"] {}).DecidedAt bracketTrace
        ⟨4, ["$", ")"], ["]", "$"], .error (.mismatch ")" "]")⟩ ∧
      IsGreatest {k | k ≤ 2 ∧ bracketGrammar.ViableTokens (["(", "]"].take k)} 1 := by
  have hp : build bracketRules none {} = .ok (generate bracketGrammar) :=
    build_eq_ok (by decide +kernel)
  have hll1 : (generate bracketGrammar).table.isLL1 = true := by decide +kernel
  have hdecided : ((generate bracketGrammar).run ["(", "]"] {}).DecidedAt bracketTrace
      ⟨4, ["$", ")"], ["]", "$"], .error (.mismatch ")" "]")⟩ :=
    ⟨⟨[], by decide +kernel⟩, by decide, rfl, by simp⟩
  obtain ⟨-, hmatches⟩ := isGreatest_matches hp hll1 ["(", "]"]
  exact ⟨hp, hll1, hdecided, (hmatches {} bracketTrace _ 1 hdecided rfl).1⟩

end Parser

end TopDown
