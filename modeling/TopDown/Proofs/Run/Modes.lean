import TopDown.Proofs.Grammar.WellFormed
import TopDown.Proofs.Run.Steps

/-!
# Recovery does not change the verdict

A parser that recovers from errors and one that stops at the first of them make the same moves as
long as there is no error to recover from (`Parser.move_none`). Where the one gives up a
nonterminal or passes over a token, the other reports that there is no alternative for this
nonterminal and this token, and its run is over. So the history of the run that stops is the
history of the run that recovers, up to the first recovery, with the report in place of that
recovery; if nothing had to be recovered from, the two are the same. Neither run is accepted after
an error, so that the verdict is the same in any case. Nothing is asked of the table here.

## Main definitions

* `Parser.refusal`: what is done in place of a recovery
* `Run.RecoversAt`: the first recovery of a run

## Main results

* `Parser.move_none`: the moves of a parser that does not recover
* `Parser.historyFrom_none_of_regular`, `Parser.historyFrom_none_of_recovers`: its histories
* `Parser.run_none_of_run_panic`: the two runs on the same tokens
-/

namespace TopDown

/-- The move recovers from an error. -/
def Move.isRecovery : Move → Bool
  | giveUp => true
  | passOver => true
  | _ => false

/-- The action recovers from an error. -/
def Action.isRecovery : Action → Bool
  | syncPop _ => true
  | skipToken _ => true
  | _ => false

/-- The first recovery of a run: the entries before it, the entry itself, and the place that is
reported for it. -/
structure Run.RecoversAt (r : Run) (before : List TraceEntry) (entry : TraceEntry)
    (point : RecoveryPoint) : Prop where
  trace_eq : ∃ after, r.trace = before ++ entry :: after
  undisturbed : ∀ e ∈ before, e.action.isRecovery = false
  recovers : entry.action = .syncPop point.nonterminal ∧ point ∈ r.syncPoints ∨
    entry.action = .skipToken point.token ∧ point ∈ r.skipPoints
  entry_step : entry.step = before.length + 1
  point_step : point.step = before.length + 1
  first : ∀ other ∈ r.syncPoints ++ r.skipPoints, point.step ≤ other.step

theorem Move.isRecovery_iff {m : Move} : m.isRecovery = true ↔ m = .giveUp ∨ m = .passOver := by
  cases m <;> simp [isRecovery]

theorem Move.isRecovery_eq_false_iff {m : Move} :
    m.isRecovery = false ↔ m ≠ .giveUp ∧ m ≠ .passOver := by
  cases m <;> simp [isRecovery]

namespace Parser

variable {p : Parser} {recovery : Recovery} {s : State} {es rest : List Event} {e : Event}

/-! ## Moves and histories without recovery -/

/-- What is done in place of a recovery. -/
def refusal (p : Parser) (s : State) : Move :=
  .fail (.noProduction (p.grammar.name (p.current s)) s.token)

/-- **A parser that does not recover** makes the moves of one that does, except that it refuses
where that one recovers. -/
theorem move_none (p : Parser) (s : State) :
    p.move .none s =
      if (p.move .panic s).isRecovery then p.refusal s else p.move .panic s := by
  obtain ⟨focus, input⟩ := s
  cases focus with
  | complete t => cases input <;> rfl
  | awaiting symbol frames =>
    cases hsymbol : p.grammar.isTerminal symbol with
    | true =>
      rw [move_awaiting_terminal hsymbol, move_awaiting_terminal hsymbol]
      split <;> rfl
    | false =>
      cases hrow : p.table.row? symbol with
      | none => simp [move, hsymbol, hrow, Move.isRecovery]
      | some row =>
        have hrow : (p.table.row? symbol).isSome = true := by simp [hrow]
        rw [move_awaiting_nonterminal hsymbol hrow, move_awaiting_nonterminal hsymbol hrow]
        -- Only the two kinds of cells that say how to recover make a difference.
        cases hcell : p.consult symbol input with
        | none => simp [moveAtNonterminal, hcell, Move.isRecovery]
        | some cell =>
          cases cell <;>
            simp [moveAtNonterminal, hcell, Move.isRecovery, refusal, current, Focus.stack]

/-- If a history holds no recovery, then it is the same without recovery. -/
theorem historyFrom_none_of_regular (limit : Nat) {k : Nat}
    (h : ∀ e ∈ p.historyFrom .panic limit k s, e.move.isRecovery = false) :
    p.historyFrom .none limit k s = p.historyFrom .panic limit k s := by
  induction k generalizing s with
  | zero => rfl
  | succ k ih =>
    rw [historyFrom] at h
    obtain ⟨hmove, hrest⟩ := List.forall_mem_cons.mp h
    have hsame : p.move .none s = p.move .panic s := by
      rw [move_none, if_neg (Bool.eq_false_iff.mp hmove)]
    rw [historyFrom, historyFrom, hsame]
    cases hnext : p.advance s (p.move .panic s) with
    | none => rfl
    | some next =>
      rw [hnext] at hrest
      exact congrArg _ (ih hrest)

/-- Without recovery, a history ends where there would be the first one. -/
theorem historyFrom_none_of_recovers (limit : Nat) {k : Nat}
    (h : p.historyFrom .panic limit k s = es ++ e :: rest)
    (hes : ∀ e ∈ es, e.move.isRecovery = false) (he : e.move.isRecovery = true) :
    p.historyFrom .none limit k s = es ++ [⟨e.state, p.refusal e.state⟩] := by
  induction k generalizing s es with
  | zero =>
    rw [historyFrom, List.singleton_eq_append_iff] at h
    rcases h with ⟨rfl, h⟩ | ⟨-, h⟩
    · obtain ⟨rfl, -⟩ := List.cons.inj h
      cases he
    · cases h
  | succ k ih =>
    rw [historyFrom] at h
    rw [historyFrom]
    cases es with
    | nil =>
      obtain ⟨rfl, -⟩ := List.cons.inj h
      have hmove : p.move .none s = p.refusal s := by rw [move_none, if_pos he]
      rw [hmove]
      cases hfocus : s.focus <;> simp [refusal, advance, hfocus]
    | cons first es =>
      obtain ⟨rfl, htail⟩ := List.cons.inj h
      obtain ⟨hmove, hes⟩ := List.forall_mem_cons.mp hes
      have hsame : p.move .none s = p.move .panic s := by
        rw [move_none, if_neg (Bool.eq_false_iff.mp hmove)]
      rw [hsame]
      cases hnext : p.advance s (p.move .panic s) with
      | none => simp [hnext] at htail
      | some next =>
        rw [hnext] at htail
        exact congrArg _ (ih htail hes)

/-! ## Reports -/

theorem isRecovery_action (e : Event) : (p.action e).isRecovery = e.move.isRecovery := by
  unfold action
  split <;> simp_all [Action.isRecovery, Move.isRecovery]

/-- The places of recovery of a kind are those of the events that make this move. -/
theorem mem_filterMap_recoveryPoint?_iff {m : Move} {history : List Event} {k : Nat}
    {point : RecoveryPoint} : point ∈ (history.zipIdx k).filterMap (p.recoveryPoint? m) ↔
      ∃ i e, history[i]? = some e ∧ e.move = m ∧
        point = ⟨k + i, e.state.token, p.grammar.name (p.current e.state)⟩ := by
  simp only [List.mem_filterMap, Prod.exists, List.mk_mem_zipIdx_iff_le_and_getElem?_sub,
    recoveryPoint?, Option.ite_none_right_eq_some, Option.some.injEq]
  constructor
  · rintro ⟨e, i, ⟨hle, he⟩, hmove, rfl⟩
    refine ⟨i - k, e, he, hmove, ?_⟩
    rw [Nat.add_sub_cancel' hle]
  · rintro ⟨i, e, he, hmove, rfl⟩
    refine ⟨e, k + i, ⟨Nat.le_add_right k i, ?_⟩, hmove, rfl⟩
    rw [Nat.add_sub_cancel_left]
    exact he

/-- The places of recovery are those of the events that recover. -/
theorem mem_recoveryPoints_iff {history : List Event} {point : RecoveryPoint} :
    point ∈ (p.report history s).syncPoints ++ (p.report history s).skipPoints ↔
      ∃ i e, history[i]? = some e ∧ e.move.isRecovery = true ∧
        point = ⟨1 + i, e.state.token, p.grammar.name (p.current e.state)⟩ := by
  rw [List.mem_append, report, mem_filterMap_recoveryPoint?_iff, mem_filterMap_recoveryPoint?_iff]
  constructor
  · rintro (⟨i, e, he, hmove, rfl⟩ | ⟨i, e, he, hmove, rfl⟩)
    · exact ⟨i, e, he, by rw [hmove]; rfl, rfl⟩
    · exact ⟨i, e, he, by rw [hmove]; rfl, rfl⟩
  · rintro ⟨i, e, he, hmove, rfl⟩
    rcases Move.isRecovery_iff.mp hmove with hm | hm
    · exact Or.inl ⟨i, e, he, hm, rfl⟩
    · exact Or.inr ⟨i, e, he, hm, rfl⟩

/-- The first event of a history that recovers is the first recovery of the report. -/
theorem recoversAt_report (hes : ∀ e ∈ es, e.move.isRecovery = false)
    (he : e.move.isRecovery = true) :
    (p.report (es ++ e :: rest) s).RecoversAt ((es.zipIdx 1).map p.traceEntry)
      (p.traceEntry (e, es.length + 1))
      ⟨es.length + 1, e.state.token, p.grammar.name (p.current e.state)⟩ where
  trace_eq := by
    refine ⟨(rest.zipIdx (1 + es.length + 1)).map p.traceEntry, ?_⟩
    simp [report, List.zipIdx_append, Nat.add_comm]
  undisturbed := by
    intro entry hentry
    obtain ⟨⟨e', i⟩, hmem, rfl⟩ := List.mem_map.mp hentry
    exact (isRecovery_action e').trans (hes e' (List.fst_mem_of_mem_zipIdx hmem))
  recovers := by
    have hget : (es ++ e :: rest)[es.length]? = some e := by simp
    rw [Nat.add_comm es.length 1]
    rcases Move.isRecovery_iff.mp he with hm | hm
    · refine Or.inl ⟨by simp [traceEntry, action, hm], ?_⟩
      exact mem_filterMap_recoveryPoint?_iff.mpr ⟨_, e, hget, hm, rfl⟩
    · refine Or.inr ⟨by simp [traceEntry, action, hm], ?_⟩
      exact mem_filterMap_recoveryPoint?_iff.mpr ⟨_, e, hget, hm, rfl⟩
  entry_step := by simp [traceEntry]
  point_step := by simp
  first := by
    intro other hother
    obtain ⟨i, e', he', hmove, rfl⟩ := mem_recoveryPoints_iff.mp hother
    rcases Nat.lt_or_ge i es.length with hlt | hle
    · rw [List.getElem?_append_left hlt] at he'
      rw [hes e' (List.mem_of_getElem? he')] at hmove
      cases hmove
    · rw [Nat.add_comm es.length 1]
      exact Nat.add_le_add_left hle 1

/-- A run is not accepted if there is a place of recovery. -/
theorem accepted_eq_false_of_recovers {history : List Event} (he : e ∈ history)
    (hmove : e.move.isRecovery = true) : (p.report history s).accepted = false := by
  apply Bool.eq_false_iff.mpr
  intro haccepted
  obtain ⟨-, hregular⟩ := accepted_iff.mp haccepted
  rw [Move.isRecovery_eq_false_iff.mpr (hregular e he)] at hmove
  cases hmove

/-- What is reported of a history that ends with a refusal. -/
theorem report_refusal (hes : ∀ e ∈ es, e.move.isRecovery = false) (last : State) :
    (p.report (es ++ [⟨last, p.refusal last⟩]) s).trace = (es.zipIdx 1).map p.traceEntry ++
        [p.traceEntry (⟨last, p.refusal last⟩, es.length + 1)] ∧
      (p.report (es ++ [⟨last, p.refusal last⟩]) s).syncPoints = [] ∧
      (p.report (es ++ [⟨last, p.refusal last⟩]) s).skipPoints = [] ∧
      (p.report (es ++ [⟨last, p.refusal last⟩]) s).accepted = false := by
  have hregular : ∀ e ∈ es ++ [⟨last, p.refusal last⟩], e.move ≠ .giveUp ∧ e.move ≠ .passOver := by
    intro e he
    rcases List.mem_append.mp he with he | he
    · exact Move.isRecovery_eq_false_iff.mp (hes e he)
    · obtain rfl := List.mem_singleton.mp he
      exact Move.isRecovery_eq_false_iff.mp rfl
  refine ⟨?_, ?_, ?_, ?_⟩
  · simp [report, List.zipIdx_append, Nat.add_comm]
  · exact syncPoints_eq_nil_iff.mpr fun e he => (hregular e he).1
  · exact skipPoints_eq_nil_iff.mpr fun e he => (hregular e he).2
  · apply Bool.eq_false_iff.mpr
    intro haccepted
    obtain ⟨⟨e, hlast, haccept⟩, -⟩ := accepted_iff.mp haccepted
    rw [List.getLast?_concat] at hlast
    cases hlast
    cases haccept

/-- **Recovery does not change the verdict.** If a run that may recover from errors reports no
place of recovery, then the run that stops at the first error is the same. Otherwise there is a
first recovery, and the run that stops has the same trace up to it. There it has one more entry,
its last, which shows the same stack and the same input, and reports that there is no alternative
for the nonterminal and the token of this place; it has no places of recovery, and neither run is
accepted. So one of the runs is accepted if and only if the other one is. -/
theorem run_none_of_run_panic (p : Parser) (input : List String) (limit : Nat) :
    ((p.run input ⟨limit, .panic⟩).syncPoints = [] ∧ (p.run input ⟨limit, .panic⟩).skipPoints = [] →
      p.run input ⟨limit, .none⟩ = p.run input ⟨limit, .panic⟩) ∧
    (¬ ((p.run input ⟨limit, .panic⟩).syncPoints = [] ∧
        (p.run input ⟨limit, .panic⟩).skipPoints = []) →
      ∃ before entry point, (p.run input ⟨limit, .panic⟩).RecoversAt before entry point ∧
        (p.run input ⟨limit, .none⟩).trace = before ++
          [⟨entry.step, entry.stack, entry.input,
            .error (.noProduction point.nonterminal point.token)⟩] ∧
        (p.run input ⟨limit, .none⟩).syncPoints = [] ∧
        (p.run input ⟨limit, .none⟩).skipPoints = [] ∧
        (p.run input ⟨limit, .none⟩).accepted = false ∧
        (p.run input ⟨limit, .panic⟩).accepted = false) ∧
    (p.run input ⟨limit, .panic⟩).accepted = (p.run input ⟨limit, .none⟩).accepted := by
  cases hfind : (p.history input ⟨limit, .panic⟩).find? (·.move.isRecovery) with
  | none =>
    have hregular : ∀ e ∈ p.history input ⟨limit, .panic⟩, e.move.isRecovery = false := by
      simpa using List.find?_eq_none.mp hfind
    have hsame : p.history input ⟨limit, .none⟩ = p.history input ⟨limit, .panic⟩ :=
      historyFrom_none_of_regular limit hregular
    have hrun : p.run input ⟨limit, .none⟩ = p.run input ⟨limit, .panic⟩ := by
      rw [run, run, hsame]
    refine ⟨fun _ => hrun, fun hsome => absurd ⟨?_, ?_⟩ hsome, by rw [hrun]⟩
    · exact syncPoints_eq_nil_iff.mpr fun e he =>
        (Move.isRecovery_eq_false_iff.mp (hregular e he)).1
    · exact skipPoints_eq_nil_iff.mpr fun e he =>
        (Move.isRecovery_eq_false_iff.mp (hregular e he)).2
  | some e =>
    obtain ⟨he, es, rest, hpanic, hes⟩ := List.find?_eq_some_iff_append.mp hfind
    have hes : ∀ e ∈ es, e.move.isRecovery = false := by simpa using hes
    have hnone : p.history input ⟨limit, .none⟩ = es ++ [⟨e.state, p.refusal e.state⟩] :=
      historyFrom_none_of_recovers limit hpanic hes he
    have hpanicRun : p.run input ⟨limit, .panic⟩ =
        p.report (es ++ e :: rest) (p.initial input) := by
      rw [run, hpanic]
    have hnoneRun : p.run input ⟨limit, .none⟩ =
        p.report (es ++ [⟨e.state, p.refusal e.state⟩]) (p.initial input) := by
      rw [run, hnone]
    obtain ⟨htrace, hsync, hskip, hrefused⟩ :=
      report_refusal (s := p.initial input) hes e.state
    have hmem : e ∈ es ++ e :: rest := List.mem_append_right _ List.mem_cons_self
    have haccepted := accepted_eq_false_of_recovers (p := p) (s := p.initial input) hmem he
    rw [hpanicRun, hnoneRun]
    refine ⟨?_, fun _ => ⟨_, _, _, recoversAt_report hes he, htrace, hsync, hskip, hrefused,
      haccepted⟩, haccepted.trans hrefused.symm⟩
    rintro ⟨hsyncNil, hskipNil⟩
    rcases Move.isRecovery_iff.mp he with hm | hm
    · exact absurd hm (syncPoints_eq_nil_iff.mp hsyncNil e hmem)
    · exact absurd hm (skipPoints_eq_nil_iff.mp hskipNil e hmem)

/-- Rules of a sentence of two tokens. -/
def slipRules : List Rule :=
  [⟨"S", [["A", "b"]], []⟩, ⟨"A", [["a"]], []⟩]

/-- The grammar of these rules. -/
def slipGrammar : Grammar :=
  ⟨⟨#[.nonterminal "S" [[1, 2]], .nonterminal "A" [[3]], .terminal "b", .terminal "a",
    .terminal "$"]⟩, 0, 4⟩

/-- A foreign token before the sentence is passed over, and then all of it is matched. -/
theorem run_none_of_run_panic_slip :
    build slipRules none {} = .ok (generate slipGrammar) ∧
      (generate slipGrammar).run ["a", "b"] ⟨9, .none⟩ =
        (generate slipGrammar).run ["a", "b"] ⟨9, .panic⟩ ∧
      ((generate slipGrammar).run ["a", "b"] ⟨9, .panic⟩).accepted = true ∧
      ((generate slipGrammar).run ["x", "a", "b"] ⟨9, .panic⟩).lastAction? = some .accept ∧
      ((generate slipGrammar).run ["x", "a", "b"] ⟨9, .none⟩).accepted = false := by
  obtain ⟨hsame, -, -⟩ := run_none_of_run_panic (generate slipGrammar) ["a", "b"] 9
  obtain ⟨-, hrecovers, -⟩ := run_none_of_run_panic (generate slipGrammar) ["x", "a", "b"] 9
  obtain ⟨before, entry, point, -, -, -, -, haccepted, -⟩ := hrecovers (by decide +kernel)
  exact ⟨build_eq_ok (by decide +kernel), hsame (by decide +kernel), by decide +kernel,
    by decide +kernel, haccepted⟩

end Parser

end TopDown
