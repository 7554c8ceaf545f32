import TopDown.Proofs.Grammar.Renaming
import TopDown.Proofs.Run.Limit
import TopDown.Proofs.Run.Outcome

/-!
# Tokens that are foreign to the grammar

A token is foreign if it is the name of no terminal, or looks like the end mark. Where a nonterminal
is to be expanded, a parser that recovers from errors passes over a foreign token and is otherwise
where it was before: the place in the tree is the same, and the token is gone. Everywhere else a
foreign token ends the run. So a run that no foreign token ends is, apart from the tokens that it
passes over, the run on the other tokens.

A move depends on the token that comes next and on no other (`Parser.move_of_head?_eq`), so a state
and the one without foreign tokens make the same move as soon as the next token is not foreign
(`State.IsClear`). The run without foreign tokens goes through the states of the other run, each
without its foreign tokens, and stands still while a foreign token is passed over.

## Main definitions

* `Grammar.isForeign`, `Grammar.natives`: foreign tokens, and a list of tokens without them
* `State.native`, `Event.native`: a state without foreign tokens
* `Run.StopsAtForeign`: runs that a foreign token ends

## Main results

* `Grammar.isForeign_iff`, `Parser.nextTerminal?_eq_none_iff`: which tokens are foreign
* `Parser.move_of_head?_eq`: a move depends on the next token only
* `Parser.Step.passOver_or_isClear`: what a step does with a foreign token
* `Parser.Steps.native`: a stretch of steps without foreign tokens
* `Parser.run_natives`: the run without foreign tokens
-/

namespace TopDown

/-! ## Foreign tokens -/

namespace Grammar

variable {g : Grammar} {token : String} {rest : List String}

/-- Whether a token is the name of no terminal, or looks like the end mark. -/
def isForeign (g : Grammar) (token : String) : Bool :=
  token == Mark.finish || !(g.terminals.map g.name).contains token

/-- The tokens that are not foreign. -/
def natives (g : Grammar) (input : List String) : List String :=
  input.filter fun token => !g.isForeign token

theorem isForeign_iff : g.isForeign token = true ↔
    token = Mark.finish ∨ ∀ t, g.isTerminal t = true → g.name t ≠ token := by
  simp [isForeign, Catalog.mem_terminals]

theorem natives_cons_foreign (h : g.isForeign token = true) :
    g.natives (token :: rest) = g.natives rest :=
  List.filter_cons_of_neg (by simp [h])

theorem natives_cons_native (h : g.isForeign token = false) :
    g.natives (token :: rest) = token :: g.natives rest :=
  List.filter_cons_of_pos (by simp [h])

/-- The terminals of alternatives are not foreign. -/
theorem isForeign_name {t : Nat} (hg : g.WellFormed) (ht : g.isTerminal t = true)
    (hlt : t < g.finish) : g.isForeign (g.name t) = false := by
  rw [Bool.eq_false_iff, Ne, isForeign_iff]
  rintro (hfinish | hother)
  · exact hg.name_ne_finish hlt hfinish
  · exact hother t ht rfl

end Grammar

/-! ## States without foreign tokens -/

/-- A state with the foreign tokens taken out of its input. -/
def State.native (g : Grammar) (s : State) : State :=
  ⟨s.focus, g.natives s.input⟩

/-- An event with the foreign tokens taken out of the input of its state. -/
def Event.native (g : Grammar) (e : Event) : Event :=
  ⟨e.state.native g, e.move⟩

/-- The token that comes next is not foreign, or there is none. -/
def State.IsClear (g : Grammar) (s : State) : Prop :=
  ∀ token ∈ s.input.head?, g.isForeign token = false

/-- The action passes over a foreign token. -/
def Action.skipsForeign (g : Grammar) : Action → Bool
  | skipToken token => g.isForeign token
  | _ => false

/-- A place of recovery without the number of its step: the token and the nonterminal. -/
def RecoveryPoint.place (point : RecoveryPoint) : String × String :=
  (point.token, point.nonterminal)

/-- The run ends with a mismatch, and what is found is a foreign token of the input. The end mark
that was added to the input does not count. -/
def Run.StopsAtForeign (g : Grammar) (r : Run) : Prop :=
  ∃ last expected found, r.trace.getLast? = some last ∧
    last.action = .error (.mismatch expected found) ∧ last.input.tail ≠ [] ∧
    g.isForeign found = true

namespace State

variable {g : Grammar} {s : State}

theorem isClear_or (g : Grammar) (s : State) :
    s.IsClear g ∨ ∃ token rest, s.input = token :: rest ∧ g.isForeign token = true := by
  cases hinput : s.input with
  | nil => exact Or.inl fun token htoken => by simp [hinput] at htoken
  | cons token rest =>
    cases htoken : g.isForeign token with
    | true => exact Or.inr ⟨token, rest, rfl, htoken⟩
    | false =>
      refine Or.inl fun next hnext => ?_
      rw [hinput] at hnext
      cases hnext
      exact htoken

namespace IsClear

theorem head?_native (h : s.IsClear g) : (s.native g).input.head? = s.input.head? := by
  obtain ⟨focus, input⟩ := s
  cases input with
  | nil => rfl
  | cons token rest =>
    rw [native, Grammar.natives_cons_native (h token rfl)]
    rfl

theorem token_native (h : s.IsClear g) : (s.native g).token = s.token := by
  rw [token, token, List.headD_eq_head?_getD, h.head?_native, List.headD_eq_head?_getD]

theorem tail_native (h : s.IsClear g) : (s.native g).input.tail = g.natives s.input.tail := by
  obtain ⟨focus, input⟩ := s
  cases input with
  | nil => rfl
  | cons token rest =>
    rw [native, Grammar.natives_cons_native (h token rfl)]
    rfl

end IsClear

end State

namespace Parser

variable {g : Grammar} {p : Parser} {recovery : Recovery} {token : String} {rest : List String}
  {s next last : State} {m : Move} {es : List Event}

/-! ## Moves -/

/-- **A foreign token stands for no terminal.** -/
theorem nextTerminal?_eq_none_iff (hg : g.WellFormed) :
    (generate g).nextTerminal? (token :: rest) = none ↔ g.isForeign token = true := by
  change (g.findTerminal? token).filter (· != g.finish) = none ↔ _
  rw [Option.filter_eq_none_iff, Grammar.isForeign_iff]
  simp only [hg.findTerminal?_eq_some_iff, bne_iff_ne, ne_eq, Decidable.not_not]
  constructor
  · intro h
    by_contra! hnot
    obtain ⟨hfinish, t, ht, hname⟩ := hnot
    obtain rfl : t = g.finish := h t ⟨ht, hname⟩
    exact hfinish (hname ▸ hg.name_finish)
  · rintro (rfl | hother) t ⟨ht, hname⟩
    · exact hg.eq_of_name_eq (Catalog.lt_size_of_isTerminal ht) hg.finish_lt
        (hname.trans hg.name_finish.symm)
    · exact absurd hname (hother t ht)

/-- At a nonterminal, a foreign token is to be passed over. -/
theorem consult_of_isForeign (hg : g.WellFormed) (h : g.isForeign token = true) (symbol : Nat) :
    (generate g).consult symbol (token :: rest) = some .skip := by
  rw [consult, (nextTerminal?_eq_none_iff hg).mpr h]

/-- **A move depends on the token that comes next only.** -/
theorem move_of_head?_eq (p : Parser) (recovery : Recovery) (focus : Focus)
    {input input' : List String} (h : input.head? = input'.head?) :
    p.move recovery ⟨focus, input⟩ = p.move recovery ⟨focus, input'⟩ := by
  cases input with
  | nil =>
    cases input' with
    | nil => rfl
    | cons token rest => cases h
  | cons token rest =>
    cases input' with
    | nil => cases h
    | cons token' rest' =>
      cases h
      cases focus <;> rfl

theorem move_native (h : s.IsClear g) : p.move recovery (s.native g) = p.move recovery s :=
  move_of_head?_eq p recovery s.focus h.head?_native

/-- A step leads to the same place, and the same tokens are left apart from the foreign ones. -/
theorem advance_native (h : s.IsClear g) (m : Move) :
    p.advance (s.native g) m = (p.advance s m).map (State.native g) := by
  have htail := h.tail_native
  obtain ⟨focus, input⟩ := s
  cases focus with
  | complete t => rfl
  | awaiting symbol frames =>
    cases m with
    | shift => exact congrArg (fun rest => some (State.mk _ rest)) htail
    | passOver => exact congrArg (fun rest => some (State.mk _ rest)) htail
    | _ => rfl

theorem action_native (h : s.IsClear g) (m : Move) :
    p.action ((Event.mk s m).native g) = p.action ⟨s, m⟩ := by
  have htoken := h.token_native
  cases m with
  | shift => exact congrArg Action.matchToken htoken
  | passOver => exact congrArg Action.skipToken htoken
  | _ => rfl

/-! ## Stretches of steps -/

/-- **A step meets a foreign token only to pass over it.** -/
theorem Step.passOver_or_isClear (hg : g.WellFormed)
    (h : (generate g).Step recovery s m next) (hs : s.Based g) :
    (((generate g).action ⟨s, m⟩).skipsForeign g = true ∧ next.native g = s.native g) ∨
      (((generate g).action ⟨s, m⟩).skipsForeign g = false ∧ s.IsClear g) := by
  rcases s.isClear_or g with hclear | ⟨token, rest, hinput, htoken⟩
  · refine Or.inr ⟨?_, hclear⟩
    cases h with
    | @passOver symbol frames input hsymbol hrow hrecovery hcell =>
      obtain ⟨token, rest, rfl⟩ := List.exists_cons_of_ne_nil (ne_nil_of_consult_eq_skip hcell)
      exact hclear token rfl
    | _ => rfl
  · have hskip : ∀ symbol, (generate g).consult symbol s.input = some .skip := fun symbol => by
      rw [hinput]
      exact consult_of_isForeign hg htoken symbol
    cases h with
    | @shift symbol frames rest hsymbol =>
      cases hinput
      obtain ⟨hlt, -⟩ := based_awaiting_iff.mp hs
      have hnative : g.isForeign (g.name symbol) = false := Grammar.isForeign_name hg hsymbol hlt
      exact absurd htoken (Bool.eq_false_iff.mp hnative)
    | expand hsymbol hrow hcell =>
      rw [hskip] at hcell
      cases hcell
    | giveUp hsymbol hrow hrecovery hcell =>
      rw [hskip] at hcell
      cases hcell
    | passOver hsymbol hrow hrecovery hcell =>
      cases hinput
      refine Or.inl ⟨htoken, ?_⟩
      rw [State.native, State.native, Grammar.natives_cons_foreign htoken, List.tail_cons]

/-- The events of a history that do not pass over a foreign token, without foreign tokens. -/
def natives (p : Parser) (history : List Event) : List Event :=
  (history.filter fun e => !(p.action e).skipsForeign p.grammar).map (Event.native p.grammar)

theorem natives_cons_of_skips {e : Event}
    (h : (p.action e).skipsForeign p.grammar = true) : p.natives (e :: es) = p.natives es :=
  congrArg (List.map _) (List.filter_cons_of_neg (by simp [h]))

theorem natives_cons_of_keeps {e : Event}
    (h : (p.action e).skipsForeign p.grammar = false) :
    p.natives (e :: es) = e.native p.grammar :: p.natives es :=
  congrArg (List.map _) (List.filter_cons_of_pos (by simp [h]))

/-- **A stretch of steps without foreign tokens**: it stands still where one is passed over. -/
theorem Steps.native (hg : g.WellFormed) (h : (generate g).Steps recovery s es last)
    (hs : s.Based g) :
    (generate g).Steps recovery (s.native g) ((generate g).natives es) (last.native g) := by
  induction h with
  | refl s => exact .refl _
  | @cons s next last m es hstep _ ih =>
    have hrest := ih (hstep.based hg hs)
    rcases hstep.passOver_or_isClear hg hs with ⟨hskip, hsame⟩ | ⟨hkeep, hclear⟩
    · rw [natives_cons_of_skips hskip, ← hsame]
      exact hrest
    · rw [natives_cons_of_keeps hkeep]
      refine .cons (step_iff.mpr ⟨?_, ?_⟩) hrest
      · exact (move_native hclear).trans hstep.move_eq
      · rw [advance_native hclear, hstep.advance_eq, Option.map_some]

/-- Along a stretch of steps, no foreign token comes next unless it is passed over. -/
theorem Steps.isClear (hg : g.WellFormed) (h : (generate g).Steps recovery s es last)
    (hs : s.Based g) :
    ∀ e ∈ es, ((generate g).action e).skipsForeign g = false → e.state.IsClear g := by
  induction h with
  | refl => simp
  | cons hstep _ ih =>
    refine List.forall_mem_cons.mpr ⟨fun hkeep => ?_, ih (hstep.based hg hs)⟩
    rcases hstep.passOver_or_isClear hg hs with ⟨hskip, -⟩ | ⟨-, hclear⟩
    · rw [hskip] at hkeep
      cases hkeep
    · exact hclear

/-- **A state in which no step can be made** shows the same without foreign tokens, unless what is
found in it is a foreign token. -/
theorem isClear_of_advance_eq_none (hg : g.WellFormed) (hs : s.Based g)
    (h : (generate g).advance s ((generate g).move .panic s) = none)
    (hstop : ∀ expected, s.input ≠ [] → g.isForeign s.token = true →
      (generate g).move .panic s ≠ .fail (.mismatch expected s.token)) : s.IsClear g := by
  rcases s.isClear_or g with hclear | ⟨token, rest, hinput, htoken⟩
  · exact hclear
  · exfalso
    obtain ⟨focus, input⟩ := s
    cases hinput
    cases focus with
    | complete t => exact hstop _ (List.cons_ne_nil _ _) htoken rfl
    | awaiting symbol frames =>
      obtain ⟨hlt, -⟩ := based_awaiting_iff.mp hs
      cases hsymbol : g.isTerminal symbol with
      | true =>
        have hmove : (generate g).move .panic ⟨.awaiting symbol frames, token :: rest⟩ = _ :=
          move_awaiting_terminal hsymbol
        split_ifs at hmove with hhead
        · rw [hmove] at h
          cases h
        · exact hstop _ (List.cons_ne_nil _ _) htoken hmove
      | false =>
        have hkind := Catalog.isNonterminal_of_lt (hlt.trans hg.finish_lt) hsymbol
        have hrow : ((generate g).table.row? symbol).isSome = true :=
          Option.isSome_of_eq_some (Grammar.row?_table hkind)
        have hmove : (generate g).move .panic ⟨.awaiting symbol frames, token :: rest⟩ = _ :=
          move_awaiting_nonterminal hsymbol hrow
        rw [hmove] at h
        obtain ⟨hrecovery, -⟩ := moveAtNonterminal_eq_fail hg hkind h
        cases hrecovery

/-- The last entry of a report is that of the last event. -/
theorem getLast?_trace_report (es : List Event) (e : Event) (start : State) :
    (p.report (es ++ [e]) start).trace.getLast? = some (p.traceEntry (e, es.length + 1)) := by
  simp [report, List.zipIdx_append, Nat.add_comm]

theorem skipsForeign_of_isFinal {a : Action} (h : a.isFinal = true) : a.skipsForeign g = false := by
  cases a <;> simp_all [Action.isFinal, Action.skipsForeign]

/-- **The history without foreign tokens.** A run that neither the limit nor a foreign token ends
reports a history, and the run on the tokens that are not foreign reports this history without
foreign tokens. -/
theorem exists_run_natives (hg : g.WellFormed) {input : List String} {limit : Nat}
    (hends : ¬ ((generate g).run input ⟨limit, .panic⟩).OutOfSteps)
    (hstop : ¬ ((generate g).run input ⟨limit, .panic⟩).StopsAtForeign g) :
    ∃ es last m,
      (generate g).run input ⟨limit, .panic⟩ =
        (generate g).report (es ++ [⟨last, m⟩]) ((generate g).initial input) ∧
      (generate g).run (g.natives input) ⟨limit, .panic⟩ =
        (generate g).report ((generate g).natives (es ++ [⟨last, m⟩]))
          ((generate g).initial (g.natives input)) ∧
      (generate g).natives (es ++ [⟨last, m⟩]) =
        (generate g).natives es ++ [⟨last.native g, m⟩] ∧
      ∀ e ∈ es ++ [⟨last, m⟩],
        ((generate g).action e).skipsForeign g = false → e.state.IsClear g := by
  obtain ⟨es, last, m, hsteps, hrun, hend⟩ := exists_run_eq (generate g) input ⟨limit, .panic⟩
  dsimp only at hsteps hend
  have hinitial := based_initial hg input
  rcases hend with ⟨rfl, rfl⟩ | ⟨hlength, rfl, hadvance⟩
  · exact absurd (hrun ▸ outOfSteps_concat) hends
  · have hclear : last.IsClear g := by
      have hbased := hsteps.forall_state (Step.based hg) hinitial .accept ⟨last, .accept⟩ (by simp)
      refine isClear_of_advance_eq_none hg hbased hadvance fun expected hne htoken hmove => hstop ?_
      refine ⟨_, expected, last.token, hrun ▸ getLast?_trace_report _ _ _, ?_, ?_, htoken⟩
      · rw [hmove]
        rfl
      · obtain ⟨token, rest, hinput⟩ := List.exists_cons_of_ne_nil hne
        simp [traceEntry, hinput]
    have hkeep : ((generate g).action ⟨last, (generate g).move .panic last⟩).skipsForeign
        (generate g).grammar = false :=
      skipsForeign_of_isFinal (isFinal_of_advance_eq_none hadvance)
    have hconcat : (generate g).natives (es ++ [⟨last, (generate g).move .panic last⟩]) =
        (generate g).natives es ++ [⟨last.native g, (generate g).move .panic last⟩] := by
      have hlast : (generate g).natives [⟨last, (generate g).move .panic last⟩] = _ :=
        natives_cons_of_keeps hkeep
      rw [natives, List.filter_append, List.map_append]
      exact congrArg _ hlast
    refine ⟨es, last, _, hrun, ?_, hconcat, ?_⟩
    · have hnative := hsteps.native hg hinitial
      have hfewer : ((generate g).natives es).length ≤ es.length :=
        (List.length_map _).trans_le (List.length_filter_le _ _)
      obtain ⟨k, hk⟩ : ∃ k, limit = ((generate g).natives es).length + (k + 1) :=
        ⟨limit - ((generate g).natives es).length - 1, by omega⟩
      have hfinal : (generate g).advance (last.native g)
          ((generate g).move .panic (last.native g)) = none := by
        rw [move_native hclear, advance_native hclear, hadvance, Option.map_none]
      have hhistory : (generate g).historyFrom .panic limit limit
          (((generate g).initial input).native g) = (generate g).natives es ++
            [⟨last.native g, (generate g).move .panic last⟩] := by
        nth_rewrite 2 [hk]
        rw [historyFrom_of_steps limit hnative, historyFrom_of_final limit hfinal,
          move_native hclear]
      rw [hconcat, run, history]
      exact congrArg ((generate g).report · _) hhistory
    · intro e he hskip
      rcases List.mem_append.mp he with he | he
      · exact hsteps.isClear hg hinitial e he hskip
      · rw [List.mem_singleton.mp he]
        exact hclear

/-! ## Reports -/

/-- The token that comes next and the symbol that is to be dealt with, by name. -/
def place (p : Parser) (e : Event) : String × String :=
  (e.state.token, p.grammar.name (p.current e.state))

/-- The places of recovery of a kind, without the numbers of their steps. -/
theorem map_place_recoveryPoint? (p : Parser) (m : Move) (history : List Event) (k : Nat) :
    ((history.zipIdx k).filterMap (p.recoveryPoint? m)).map RecoveryPoint.place =
      (history.filter (·.move = m)).map p.place := by
  induction history generalizing k with
  | nil => rfl
  | cons e history ih =>
    by_cases he : e.move = m
    · simp [recoveryPoint?, he, ih, RecoveryPoint.place, place]
    · simp [recoveryPoint?, he, ih]

section Report

variable {history : List Event} (hclear : ∀ e ∈ history,
  (p.action e).skipsForeign p.grammar = false → e.state.IsClear p.grammar)
include hclear

theorem map_action_natives : (p.natives history).map p.action =
    (history.map p.action).filter fun a => !a.skipsForeign p.grammar := by
  rw [natives, List.map_map, List.filter_map]
  refine List.map_congr_left fun e he => ?_
  obtain ⟨hmem, hkeep⟩ := List.mem_filter.mp he
  exact action_native (hclear e hmem (by simpa using hkeep)) e.move

theorem map_place_natives (m : Move) : ((p.natives history).filter (·.move = m)).map p.place =
    ((history.filter (·.move = m)).filter fun e => !(p.action e).skipsForeign p.grammar).map
      p.place := by
  rw [natives, List.filter_map, List.map_map, List.filter_filter, List.filter_filter]
  have hboth : (history.filter fun e => (decide ((e.native p.grammar).move = m)) &&
      !(p.action e).skipsForeign p.grammar) =
      history.filter fun e => !(p.action e).skipsForeign p.grammar && decide (e.move = m) :=
    List.filter_congr fun e _ => Bool.and_comm _ _
  rw [← hboth]
  refine List.map_congr_left fun e he => ?_
  obtain ⟨hmem, hkeep⟩ := List.mem_filter.mp he
  have htoken := (hclear e hmem (by simpa using (Bool.and_eq_true_iff.mp hkeep).2)).token_native
  exact congrArg (·, p.grammar.name (p.current e.state)) htoken

/-- The nonterminals that are given up are the same. -/
theorem map_place_syncPoints_natives (s s' : State) :
    (p.report (p.natives history) s).syncPoints.map RecoveryPoint.place =
      (p.report history s').syncPoints.map RecoveryPoint.place := by
  have hall : (history.filter (·.move = .giveUp)).filter
      (fun e => !(p.action e).skipsForeign p.grammar) = history.filter (·.move = .giveUp) := by
    refine List.filter_eq_self.mpr fun e he => ?_
    have hmove : e.move = .giveUp := by simpa using (List.mem_filter.mp he).2
    simp [action, hmove, Action.skipsForeign]
  calc (p.report (p.natives history) s).syncPoints.map RecoveryPoint.place
      = ((p.natives history).filter (·.move = .giveUp)).map p.place :=
        map_place_recoveryPoint? p .giveUp _ 1
    _ = (history.filter (·.move = .giveUp)).map p.place := by
        rw [map_place_natives hclear, hall]
    _ = (p.report history s').syncPoints.map RecoveryPoint.place :=
        (map_place_recoveryPoint? p .giveUp _ 1).symm

/-- The tokens that are passed over are the same but for the foreign ones. -/
theorem map_place_skipPoints_natives (s s' : State) :
    (p.report (p.natives history) s).skipPoints.map RecoveryPoint.place =
      ((p.report history s').skipPoints.filter
        fun point => !p.grammar.isForeign point.token).map RecoveryPoint.place := by
  have hkept : (history.filter (·.move = .passOver)).filter
      (fun e => !(p.action e).skipsForeign p.grammar) =
      (history.filter (·.move = .passOver)).filter
        ((fun place => !p.grammar.isForeign place.1) ∘ p.place) := by
    refine List.filter_congr fun e he => ?_
    have hmove : e.move = .passOver := by simpa using (List.mem_filter.mp he).2
    simp [action, hmove, Action.skipsForeign, place]
  calc (p.report (p.natives history) s).skipPoints.map RecoveryPoint.place
      = ((p.natives history).filter (·.move = .passOver)).map p.place :=
        map_place_recoveryPoint? p .passOver _ 1
    _ = ((history.filter (·.move = .passOver)).map p.place).filter
          (fun place => !p.grammar.isForeign place.1) := by
        rw [map_place_natives hclear, hkept, List.filter_map]
    _ = ((p.report history s').skipPoints.map RecoveryPoint.place).filter
          (fun place => !p.grammar.isForeign place.1) :=
        congrArg (List.filter _) (map_place_recoveryPoint? p .passOver _ 1).symm
    _ = _ := List.filter_map

end Report

/-- **Foreign tokens are passed over without disturbing the rest.** Take a run that recovers from
errors, that its limit does not stop, and that does not end with a mismatch at a foreign token. The
run on the tokens that are not foreign has the same actions but for those that pass over foreign
tokens, the same tree, the same nonterminals given up at the same tokens, and the same tokens passed
over at the same nonterminals but for the foreign ones. -/
theorem run_natives {rules : List Rule} {start : Option String} {config : Config} {p : Parser}
    (hp : Parser.build rules start config = .ok p) (input : List String) (limit : Nat)
    (hends : ¬ (p.run input ⟨limit, .panic⟩).OutOfSteps)
    (hstop : ¬ (p.run input ⟨limit, .panic⟩).StopsAtForeign p.grammar) :
    (p.run (p.grammar.natives input) ⟨limit, .panic⟩).trace.map TraceEntry.action =
        ((p.run input ⟨limit, .panic⟩).trace.map TraceEntry.action).filter
          (fun a => !a.skipsForeign p.grammar) ∧
      (p.run (p.grammar.natives input) ⟨limit, .panic⟩).tree =
        (p.run input ⟨limit, .panic⟩).tree ∧
      (p.run (p.grammar.natives input) ⟨limit, .panic⟩).syncPoints.map RecoveryPoint.place =
        (p.run input ⟨limit, .panic⟩).syncPoints.map RecoveryPoint.place ∧
      (p.run (p.grammar.natives input) ⟨limit, .panic⟩).skipPoints.map RecoveryPoint.place =
        ((p.run input ⟨limit, .panic⟩).skipPoints.filter
          (fun point => !p.grammar.isForeign point.token)).map RecoveryPoint.place := by
  obtain ⟨g, hg, rfl⟩ := exists_of_build hp
  obtain ⟨es, last, m, hrun, hrun', hconcat, hclear⟩ := exists_run_natives hg hends hstop
  have hrun' : (generate g).run ((generate g).grammar.natives input) ⟨limit, .panic⟩ = _ := hrun'
  rw [hrun, hrun']
  refine ⟨?_, ?_, map_place_syncPoints_natives hclear _ _, map_place_skipPoints_natives hclear _ _⟩
  · rw [map_action_trace, map_action_trace]
    exact map_action_natives hclear
  · rw [hconcat, tree_report, tree_report]
    rfl

/-- Rules of sentences of two or three tokens. -/
def fieldRules : List Rule :=
  [⟨"S", [["c", "A", "b"]], []⟩, ⟨"A", [["a"]], []⟩]

/-- The grammar of these rules. -/
def fieldGrammar : Grammar :=
  ⟨⟨#[.nonterminal "S" [[2, 1, 3]], .nonterminal "A" [[4]], .terminal "c", .terminal "b",
    .terminal "a", .terminal "$"]⟩, 0, 5⟩

/-- Four foreign tokens among others: without them, a token is still passed over and a nonterminal
given up. -/
theorem run_natives_field :
    build fieldRules none {} = .ok (generate fieldGrammar) ∧
      fieldGrammar.natives ["a", "x", "c", "$", "S", "x", "b"] = ["a", "c", "b"] ∧
      ((generate fieldGrammar).run ["a", "c", "b"] {}).trace.map TraceEntry.action =
        [.skipToken "a", .apply "S -> c A b", .matchToken "c", .syncPop "A", .matchToken "b",
          .accept] ∧
      ((generate fieldGrammar).run ["a", "c", "b"] {}).tree.leaves = ["c", "b"] ∧
      ((generate fieldGrammar).run ["a", "c", "b"] {}).syncPoints.map RecoveryPoint.place =
        [("b", "A")] ∧
      ((generate fieldGrammar).run ["a", "c", "b"] {}).skipPoints.map RecoveryPoint.place =
        [("a", "S")] := by
  have hp : build fieldRules none {} = .ok (generate fieldGrammar) :=
    build_eq_ok (by decide +kernel)
  have hnatives : (generate fieldGrammar).grammar.natives
      ["a", "x", "c", "$", "S", "x", "b"] = ["a", "c", "b"] := by
    decide +kernel
  have hlast : ((generate fieldGrammar).run ["a", "x", "c", "$", "S", "x", "b"] {}).lastAction? =
      some .accept := by
    decide +kernel
  have hends : ¬ ((generate fieldGrammar).run
      ["a", "x", "c", "$", "S", "x", "b"] {}).OutOfSteps := by
    rintro ⟨limit, hlimit⟩
    rw [hlast] at hlimit
    cases hlimit
  have hstop : ¬ ((generate fieldGrammar).run
      ["a", "x", "c", "$", "S", "x", "b"] {}).StopsAtForeign fieldGrammar := by
    rintro ⟨entry, expected, found, hentry, haction, -⟩
    rw [Run.lastAction?, hentry, Option.map_some, haction] at hlast
    cases hlast
  obtain ⟨hactions, htree, hsync, hskip⟩ :=
    run_natives hp ["a", "x", "c", "$", "S", "x", "b"] 100 hends hstop
  rw [hnatives] at hactions htree hsync hskip
  exact ⟨hp, hnatives, hactions.trans (by decide +kernel), by rw [htree]; decide +kernel,
    hsync.trans (by decide +kernel), hskip.trans (by decide +kernel)⟩

end Parser

end TopDown
