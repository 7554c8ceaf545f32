import TopDown.Proofs.Run.Steps
import TopDown.Proofs.Table.Renaming

/-!
# Runs of renamed grammars

A state of the automaton holds symbols by number, but its trees have names only. So the state of a
renamed grammar that belongs to a state is got by renaming what is still to be dealt with
(`State.rename`). The same move is made in both, since a cell numbers alternatives and not symbols,
and it leads to states that belong together again. In a report there are names only: the reports of
the two runs are equal.

## Main definitions

* `Frame.rename`, `Focus.rename`, `State.rename`, `Event.rename`: places and states with other
  numbers

## Main results

* `Grammar.Renames.move_eq`, `Grammar.Renames.advance_rename`: one move, and the state after it
* `Grammar.Renames.historyFrom_rename`: a whole history
* `Grammar.Renames.run_eq`: the runs are equal
-/

namespace TopDown

section Rename

variable (σ : Nat → Nat)

/-- A frame with other numbers. -/
def Frame.rename (f : Frame) : Frame :=
  ⟨σ f.left, f.done, f.todo.map σ⟩

/-- A place in a tree with other numbers. -/
def Focus.rename : Focus → Focus
  | awaiting symbol frames => awaiting (σ symbol) (frames.map (Frame.rename σ))
  | complete t => complete t

/-- A state with other numbers. -/
def State.rename (s : State) : State :=
  ⟨s.focus.rename σ, s.input⟩

/-- An event with other numbers. -/
def Event.rename (e : Event) : Event :=
  ⟨e.state.rename σ, e.move⟩

end Rename

namespace Grammar

namespace Renames

variable {σ : Nat → Nat} {g g' : Grammar}

/-! ## Places in a tree -/

theorem nodeOf_eq (h : Renames σ g g') (symbol : Nat) (ts : List Tree) :
    g'.nodeOf (σ symbol) ts = g.nodeOf symbol ts := by
  rw [nodeOf, h.name_eq, nodeOf]

theorem leafOf_eq (h : Renames σ g g') (symbol : Nat) :
    g'.leafOf (σ symbol) = g.leafOf symbol := by
  rw [leafOf, h.name_eq, leafOf]

theorem close_rename (h : Renames σ g g') (f : Frame) : (f.rename σ).close g' = f.close g :=
  h.nodeOf_eq f.left f.done.reverse

theorem plug_rename (h : Renames σ g g') (t : Tree) (frames : List Frame) :
    Focus.plug g' t (frames.map (Frame.rename σ)) = (Focus.plug g t frames).rename σ := by
  induction frames generalizing t with
  | nil => rfl
  | cons f fs ih =>
    obtain ⟨left, done, todo⟩ := f
    cases todo with
    | nil =>
      have hclose := h.close_rename (Frame.attach t ⟨left, done, []⟩)
      rw [List.map_cons, Focus.plug]
      change Focus.plug g' (Frame.close g' (Frame.rename σ (Frame.attach t ⟨left, done, []⟩))) _ = _
      rw [hclose, ih]
      rfl
    | cons symbol todo => rfl

theorem leaveOut_rename (h : Renames σ g g') (symbol : Nat) (frames : List Frame) :
    Focus.leaveOut g' (σ symbol) (frames.map (Frame.rename σ)) =
      (Focus.leaveOut g symbol frames).rename σ := by
  cases frames with
  | nil => exact congrArg Focus.complete (h.nodeOf_eq symbol [])
  | cons f fs =>
    obtain ⟨left, done, todo⟩ := f
    cases todo with
    | nil =>
      change Focus.plug g' (Frame.close g' (Frame.rename σ ⟨left, done, []⟩)) _ = _
      rw [h.close_rename, h.plug_rename]
      rfl
    | cons symbol todo => rfl

theorem expand_rename (h : Renames σ g g') (symbol : Nat) (frames : List Frame) (α : List Nat) :
    Focus.expand g' (σ symbol) (frames.map (Frame.rename σ)) (α.map σ) =
      (Focus.expand g symbol frames α).rename σ := by
  cases α with
  | nil =>
    change Focus.plug g' (g'.nodeOf (σ symbol) _) _ = _
    rw [h.nodeOf_eq, h.plug_rename]
    rfl
  | cons first todo => rfl

theorem enclose_rename (h : Renames σ g g') (t : Tree) (frames : List Frame) :
    Focus.enclose g' t (frames.map (Frame.rename σ)) = Focus.enclose g t frames := by
  induction frames generalizing t with
  | nil => rfl
  | cons f fs ih =>
    change Focus.enclose g' (Frame.close g' (Frame.rename σ (f.attach t))) _ = _
    rw [h.close_rename, ih]
    rfl

/-- Renaming leaves the tree as it is. -/
theorem tree_rename (h : Renames σ g g') (focus : Focus) :
    (focus.rename σ).tree g' = focus.tree g := by
  cases focus with
  | complete t => rfl
  | awaiting symbol frames =>
    cases frames with
    | nil => exact h.nodeOf_eq symbol []
    | cons f fs =>
      change Focus.enclose g' (Frame.close g' (f.rename σ)) _ = _
      rw [h.close_rename, h.enclose_rename]
      rfl

theorem stack_rename (h : Renames σ g g') (focus : Focus) :
    (focus.rename σ).stack g' = (focus.stack g).map σ := by
  cases focus with
  | complete t => simp [Focus.rename, Focus.stack, h.finish]
  | awaiting symbol frames =>
    simp [Focus.rename, Focus.stack, h.finish, Frame.rename, List.map_flatMap, List.flatMap_map]

/-! ## Moves -/

section Moves

variable (h : Renames σ g g') (hg : g.WellFormed) (hg' : g'.WellFormed)
include h hg hg'

theorem nextTerminal?_eq (input : List String) :
    (Parser.generate g').nextTerminal? input =
      ((Parser.generate g).nextTerminal? input).map σ := by
  cases input with
  | nil => exact congrArg some h.finish.symm
  | cons token rest =>
    change (g'.findTerminal? token).filter (· != g'.finish) =
      ((g.findTerminal? token).filter (· != g.finish)).map σ
    rw [h.findTerminal?_eq hg hg', ← h.finish]
    cases g.findTerminal? token with
    | none => rfl
    | some t =>
      by_cases ht : t = g.finish
      · simp [Option.filter, ht]
      · simp [Option.filter, ht, h.injective.eq_iff]

theorem consult_eq (symbol : Nat) (input : List String) :
    (Parser.generate g').consult (σ symbol) input = (Parser.generate g).consult symbol input := by
  rw [Parser.consult, h.nextTerminal?_eq hg hg', Parser.consult]
  cases (Parser.generate g).nextTerminal? input with
  | none => rfl
  | some t => exact h.cell?_eq hg hg' symbol t

theorem moveAtNonterminal_eq (recovery : Recovery) (symbol : Nat) (s : State) :
    (Parser.generate g').moveAtNonterminal recovery (σ symbol) (s.rename σ) =
      (Parser.generate g).moveAtNonterminal recovery symbol s := by
  have hname : (Parser.generate g').grammar.name (σ symbol) =
      (Parser.generate g).grammar.name symbol := h.name_eq symbol
  have hinput : (s.rename σ).input = s.input := rfl
  unfold Parser.moveAtNonterminal
  rw [hinput, h.consult_eq hg hg', hname]
  rfl

/-- **The same move is made** in a state and in the renamed one. -/
theorem move_eq (recovery : Recovery) (s : State) :
    (Parser.generate g').move recovery (s.rename σ) = (Parser.generate g).move recovery s := by
  obtain ⟨focus, input⟩ := s
  cases focus with
  | complete t =>
    cases input with
    | nil => rfl
    | cons token rest =>
      have hname : g'.name g'.finish = g.name g.finish := by rw [← h.finish, h.name_eq]
      exact congrArg (fun name => Move.fail (.mismatch name token)) hname
  | awaiting symbol frames =>
    have hname : (Parser.generate g').grammar.name (σ symbol) =
        (Parser.generate g).grammar.name symbol := h.name_eq symbol
    have hkind : (Parser.generate g').grammar.isTerminal (σ symbol) =
        (Parser.generate g).grammar.isTerminal symbol := h.isTerminal_eq symbol
    have hrow : ((Parser.generate g').table.row? (σ symbol)).isSome =
        ((Parser.generate g).table.row? symbol).isSome := h.isSome_row?_eq symbol
    have hmove := h.moveAtNonterminal_eq hg hg' recovery symbol ⟨.awaiting symbol frames, input⟩
    rw [Parser.move, Parser.move]
    dsimp only [State.rename, Focus.rename] at hmove ⊢
    rw [hname, hkind]
    cases hfind : (Parser.generate g).table.row? symbol with
    | none =>
      rw [hfind, Option.isSome_none, Option.isSome_eq_false_iff, Option.isNone_iff_eq_none] at hrow
      rw [hrow]
      rfl
    | some row =>
      rw [hfind, Option.isSome_some, Option.isSome_iff_exists] at hrow
      obtain ⟨row', hrow'⟩ := hrow
      rw [hrow']
      dsimp only
      rw [hmove]
      rfl

end Moves

/-- **Moves lead to renamed states.** -/
theorem advance_rename (h : Renames σ g g') (s : State) (m : Move) :
    (Parser.generate g').advance (s.rename σ) m =
      ((Parser.generate g).advance s m).map (State.rename σ) := by
  obtain ⟨focus, input⟩ := s
  cases focus with
  | complete t => rfl
  | awaiting symbol frames =>
    cases m with
    | shift =>
      change some (State.mk (Focus.plug g' (g'.leafOf (σ symbol)) _) _) = _
      rw [h.leafOf_eq, h.plug_rename]
      rfl
    | expand number =>
      change some (State.mk (Focus.expand g' (σ symbol) _ (g'.alternative (σ symbol) number)) _) = _
      rw [h.alternative_eq, h.expand_rename]
      rfl
    | giveUp =>
      change some (State.mk (Focus.leaveOut g' (σ symbol) _) _) = _
      rw [h.leaveOut_rename]
      rfl
    | passOver => rfl
    | accept => rfl
    | fail failure => rfl

/-! ## Histories and reports -/

theorem historyFrom_rename (h : Renames σ g g') (hg : g.WellFormed) (hg' : g'.WellFormed)
    (recovery : Recovery) (limit k : Nat) (s : State) :
    (Parser.generate g').historyFrom recovery limit k (s.rename σ) =
      ((Parser.generate g).historyFrom recovery limit k s).map (Event.rename σ) := by
  induction k generalizing s with
  | zero => rfl
  | succ k ih =>
    rw [Parser.historyFrom, Parser.historyFrom, h.move_eq hg hg', h.advance_rename]
    cases (Parser.generate g).advance s ((Parser.generate g).move recovery s) with
    | none => rfl
    | some next => exact congrArg (_ :: ·) (ih next)

theorem current_rename (h : Renames σ g g') (s : State) :
    (Parser.generate g').current (s.rename σ) = σ ((Parser.generate g).current s) := by
  rw [Parser.current, Parser.current]
  change ((s.focus.rename σ).stack g').headD g'.finish = σ ((s.focus.stack g).headD g.finish)
  rw [h.stack_rename, ← h.finish]
  cases s.focus.stack g <;> rfl

theorem action_rename (h : Renames σ g g') (e : Event) :
    (Parser.generate g').action (e.rename σ) = (Parser.generate g).action e := by
  obtain ⟨s, m⟩ := e
  rw [Parser.action, Parser.action]
  dsimp only [Event.rename]
  rw [h.current_rename]
  cases m with
  | expand number => exact congrArg Action.apply (h.productionText_eq _ number)
  | giveUp => exact congrArg Action.syncPop (h.name_eq _)
  | _ => rfl

theorem traceEntry_rename (h : Renames σ g g') (e : Event) (i : Nat) :
    (Parser.generate g').traceEntry (e.rename σ, i) = (Parser.generate g).traceEntry (e, i) := by
  have hstack : ((e.state.focus.rename σ).stack g').map g'.name =
      (e.state.focus.stack g).map g.name := by
    rw [h.stack_rename, h.map_name_eq]
  rw [Parser.traceEntry, Parser.traceEntry, h.action_rename]
  change TraceEntry.mk i (((e.state.focus.rename σ).stack g').map g'.name).reverse _ _ = _
  rw [hstack]
  rfl

theorem recoveryPoint?_rename (h : Renames σ g g') (m : Move) (e : Event) (i : Nat) :
    (Parser.generate g').recoveryPoint? m (e.rename σ, i) =
      (Parser.generate g).recoveryPoint? m (e, i) := by
  have hname : (Parser.generate g').grammar.name ((Parser.generate g').current (e.state.rename σ)) =
      (Parser.generate g).grammar.name ((Parser.generate g).current e.state) := by
    rw [h.current_rename]
    exact h.name_eq _
  rw [Parser.recoveryPoint?, Parser.recoveryPoint?]
  dsimp only [Event.rename]
  rw [hname]
  rfl

/-- **Reports have names only**: renaming leaves them as they are. -/
theorem report_rename (h : Renames σ g g') (history : List Event) (s : State) :
    (Parser.generate g').report (history.map (Event.rename σ)) (s.rename σ) =
      (Parser.generate g).report history s := by
  have hnumbered : (history.map (Event.rename σ)).zipIdx 1 =
      (history.zipIdx 1).map fun e => (e.1.rename σ, e.2) := List.zipIdx_map
  have hrecovery : ∀ m, ((history.map (Event.rename σ)).zipIdx 1).filterMap
      ((Parser.generate g').recoveryPoint? m) =
      (history.zipIdx 1).filterMap ((Parser.generate g).recoveryPoint? m) := fun m => by
    rw [hnumbered, List.filterMap_map]
    congr 1
    funext e
    exact h.recoveryPoint?_rename m e.1 e.2
  have htrace : ((history.map (Event.rename σ)).zipIdx 1).map (Parser.generate g').traceEntry =
      (history.zipIdx 1).map (Parser.generate g).traceEntry := by
    rw [hnumbered, List.map_map]
    refine List.map_congr_left fun e _ => h.traceEntry_rename e.1 e.2
  have htree : (Parser.generate g').finalTree (history.map (Event.rename σ)) (s.rename σ) =
      (Parser.generate g).finalTree history s := by
    rw [Parser.finalTree, Parser.finalTree, List.getLast?_map]
    cases history.getLast? with
    | none => exact h.tree_rename s.focus
    | some e => exact h.tree_rename e.state.focus
  have haccept : (history.map (Event.rename σ)).getLast?.any (·.move == .accept) =
      history.getLast?.any (·.move == .accept) := by
    rw [List.getLast?_map]
    cases history.getLast? <;> rfl
  rw [Parser.report, Parser.report, hrecovery, hrecovery, htrace, htree, haccept]

/-- **The runs of a renamed grammar are the same.** -/
theorem run_eq (h : Renames σ g g') (hg : g.WellFormed) (hg' : g'.WellFormed)
    (input : List String) (options : RunOptions) :
    (Parser.generate g').run input options = (Parser.generate g).run input options := by
  have hinitial : (Parser.generate g').initial input =
      ((Parser.generate g).initial input).rename σ :=
    congrArg (fun start => State.mk (.awaiting start []) input) h.start.symm
  rw [Parser.run, Parser.history, hinitial, h.historyFrom_rename hg hg', h.report_rename]
  rfl

end Renames

end Grammar

end TopDown
