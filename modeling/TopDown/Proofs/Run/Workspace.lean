import TopDown.Proofs.Run.Arena
import TopDown.Proofs.Run.Growth
import TopDown.Proofs.Run.Outcome

/-!
# Runs in a workspace

The state of the automaton is a place in a tree, and the tree goes along with it. A program has no
such place. It keeps a stack of symbols, each with the number of the node that it comes below, a
cursor on a list of tokens and an arena, and changes them in place; and it writes its trace, its
points of recovery and its log as it goes.

Here a run is made a second time, on such a `Workspace`. Every access to a name or a node can fail,
and so can the assembly of the tree. For a parser of a well-formed grammar nothing fails, and the
outcome is the run of the automaton and its log (`Parser.run?_eq`). A workspace stands for a state
(`Workspace.Represents`): its stack is that of the state, where every symbol has the place of its
frame, and its arena is that of the tree as far as it goes.

## Main definitions

* `Workspace`: what the steps of a run change
* `Parser.step?`, `Parser.loop?`, `Parser.run?`: a run, with every lookup that can fail
* `Focus.links`: the stack with the places of the frames
* `Workspace.Represents`: a workspace that stands for a state

## Main results

* `Parser.step?_of_step`, `Parser.step?_of_final`: a step in a workspace is one of the automaton
* `Parser.loop?_of_steps`: the loop goes through every stretch of steps
* `Parser.run?_eq`: nothing fails in a run, and its outcome is that of the automaton
-/

namespace TopDown

/-- What the steps of a run change. A symbol on the stack, of which the next one comes first, has
the place of the node that it comes below. -/
structure Workspace where
  stack : List (Nat × Option Nat)
  tokens : List String
  cursor : Nat
  arena : Array ArenaNode
  syncPoints : List RecoveryPoint
  skipPoints : List RecoveryPoint
  log : List LogRecord

namespace Workspace

/-- The token under the cursor. -/
def token (w : Workspace) : String :=
  w.tokens[w.cursor]?.getD Mark.finish

/-- Whether no more than the end mark is left. -/
def atEnd (w : Workspace) : Bool :=
  w.tokens.length ≤ w.cursor + 1

/-- A line about a step. -/
def line (step : Nat) (text : String) : String :=
  "step " ++ step.repr ++ ": " ++ text

/-- A workspace in which an entry of the trace has been reported. -/
def report (w : Workspace) (level : LogLevel) (e : TraceEntry) : Workspace :=
  { w with log := w.log ++ [⟨level, line e.step e.action.text⟩] }

end Workspace

namespace Parser

/-- The workspace before the first step. -/
def workspace? (p : Parser) (input : List String) : Option Workspace := do
  let name ← p.grammar.name? p.grammar.start
  return { stack := [(p.grammar.start, none), (p.grammar.finish, none)],
           tokens := input ++ [Mark.finish], cursor := 0,
           arena := #[⟨.nonterminal, name, []⟩], syncPoints := [], skipPoints := [], log := [] }

/-- The stack by name, from the bottom to the top, and the tokens that are left. -/
def snapshot? (p : Parser) (w : Workspace) : Option Snapshot := do
  let stack ← w.stack.reverse.mapM fun link => p.grammar.name? link.1
  return ⟨stack, w.tokens.drop w.cursor⟩

/-- The cell that says how to go on with a nonterminal. A token before the end that looks like the
end mark is no terminal. -/
def consult? (p : Parser) (symbol : Nat) (w : Workspace) : Option Cell :=
  match (p.grammar.findTerminal? w.token).filter (fun t => t != p.grammar.finish || w.atEnd) with
  | some terminal => p.table.cell? symbol terminal
  | none => some .skip

/-- The leaf for a terminal that is matched. -/
def leaf? (name : String) (arena : Array ArenaNode) : Option Nat → Option (Array ArenaNode)
  | some parent => (Arena.attach? arena parent .terminal name).map Prod.fst
  | none => some arena

/-- A step at a terminal. -/
def match? (p : Parser) (symbol : Nat) (name : String) (parent : Option Nat) (w : Workspace) :
    Option (Workspace × Action) :=
  if name ≠ w.token ∨ symbol = p.grammar.finish then
    some (w, .error (.mismatch name w.token))
  else do
    let arena ← leaf? name w.arena parent
    return ({ w with arena, cursor := w.cursor + 1 }, .matchToken w.token)

/-- The node for a nonterminal that is expanded. The root is there from the start. -/
def open? (p : Parser) (symbol : Nat) (arena : Array ArenaNode) :
    Option Nat → Option (Array ArenaNode × Nat)
  | some parent => do
    let name ← p.grammar.name? symbol
    Arena.attach? arena parent .nonterminal name
  | none => some (arena, 0)

/-- An expansion of a nonterminal. -/
def expand? (p : Parser) (symbol number : Nat) (parent : Option Nat) (w : Workspace) :
    Option (Workspace × Action) := do
  let (arena, node) ← p.open? symbol w.arena parent
  let text ← p.grammar.productionText? symbol number
  match p.grammar.alternative symbol number with
  | [] =>
    let (arena, _) ← Arena.attach? arena node .epsilon Mark.epsilon
    return ({ w with arena }, .apply text)
  | α => return ({ w with arena, stack := α.map (·, some node) ++ w.stack }, .apply text)

/-- A step at a nonterminal. -/
def predict? (p : Parser) (recovery : Recovery) (step symbol : Nat) (name : String)
    (parent : Option Nat) (w : Workspace) : Option (Workspace × Action) :=
  match p.consult? symbol w, recovery with
  | some (.predict number _), _ => p.expand? symbol number parent w
  | some .sync, .panic =>
    let text := "sync-pop " ++ name ++ " on '" ++ w.token ++ "'"
    some ({ w with syncPoints := w.syncPoints ++ [⟨step, w.token, name⟩],
                   log := w.log ++ [⟨.warn, Workspace.line step text⟩] }, .syncPop name)
  | some .skip, .panic =>
    let text := "skip '" ++ w.token ++ "' while expanding " ++ name
    some ({ w with cursor := w.cursor + 1, stack := (symbol, parent) :: w.stack,
                   skipPoints := w.skipPoints ++ [⟨step, w.token, name⟩],
                   log := w.log ++ [⟨.warn, Workspace.line step text⟩] }, .skipToken w.token)
  | _, _ => some (w, .error (.noProduction name w.token))

/-- A step at a symbol that has been taken from the stack. -/
def step? (p : Parser) (recovery : Recovery) (step symbol : Nat) (parent : Option Nat)
    (w : Workspace) : Option (Workspace × Action) := do
  let name ← p.grammar.name? symbol
  if symbol = p.grammar.finish ∧ w.atEnd then return (w, .accept)
  else if p.grammar.isTerminal symbol then p.match? symbol name parent w
  else if (p.table.row? symbol).isSome then p.predict? recovery step symbol name parent w
  else return (w, .error (.unknownSymbol name))

/-- Steps until one of them ends the run, and what is in the trace then. -/
def loop? (p : Parser) (options : RunOptions) (trace : List TraceEntry) (w : Workspace) :
    Option (List TraceEntry × Workspace) :=
  match w.stack with
  | [] => some (trace, w)
  | (symbol, parent) :: below => do
    let step := trace.length + 1
    let ⟨stack, input⟩ ← p.snapshot? w
    if options.maxSteps ≤ trace.length then
      let entry := ⟨step, stack, input, .error (.stepLimit options.maxSteps)⟩
      return (trace ++ [entry], w.report .warn entry)
    else
      let (w, action) ← p.step? options.recovery step symbol parent { w with stack := below }
      let entry := ⟨step, stack, input, action⟩
      let w := w.report .trace entry
      if action.isFinal then return (trace ++ [entry], w)
      else loop? p options (trace ++ [entry]) w
termination_by options.maxSteps - trace.length
decreasing_by
  rw [List.length_append, List.length_singleton]
  omega

/-- The run of a parser on tokens, and what is reported while it is made. -/
def run? (p : Parser) (input : List String) (options : RunOptions) :
    Option (Run × List LogRecord) := do
  let w ← p.workspace? input
  let (trace, w) ← p.loop? options [] w
  let tree ← Arena.assemble? w.arena 0
  let accepted := trace.getLast?.any (·.action == .accept) && w.syncPoints.isEmpty &&
    w.skipPoints.isEmpty
  let r : Run := ⟨trace, tree, w.syncPoints, w.skipPoints, accepted⟩
  return (r, w.log ++ [⟨.info, "parse finished after " ++ trace.length.repr ++ " steps: " ++
    (if accepted then "accepted " else "rejected ") ++ r.recoveries⟩])

end Parser

/-! ## The stack of a place in a tree -/

namespace Focus

/-- The place of the node that a symbol inside frames comes below. -/
def parent? : List Frame → Option Nat
  | [] => none
  | _ :: fs => some (place fs)

/-- The symbols that wait inside frames, with the places of their frames, and the end mark. -/
def linksBelow (g : Grammar) : List Frame → List (Nat × Option Nat)
  | [] => [(g.finish, none)]
  | f :: fs => f.todo.map (·, some (place fs)) ++ linksBelow g fs

/-- The symbols that are still to be dealt with, the next one first, each with the place of the node
that it comes below. -/
def links (g : Grammar) : Focus → List (Nat × Option Nat)
  | awaiting symbol frames => (symbol, parent? frames) :: linksBelow g frames
  | complete _ => [(g.finish, none)]

variable (g : Grammar)

/-- A finished subtree leaves the symbols that were waiting, with their parents. -/
theorem links_plug (t : Tree) (fs : List Frame) : (plug g t fs).links g = linksBelow g fs := by
  fun_induction plug g t fs with
  | case1 t => rfl
  | case2 t f fs htodo ih => simp [ih, linksBelow, htodo]
  | case3 t f fs symbol todo htodo => simp [links, parent?, linksBelow, htodo]

theorem links_leaveOut (symbol : Nat) (fs : List Frame) :
    (leaveOut g symbol fs).links g = linksBelow g fs := by
  cases fs with
  | nil => rfl
  | cons f fs =>
    rw [leaveOut]
    split
    · next htodo => simp [links_plug, linksBelow, htodo]
    · next next todo htodo => simp [links, parent?, linksBelow, htodo]

/-- The symbols of an alternative come below the node of the expanded symbol. -/
theorem links_expand (symbol : Nat) (fs : List Frame) (α : List Nat) :
    (expand g symbol fs α).links g = α.map (·, some (place fs)) ++ linksBelow g fs := by
  cases α with
  | nil => exact links_plug g _ fs
  | cons first todo => rfl

theorem map_fst_linksBelow (fs : List Frame) :
    (linksBelow g fs).map Prod.fst = fs.flatMap Frame.todo ++ [g.finish] := by
  induction fs with
  | nil => rfl
  | cons f fs ih =>
    rw [linksBelow, List.map_append, List.map_map, ih, List.flatMap_cons, List.append_assoc]
    exact congrArg (· ++ _) (List.map_id f.todo)

/-- Without the parents, this is the stack. -/
theorem map_fst_links (focus : Focus) : (focus.links g).map Prod.fst = focus.stack g := by
  cases focus with
  | awaiting symbol frames => exact congrArg (symbol :: ·) (map_fst_linksBelow g frames)
  | complete t => rfl

/-- Without a subtree, the tree stays as it is. -/
theorem tree_leaveOut (symbol : Nat) (fs : List Frame) :
    (leaveOut g symbol fs).tree g = (awaiting symbol fs).tree g := by
  cases fs with
  | nil => rfl
  | cons f fs =>
    rw [leaveOut]
    split
    · next htodo => exact tree_plug g _ fs
    · rfl

end Focus

/-! ## Workspaces and states -/

namespace Parser

/-- The trace of the events of a run. -/
def traceOf (p : Parser) (es : List Event) : List TraceEntry :=
  (es.zipIdx 1).map p.traceEntry

theorem length_traceOf (p : Parser) (es : List Event) : (p.traceOf es).length = es.length := by
  rw [traceOf, List.length_map, List.length_zipIdx]

theorem zipIdx_concat (es : List Event) (e : Event) :
    (es ++ [e]).zipIdx 1 = es.zipIdx 1 ++ [(e, es.length + 1)] := by
  rw [List.zipIdx_append, Nat.add_comm]
  rfl

theorem traceOf_concat (p : Parser) (es : List Event) (e : Event) :
    p.traceOf (es ++ [e]) = p.traceOf es ++ [p.traceEntry (e, es.length + 1)] := by
  rw [traceOf, zipIdx_concat, List.map_append, List.map_singleton, traceOf]

end Parser

namespace Workspace

/-- A workspace holds the tokens that are left in a state and what there is of the tree, and has put
down the events before the state. -/
structure Reports (w : Workspace) (p : Parser) (es : List Event) (s : State) : Prop where
  tokens_eq : w.tokens.drop w.cursor = s.input ++ [Mark.finish]
  arena_eq : w.arena = ((s.focus.tree p.grammar).arena 0).toArray
  syncPoints_eq : w.syncPoints = (es.zipIdx 1).filterMap (p.recoveryPoint? .giveUp)
  skipPoints_eq : w.skipPoints = (es.zipIdx 1).filterMap (p.recoveryPoint? .passOver)
  log_eq : w.log = (p.traceOf es).flatMap Run.entryLog

/-- A workspace stands for a state that has been reached by some events. -/
structure Represents (w : Workspace) (p : Parser) (es : List Event) (s : State) : Prop
    extends Reports w p es s where
  stack_eq : w.stack = s.focus.links p.grammar

namespace Reports

variable {w w' : Workspace} {p : Parser} {es : List Event} {s next : State}

/-- The token under the cursor is the one that comes next. -/
theorem token_eq (h : w.Reports p es s) : w.token = s.token := by
  have hhead : w.tokens[w.cursor]? = (s.input ++ [Mark.finish])[0]? := by
    rw [← h.tokens_eq, List.getElem?_drop, Nat.add_zero]
  rw [token, hhead, State.token]
  cases s.input <;> rfl

theorem atEnd_iff (h : w.Reports p es s) : w.atEnd = true ↔ s.input = [] := by
  have hlength := congrArg List.length h.tokens_eq
  rw [List.length_drop, List.length_append, List.length_singleton] at hlength
  rw [atEnd, decide_eq_true_iff, ← List.length_eq_zero_iff]
  omega

/-- The cursor moves on. -/
theorem drop_succ (h : w.Reports p es s) (hne : s.input ≠ []) :
    w.tokens.drop (w.cursor + 1) = s.input.tail ++ [Mark.finish] := by
  obtain ⟨token, rest, hinput⟩ := List.exists_cons_of_ne_nil hne
  rw [← List.drop_drop, h.tokens_eq, hinput]
  rfl

/-- What is left on the stack does not matter for what has been put down. -/
theorem with_stack (h : w.Reports p es s) (stack : List (Nat × Option Nat)) :
    ({ w with stack } : Workspace).Reports p es s :=
  ⟨h.tokens_eq, h.arena_eq, h.syncPoints_eq, h.skipPoints_eq, h.log_eq⟩

/-- An event is put down: what it reports, and its place of recovery if it is one. -/
theorem report (h : w.Reports p es s) {m : Move} {level : LogLevel}
    (htokens : w'.tokens.drop w'.cursor = next.input ++ [Mark.finish])
    (harena : w'.arena = ((next.focus.tree p.grammar).arena 0).toArray)
    (hsync : w'.syncPoints =
      w.syncPoints ++ (p.recoveryPoint? .giveUp (⟨s, m⟩, es.length + 1)).toList)
    (hskip : w'.skipPoints =
      w.skipPoints ++ (p.recoveryPoint? .passOver (⟨s, m⟩, es.length + 1)).toList)
    (hlog : w'.log ++ [⟨level, line (es.length + 1) (p.action ⟨s, m⟩).text⟩] =
      w.log ++ Run.entryLog (p.traceEntry (⟨s, m⟩, es.length + 1))) :
    (w'.report level (p.traceEntry (⟨s, m⟩, es.length + 1))).Reports p (es ++ [⟨s, m⟩]) next := by
  have hsingle (f : Event × Nat → Option RecoveryPoint) (e : Event × Nat) :
      [e].filterMap f = (f e).toList := by
    cases h : f e <;> simp [h]
  refine ⟨htokens, harena, ?_, ?_, ?_⟩
  · rw [Parser.zipIdx_concat, List.filterMap_append, ← h.syncPoints_eq, hsingle]
    exact hsync
  · rw [Parser.zipIdx_concat, List.filterMap_append, ← h.skipPoints_eq, hsingle]
    exact hskip
  · rw [Parser.traceOf_concat, List.flatMap_append, ← h.log_eq, List.flatMap_singleton]
    exact hlog

/-- An event that does not recover is put down, and no place of recovery with it. -/
theorem report_regular (h : w.Reports p es s) {m : Move} {level : LogLevel}
    (hm : m.isRecovery = false)
    (htokens : w'.tokens.drop w'.cursor = next.input ++ [Mark.finish])
    (harena : w'.arena = ((next.focus.tree p.grammar).arena 0).toArray)
    (hsync : w'.syncPoints = w.syncPoints) (hskip : w'.skipPoints = w.skipPoints)
    (hlog : w'.log ++ [⟨level, line (es.length + 1) (p.action ⟨s, m⟩).text⟩] =
      w.log ++ Run.entryLog (p.traceEntry (⟨s, m⟩, es.length + 1))) :
    (w'.report level (p.traceEntry (⟨s, m⟩, es.length + 1))).Reports p (es ++ [⟨s, m⟩]) next := by
  obtain ⟨hgiveUp, hpassOver⟩ := Move.isRecovery_eq_false_iff.mp hm
  refine h.report htokens harena ?_ ?_ hlog
  · rw [Parser.recoveryPoint?_eq_none_iff.mpr hgiveUp, Option.toList_none, List.append_nil, hsync]
  · rw [Parser.recoveryPoint?_eq_none_iff.mpr hpassOver, Option.toList_none, List.append_nil, hskip]

/-- An event that ends the run is put down. -/
theorem report_final (h : w.Reports p es s) {m : Move} {level : LogLevel}
    (hm : (p.action ⟨s, m⟩).isFinal = true)
    (hlog : Run.entryLog (p.traceEntry (⟨s, m⟩, es.length + 1)) =
      [⟨level, line (es.length + 1) (p.action ⟨s, m⟩).text⟩]) :
    (w.report level (p.traceEntry (⟨s, m⟩, es.length + 1))).Reports p (es ++ [⟨s, m⟩]) s := by
  have hregular : m.isRecovery = false :=
    (Parser.isRecovery_action ⟨s, m⟩).symm.trans (Parser.isRecovery_of_isFinal hm)
  exact h.report_regular hregular h.tokens_eq h.arena_eq rfl rfl (by rw [hlog])

end Reports

end Workspace

namespace Parser

variable {g : Grammar} {w : Workspace} {es : List Event} {s next last : State} {m : Move}
  {recovery : Recovery} {options : RunOptions}

open Workspace (Reports Represents)

/-! ## Lookups -/

/-- All symbols on the stack have names. -/
theorem snapshot?_eq (hg : g.WellFormed) (hs : s.Based g)
    (h : w.Represents (generate g) es s) :
    (generate g).snapshot? w = some ((generate g).snapshot s) := by
  have hstack : w.stack.map Prod.fst = s.focus.stack g := by
    rw [h.stack_eq]
    exact Focus.map_fst_links g s.focus
  have hnames : ∀ link ∈ w.stack.reverse,
      (generate g).grammar.name? link.1 = some (g.name link.1) := by
    intro link hlink
    have hmem : link.1 ∈ s.focus.stack g := by
      rw [← hstack]
      exact List.mem_map_of_mem (List.mem_reverse.mp hlink)
    obtain ⟨γ, hγ, hlt⟩ := hs
    rw [hγ] at hmem
    refine Catalog.name?_eq_name ?_
    rcases List.mem_append.mp hmem with hmem | hmem
    · exact Nat.lt_trans (hlt _ hmem) hg.finish_lt
    · exact List.mem_singleton.mp hmem ▸ hg.finish_lt
  have hmap : w.stack.reverse.map (fun link => g.name link.1) =
      ((s.focus.stack g).map g.name).reverse := by
    rw [← hstack, List.map_map, List.map_reverse]
    rfl
  rw [snapshot?, mapM_eq_some hnames, hmap, h.tokens_eq]
  rfl

/-- The cell is that of the state. -/
theorem consult?_eq (hg : g.WellFormed) (h : w.Reports (generate g) es s) (symbol : Nat) :
    (generate g).consult? symbol w = (generate g).consult symbol s.input := by
  have hnext : ((generate g).grammar.findTerminal? w.token).filter
      (fun t => t != (generate g).grammar.finish || w.atEnd) =
        (generate g).nextTerminal? s.input := by
    rw [h.token_eq, State.token]
    cases hinput : s.input with
    | nil =>
      have hatEnd : w.atEnd = true := h.atEnd_iff.mpr hinput
      have hfinish : g.findTerminal? Mark.finish = some g.finish :=
        hg.name_finish ▸ hg.findTerminal?_name hg.isTerminal_finish
      rw [hatEnd, List.headD_nil]
      change (g.findTerminal? Mark.finish).filter _ = _
      rw [hfinish]
      simp [nextTerminal?, generate]
    | cons token rest =>
      have hatEnd : w.atEnd = false := by
        rw [← Bool.not_eq_true, h.atEnd_iff, hinput]
        simp
      simp only [hatEnd, Bool.or_false]
      rfl
  rw [consult?, hnext]
  rfl

/-! ## Nodes -/

/-- The node for a nonterminal is the root, or a new one at the end. -/
theorem open?_eq {symbol : Nat} (hlt : symbol < g.size) (frames : List Frame) :
    (generate g).open? symbol (((Focus.awaiting symbol frames).tree g).arena 0).toArray
        (Focus.parent? frames) =
      some (((Focus.enclose g (g.nodeOf symbol []) frames).arena 0).toArray,
        Focus.place frames) := by
  cases frames with
  | nil => rfl
  | cons f fs =>
    have hname : (generate g).grammar.name? symbol = some (g.name symbol) :=
      Catalog.name?_eq_name hlt
    rw [Focus.parent?, open?, hname]
    exact Arena.attach?_enclose g f fs .nonterminal (g.name symbol)

/-- An expansion makes a node, and the symbols of the alternative come below it. -/
theorem expand?_eq (hg : g.WellFormed) {symbol : Nat} {frames : List Frame}
    (hlt : symbol < g.size) (number : Nat)
    (harena : w.arena = (((Focus.awaiting symbol frames).tree g).arena 0).toArray) :
    (generate g).expand? symbol number (Focus.parent? frames) w =
      some ({ w with
        arena := (((Focus.expand g symbol frames (g.alternative symbol number)).tree g).arena
          0).toArray,
        stack := (g.alternative symbol number).map (·, some (Focus.place frames)) ++ w.stack },
        .apply (g.productionText symbol number)) := by
  have htext : (generate g).grammar.productionText? symbol number =
      some (g.productionText symbol number) :=
    Catalog.productionText?_eq hlt fun s => Grammar.lt_size_of_mem_alternative hg
  have halternative : (generate g).grammar.alternative symbol number =
      g.alternative symbol number := rfl
  rw [expand?, harena, open?_eq hlt, htext, halternative]
  dsimp only [Option.bind_eq_bind, Option.bind_some]
  cases g.alternative symbol number with
  | nil =>
    have hempty : Arena.attach? ((Focus.enclose g (g.nodeOf symbol []) frames).arena 0).toArray
        (Focus.place frames) .epsilon Mark.epsilon =
          some (((Focus.enclose g (g.nodeOf symbol [Tree.empty]) frames).arena 0).toArray, _) :=
      Arena.attach?_enclose g ⟨symbol, [], []⟩ frames .epsilon Mark.epsilon
    dsimp only
    rw [hempty, Focus.expand, Focus.tree_plug]
    rfl
  | cons first todo => rfl

/-! ## Steps -/

section Steps

variable {symbol : Nat} {frames : List Frame} {input : List String} {log : List Action}

/-- A symbol inside frames is not the end mark. -/
theorem step?_eq (hg : g.WellFormed) (hs : State.Based g ⟨.awaiting symbol frames, input⟩)
    (step : Nat) (parent : Option Nat) (w : Workspace) :
    (generate g).step? recovery step symbol parent w =
      if (generate g).grammar.isTerminal symbol = true then
        (generate g).match? symbol (g.name symbol) parent w
      else if ((generate g).table.row? symbol).isSome = true then
        (generate g).predict? recovery step symbol (g.name symbol) parent w
      else some (w, .error (.unknownSymbol (g.name symbol))) := by
  have hlt : symbol < g.finish := (based_awaiting_iff.mp hs).1
  have hname : (generate g).grammar.name? symbol = some (g.name symbol) :=
    Catalog.name?_eq_name (Nat.lt_trans hlt hg.finish_lt)
  rw [step?, hname]
  exact if_neg fun heq => Nat.ne_of_lt hlt heq.1

theorem step?_nonterminal (hg : g.WellFormed) (hs : State.Based g ⟨.awaiting symbol frames, input⟩)
    (hsymbol : (generate g).grammar.isTerminal symbol = false)
    (hrow : ((generate g).table.row? symbol).isSome = true) (step : Nat) (parent : Option Nat)
    (w : Workspace) :
    (generate g).step? recovery step symbol parent w =
      (generate g).predict? recovery step symbol (g.name symbol) parent w := by
  rw [step?_eq hg hs, if_neg (Bool.not_eq_true _ ▸ hsymbol), if_pos hrow]

/-- A terminal that is matched is a leaf. It is not the start symbol, so it has a parent. -/
theorem match?_eq (hg : g.WellFormed) {rest : List String}
    (hs : State.Based g ⟨.awaiting symbol frames, g.name symbol :: rest⟩)
    (hlog : (Focus.awaiting symbol frames).Records g log) (hsymbol : g.isTerminal symbol = true)
    (hw : w.Reports (generate g) es ⟨.awaiting symbol frames, g.name symbol :: rest⟩) :
    (generate g).match? symbol (g.name symbol) (Focus.parent? frames) w =
      some ({ w with
        arena := (((Focus.plug g (g.leafOf symbol) frames).tree g).arena 0).toArray,
        cursor := w.cursor + 1 }, .matchToken (g.name symbol)) := by
  have hne : symbol ≠ (generate g).grammar.finish := Nat.ne_of_lt (based_awaiting_iff.mp hs).1
  have htoken : w.token = g.name symbol := hw.token_eq
  rw [match?, if_neg (by simpa [htoken] using hne), htoken]
  cases frames with
  | nil =>
    obtain ⟨rfl, -⟩ := Focus.Reached.eq_root hlog
    rw [Catalog.isTerminal_eq_false hg.isNonterminal_start] at hsymbol
    cases hsymbol
  | cons f fs =>
    have hattach : Arena.attach? w.arena (Focus.place fs) .terminal (g.name symbol) = _ :=
      hw.arena_eq ▸ Arena.attach?_enclose g f fs .terminal (g.name symbol)
    rw [Focus.parent?, leaf?, hattach, Focus.tree_plug]
    rfl

/-- A nonterminal that is given up is announced, with the token that comes next. -/
theorem entryLog_giveUp (p : Parser) (n : Nat) :
    Run.entryLog (p.traceEntry (⟨⟨.awaiting symbol frames, input⟩, .giveUp⟩, n)) =
      [⟨.warn, Workspace.line n ("sync-pop " ++ p.grammar.name symbol ++ " on '" ++
          State.token ⟨.awaiting symbol frames, input⟩ ++ "'")⟩,
        ⟨.trace, Workspace.line n (Action.syncPop (p.grammar.name symbol)).text⟩] := by
  have htoken : (input ++ [Mark.finish]).headD "" =
      State.token ⟨.awaiting symbol frames, input⟩ := by
    cases input <;> rfl
  rw [← htoken]
  rfl

/-- A token that is passed over is announced, with the nonterminal that is to be expanded. -/
theorem entryLog_passOver (p : Parser) (n : Nat) :
    Run.entryLog (p.traceEntry (⟨⟨.awaiting symbol frames, input⟩, .passOver⟩, n)) =
      [⟨.warn, Workspace.line n ("skip '" ++ State.token ⟨.awaiting symbol frames, input⟩ ++
          "' while expanding " ++ p.grammar.name symbol)⟩,
        ⟨.trace, Workspace.line n
          (Action.skipToken (State.token ⟨.awaiting symbol frames, input⟩)).text⟩] := by
  have htop (names : List String) :
      (p.grammar.name symbol :: names).reverse.getLastD "" = p.grammar.name symbol := by
    rw [List.reverse_cons, List.getLastD_concat]
  conv_rhs => rw [← htop ((frames.flatMap Frame.todo ++ [p.grammar.finish]).map p.grammar.name)]
  rfl

/-- **A step in a workspace** that does not end the run is one of the automaton. -/
theorem step?_of_step (hg : g.WellFormed)
    (h : (generate g).Step recovery ⟨.awaiting symbol frames, input⟩ m next)
    (hs : State.Based g ⟨.awaiting symbol frames, input⟩)
    (hlog : (Focus.awaiting symbol frames).Records g log)
    (hw : w.Reports (generate g) es ⟨.awaiting symbol frames, input⟩)
    (hstack : w.stack = Focus.linksBelow g frames) :
    ∃ w', (generate g).step? recovery (es.length + 1) symbol (Focus.parent? frames) w =
        some (w', (generate g).action ⟨⟨.awaiting symbol frames, input⟩, m⟩) ∧
      (w'.report .trace ((generate g).traceEntry
        (⟨⟨.awaiting symbol frames, input⟩, m⟩, es.length + 1))).Represents (generate g)
          (es ++ [⟨⟨.awaiting symbol frames, input⟩, m⟩]) next := by
  have hlt : symbol < g.size := Nat.lt_trans (based_awaiting_iff.mp hs).1 hg.finish_lt
  cases h with
  | @shift symbol frames rest hsymbol =>
    have htokens := hw.drop_succ (List.cons_ne_nil _ _)
    rw [step?_eq hg hs, if_pos hsymbol]
    refine ⟨_, match?_eq hg hs hlog hsymbol hw,
      hw.report_regular rfl htokens rfl rfl rfl rfl, ?_⟩
    exact hstack.trans (Focus.links_plug g _ frames).symm
  | @expand symbol frames input number rivals hsymbol hrow hcell =>
    have hconsult := (consult?_eq hg hw symbol).trans hcell
    have hexpand := expand?_eq hg hlt number hw.arena_eq
    rw [step?_nonterminal hg hs hsymbol hrow]
    simp only [predict?, hconsult]
    refine ⟨_, hexpand, hw.report_regular rfl hw.tokens_eq rfl rfl rfl rfl, ?_⟩
    rw [hstack]
    exact (Focus.links_expand g symbol frames _).symm
  | @giveUp symbol frames input hsymbol hrow hrecovery hcell =>
    have hconsult := (consult?_eq hg hw symbol).trans hcell
    have hpoint (n : Nat) : (generate g).recoveryPoint? .giveUp
        (⟨⟨.awaiting symbol frames, input⟩, .giveUp⟩, n) = some ⟨n, _, g.name symbol⟩ := if_pos rfl
    rw [step?_nonterminal hg hs hsymbol hrow]
    simp only [predict?, hconsult, hrecovery, hw.token_eq]
    refine ⟨_, rfl, hw.report hw.tokens_eq ?_ ?_ ?_ ?_, ?_⟩
    · exact hw.arena_eq.trans (by rw [Focus.tree_leaveOut])
    · rw [hpoint, Option.toList_some]
    · simp [recoveryPoint?]
    · rw [entryLog_giveUp, List.append_assoc]
      rfl
    · exact hstack.trans (Focus.links_leaveOut g _ frames).symm
  | @passOver symbol frames input hsymbol hrow hrecovery hcell =>
    have hconsult := (consult?_eq hg hw symbol).trans hcell
    have hpoint (n : Nat) : (generate g).recoveryPoint? .passOver
        (⟨⟨.awaiting symbol frames, input⟩, .passOver⟩, n) = some ⟨n, _, g.name symbol⟩ :=
      if_pos rfl
    have htokens := hw.drop_succ (ne_nil_of_consult_eq_skip hcell)
    rw [step?_nonterminal hg hs hsymbol hrow]
    simp only [predict?, hconsult, hrecovery, hw.token_eq]
    refine ⟨_, rfl, hw.report htokens hw.arena_eq ?_ ?_ ?_, ?_⟩
    · simp [recoveryPoint?]
    · rw [hpoint, Option.toList_some]
    · rw [entryLog_passOver, List.append_assoc]
      rfl
    · exact congrArg _ hstack

/-- At the end of the tree a step ends the run. -/
theorem step?_complete (hg : g.WellFormed) {t : Tree}
    (hw : w.Reports (generate g) es ⟨.complete t, input⟩) (step : Nat) (parent : Option Nat) :
    (generate g).step? recovery step g.finish parent w =
      some (w, (generate g).action
        ⟨⟨.complete t, input⟩, (generate g).move recovery ⟨.complete t, input⟩⟩) := by
  have hname : (generate g).grammar.name? g.finish = some (g.name g.finish) :=
    Catalog.name?_eq_name hg.finish_lt
  have hfinish : (generate g).grammar.isTerminal g.finish = true := hg.isTerminal_finish
  rw [step?, hname]
  dsimp only [Option.bind_eq_bind, Option.bind_some]
  cases input with
  | nil =>
    rw [if_pos ⟨rfl, hw.atEnd_iff.mpr rfl⟩]
    rfl
  | cons token rest =>
    have hatEnd : ¬ w.atEnd = true := fun hend => by simpa using hw.atEnd_iff.mp hend
    have hmatch : (generate g).match? g.finish (g.name g.finish) parent w = _ :=
      if_pos (Or.inr rfl)
    rw [if_neg fun hend => hatEnd hend.2, if_pos hfinish, hmatch, hw.token_eq]
    rfl

/-- A terminal that is not matched ends the run. -/
theorem match?_of_final (hg : g.WellFormed)
    (hs : State.Based g ⟨.awaiting symbol frames, input⟩)
    (hw : w.Reports (generate g) es ⟨.awaiting symbol frames, input⟩)
    (hne : input.head? ≠ some (g.name symbol)) (parent : Option Nat) :
    (generate g).match? symbol (g.name symbol) parent w =
      some (w, .error (.mismatch (g.name symbol) (input.headD Mark.finish))) := by
  have htoken : w.token = input.headD Mark.finish := hw.token_eq
  rw [match?, htoken, if_pos (Or.inl (name_ne_headD hg (based_awaiting_iff.mp hs).1 hne))]

/-- A cell that does not say how to go on ends the run. -/
theorem predict?_of_final (hg : g.WellFormed) (hsymbol : g.isNonterminal symbol = true)
    (hw : w.Reports (generate g) es ⟨.awaiting symbol frames, input⟩)
    (h : (generate g).advance ⟨.awaiting symbol frames, input⟩
      ((generate g).moveAtNonterminal recovery symbol ⟨.awaiting symbol frames, input⟩) = none)
    (step : Nat) (parent : Option Nat) :
    (generate g).predict? recovery step symbol (g.name symbol) parent w =
      some (w, (generate g).action ⟨⟨.awaiting symbol frames, input⟩,
        (generate g).moveAtNonterminal recovery symbol ⟨.awaiting symbol frames, input⟩⟩) := by
  obtain ⟨rfl, hfail⟩ := moveAtNonterminal_eq_fail hg hsymbol h
  obtain ⟨cell, hcell⟩ := exists_consult hg hsymbol input
  have hconsult := (consult?_eq hg hw symbol).trans hcell
  cases cell with
  | predict number rivals => simp [moveAtNonterminal, hcell] at hfail
  | sync =>
    simp only [hfail, predict?, hconsult, hw.token_eq]
    rfl
  | skip =>
    simp only [hfail, predict?, hconsult, hw.token_eq]
    rfl

/-- **A step in a workspace** that ends the run changes nothing in it. -/
theorem step?_of_final (hg : g.WellFormed) (hs : s.Based g) (hw : w.Reports (generate g) es s)
    (h : (generate g).advance s ((generate g).move recovery s) = none) {parent : Option Nat}
    {below : List (Nat × Option Nat)} (hlinks : s.focus.links g = (symbol, parent) :: below)
    (step : Nat) : (generate g).step? recovery step symbol parent w =
      some (w, (generate g).action ⟨s, (generate g).move recovery s⟩) := by
  obtain ⟨focus, input⟩ := s
  cases focus with
  | complete t =>
    cases hlinks
    exact step?_complete hg hw step none
  | awaiting symbol frames =>
    cases hlinks
    rw [step?_eq hg hs]
    cases hsymbol : (generate g).grammar.isTerminal symbol with
    | true =>
      rw [move_awaiting_terminal hsymbol] at h ⊢
      have hne : input.head? ≠ some ((generate g).grammar.name symbol) := by
        intro hhead
        rw [if_pos hhead] at h
        cases h
      rw [if_pos rfl, if_neg hne]
      exact match?_of_final hg hs hw hne _
    | false =>
      rw [if_neg Bool.false_ne_true]
      cases hrow : ((generate g).table.row? symbol).isSome with
      | false =>
        rw [Option.isSome_eq_false_iff, Option.isNone_iff_eq_none] at hrow
        simp only [move, hsymbol, hrow]
        rfl
      | true =>
        rw [move_awaiting_nonterminal hsymbol hrow] at h ⊢
        exact predict?_of_final hg (isNonterminal_of_row? hrow) hw h step _

end Steps

/-! ## Runs -/

/-- The loop makes a step. -/
theorem loop?_of_step (hg : g.WellFormed) {log : List Action}
    (h : (generate g).Step options.recovery s m next) (hs : s.Based g)
    (hlog : s.focus.Records g log) (hw : w.Represents (generate g) es s)
    (hlt : es.length < options.maxSteps) :
    ∃ w', w'.Represents (generate g) (es ++ [⟨s, m⟩]) next ∧
      (generate g).loop? options ((generate g).traceOf es) w =
        (generate g).loop? options ((generate g).traceOf (es ++ [⟨s, m⟩])) w' := by
  obtain ⟨symbol, frames, input, rfl⟩ :
      ∃ symbol frames input, s = ⟨.awaiting symbol frames, input⟩ := by
    cases h <;> exact ⟨_, _, _, rfl⟩
  have hstack : w.stack = (symbol, Focus.parent? frames) :: Focus.linksBelow g frames :=
    hw.stack_eq
  obtain ⟨w', hstep, hw'⟩ :=
    step?_of_step hg h hs hlog (hw.with_stack (Focus.linksBelow g frames)) rfl
  refine ⟨_, hw', ?_⟩
  rw [loop?, hstack]
  dsimp only [Option.bind_eq_bind]
  rw [snapshot?_eq hg hs hw, Option.bind_some, length_traceOf, if_neg (Nat.not_le.mpr hlt), hstep,
    Option.bind_some]
  dsimp only
  rw [h.isFinal_action, traceOf_concat]
  rfl

/-- **The loop goes through every stretch of steps** that it is allowed to make. -/
theorem loop?_of_steps (hg : g.WellFormed) {log : List Action} {es' : List Event}
    (h : (generate g).Steps options.recovery s es' last) (hs : s.Based g)
    (hlog : s.focus.Records g log) (hw : w.Represents (generate g) es s)
    (hle : es.length + es'.length ≤ options.maxSteps) :
    ∃ w', w'.Represents (generate g) (es ++ es') last ∧
      (generate g).loop? options ((generate g).traceOf es) w =
        (generate g).loop? options ((generate g).traceOf (es ++ es')) w' := by
  induction h generalizing w es log with
  | refl s =>
    rw [List.append_nil]
    exact ⟨w, hw, rfl⟩
  | @cons s next last m es' hstep _ ih =>
    rw [List.length_cons] at hle
    obtain ⟨w₁, hw₁, hloop₁⟩ := loop?_of_step hg hstep hs hlog hw (by omega)
    obtain ⟨w₂, hw₂, hloop₂⟩ := ih (hstep.based hg hs) (hstep.records hg hlog) hw₁ (by simp; omega)
    rw [List.append_assoc, List.singleton_append] at hw₂ hloop₂
    exact ⟨w₂, hw₂, hloop₁.trans hloop₂⟩

/-- A step that ends the run is reported by its action only. -/
theorem entryLog_of_final (h : (generate g).advance s ((generate g).move recovery s) = none)
    {n : Nat} : Run.entryLog ((generate g).traceEntry (⟨s, (generate g).move recovery s⟩, n)) =
      [⟨.trace, Workspace.line n ((generate g).action
        ⟨s, (generate g).move recovery s⟩).text⟩] := by
  have hfinal := isFinal_of_advance_eq_none h
  cases hm : (generate g).move recovery s with
  | fail failure =>
    cases failure with
    | stepLimit limit => exact absurd hm (move_ne_stepLimit s limit)
    | _ => rfl
  | accept => rfl
  | _ =>
    rw [hm] at hfinal
    cases hfinal

/-- The loop ends with the run. -/
theorem loop?_of_end (hg : g.WellFormed) (hs : s.Based g) (hw : w.Represents (generate g) es s)
    (h : (es.length = options.maxSteps ∧ m = .fail (.stepLimit options.maxSteps)) ∨
      (es.length < options.maxSteps ∧ m = (generate g).move options.recovery s ∧
        (generate g).advance s m = none)) :
    ∃ w', (generate g).loop? options ((generate g).traceOf es) w =
        some ((generate g).traceOf (es ++ [⟨s, m⟩]), w') ∧
      w'.Reports (generate g) (es ++ [⟨s, m⟩]) s := by
  obtain ⟨symbol, parent, below, hlinks⟩ : ∃ symbol parent below,
      s.focus.links g = (symbol, parent) :: below := by
    cases s.focus <;> exact ⟨_, _, _, rfl⟩
  have hstack : w.stack = (symbol, parent) :: below := hw.stack_eq.trans hlinks
  have hpop := hw.with_stack below
  rw [loop?, hstack, traceOf_concat]
  dsimp only [Option.bind_eq_bind]
  rw [snapshot?_eq hg hs hw, Option.bind_some, length_traceOf]
  rcases h with ⟨hlength, rfl⟩ | ⟨hlt, rfl, hnext⟩
  · have hreports := hw.report_final (m := .fail (.stepLimit options.maxSteps)) rfl rfl
    rw [if_pos (Nat.le_of_eq hlength.symm)]
    exact ⟨_, rfl, hreports⟩
  · have hfinal := isFinal_of_advance_eq_none hnext
    rw [if_neg (Nat.not_le.mpr hlt), step?_of_final hg hs hpop hnext hlinks, Option.bind_some]
    dsimp only
    rw [if_pos hfinal]
    exact ⟨_, rfl, hpop.report_final hfinal (entryLog_of_final hnext)⟩

/-- The last entry of the trace accepts if the last event does. -/
theorem any_accept_traceOf (p : Parser) (es : List Event) (e : Event) :
    (p.traceOf (es ++ [e])).getLast?.any (·.action == .accept) =
      (es ++ [e]).getLast?.any (·.move == .accept) := by
  have haction : (p.action e == .accept) = (e.move == .accept) := by
    obtain ⟨s, m⟩ := e
    cases m <;> rfl
  rw [traceOf_concat, List.getLast?_concat, List.getLast?_concat]
  exact haction

/-- **Nothing fails in a run** of a parser that is built, its outcome is that of the automaton, and
what it has reported on the way is the log of this outcome. -/
theorem run?_eq {rules : List Rule} {start : Option String} {config : Config} {p : Parser}
    (hp : Parser.build rules start config = .ok p) (input : List String) (options : RunOptions) :
    p.run? input options = some (p.run input options, (p.run input options).log) := by
  obtain ⟨g, hg, rfl⟩ := exists_of_build hp
  obtain ⟨es, last, m, hsteps, hrun, hend⟩ := exists_run_eq (generate g) input options
  have hname : (generate g).grammar.name? (generate g).grammar.start = some (g.name g.start) :=
    Catalog.name?_eq_name (Catalog.lt_size_of_isNonterminal hg.isNonterminal_start)
  obtain ⟨w₀, hworkspace, hw₀⟩ : ∃ w₀, (generate g).workspace? input = some w₀ ∧
      w₀.Represents (generate g) [] ((generate g).initial input) := by
    rw [workspace?, hname]
    exact ⟨_, rfl, ⟨⟨rfl, rfl, rfl, rfl, rfl⟩, rfl⟩⟩
  have hbased := based_initial hg input
  have hrecords : ((generate g).initial input).focus.Records g [] := .root
  have hle : ([] : List Event).length + es.length ≤ options.maxSteps := by
    rcases hend with ⟨hlength, -⟩ | ⟨hlt, -⟩ <;> simp <;> omega
  obtain ⟨w₁, hw₁, hloop₁⟩ := loop?_of_steps hg hsteps hbased hrecords hw₀ hle
  have hlast : last.Based g := hsteps.forall_state (P := State.Based g)
    (fun hstep hs => hstep.based hg hs) hbased m ⟨last, m⟩ (by simp)
  obtain ⟨w₂, hloop₂, hw₂⟩ := loop?_of_end hg hlast hw₁ hend
  have hloop : (generate g).loop? options [] w₀ =
      some ((generate g).traceOf ([] ++ es ++ [⟨last, m⟩]), w₂) := hloop₁.trans hloop₂
  rw [List.nil_append] at hw₂ hloop
  have htree : ((generate g).report (es ++ [⟨last, m⟩]) ((generate g).initial input)).tree =
      last.focus.tree (generate g).grammar := tree_report es ⟨last, m⟩ _
  have hassemble : Arena.assemble? w₂.arena 0 = some (last.focus.tree (generate g).grammar) := by
    rw [hw₂.arena_eq]
    exact Arena.assemble?_arena _
  rw [run?, hworkspace]
  dsimp only [Option.bind_eq_bind]
  rw [Option.bind_some, hloop, Option.bind_some]
  dsimp only
  rw [hassemble, Option.bind_some, any_accept_traceOf, hw₂.log_eq, hw₂.syncPoints_eq,
    hw₂.skipPoints_eq, hrun, ← htree]
  rfl

end Parser

end TopDown
