import Mathlib.Data.List.Forall2
import TopDown.Proofs.Run.Trace
import TopDown.Proofs.Run.Viable

/-!
# The tree and the trace describe the same run

Whatever becomes of a run, its tree is made by the actions of its trace: a match adds a leaf, an
expansion a node with the symbols of its alternative to come below it, and for a nonterminal that
is given up nothing is added. So the actions can be read off the tree again, with what was left
out, by going through it from left to right. Where the run stopped, the tree is unfinished along
the way from the root to the symbol that was to be dealt with next: what stands to the left of this
way is finished, and what would stand to its right is still on the stack (`Grammar.Grown`).

The place of the automaton in the tree keeps the actions of the finished parts around it
(`Focus.Records`), and each step adds its own action to them.

## Main definitions

* `Grammar.Grown`: subtrees for the symbols of a string as far as they go, with the actions that
  made them and the symbols that are waiting
* `Tree.nodes`, `Action.Builds`: the nodes of a tree in order, and the action that builds a node
* `Focus.Reached`, `Focus.Records`: the actions before a place in the tree

## Main results

* `Parser.Step.records`, `Parser.Steps.records`: steps add their actions to the record
* `Focus.Records.exists_grown`: the tree and the stack at a place, from the actions before it
* `Grammar.Grown.builds`: the nodes of a tree are built in order
* `Parser.tree_records_trace`: the tree of a run and its trace
-/

namespace TopDown

namespace Action

/-- The action adds to the tree, or leaves a symbol out of it. -/
def isBuilding : Action → Bool
  | matchToken _ => true
  | apply _ => true
  | syncPop _ => true
  | _ => false

/-- The token that an action matches. -/
def matched? : Action → Option String
  | matchToken token => some token
  | _ => none

/-- The action that builds a node of a tree, given by its kind and its label. -/
inductive Builds (g : Grammar) : Action → NodeKind × String → Prop where
  | matchToken {symbol : Nat} (h : g.isTerminal symbol = true) :
      Builds g (.matchToken (g.name symbol)) (.terminal, g.name symbol)
  | apply {left number : Nat} {α : List Nat} (h : (g.alternatives left)[number]? = some α) :
      Builds g (.apply (g.productionText left number)) (.nonterminal, g.name left)

end Action

namespace Tree

mutual

/-- The nodes of a tree other than signs of the empty string, each before those below it. -/
def nodes : Tree → List (NodeKind × String)
  | node kind label children =>
    (if kind = .epsilon then [] else [(kind, label)]) ++ nodesAll children

/-- The nodes of several trees, in order. -/
def nodesAll : List Tree → List (NodeKind × String)
  | [] => []
  | t :: ts => t.nodes ++ nodesAll ts

end

@[simp] theorem nodesAll_nil : nodesAll [] = [] := rfl

@[simp] theorem nodesAll_cons (t : Tree) (ts : List Tree) :
    nodesAll (t :: ts) = t.nodes ++ nodesAll ts := rfl

/-! ## The leaves of a tree -/

/-- The label of a terminal node. -/
def leafLabel? (node : NodeKind × String) : Option String :=
  if node.1 = .terminal then some node.2 else none

mutual

/-- The leaves of a tree are its terminal nodes. -/
theorem leaves_eq : (t : Tree) → t.leaves = t.nodes.filterMap leafLabel?
  | node kind label children => by
    rw [leaves, nodes, List.filterMap_append, leavesAll_eq children]
    cases kind <;> rfl

/-- The leaves of several trees are their terminal nodes. -/
theorem leavesAll_eq : (ts : List Tree) → leavesAll ts = (nodesAll ts).filterMap leafLabel?
  | [] => rfl
  | t :: ts => by
    rw [leavesAll, nodesAll, List.filterMap_append, leaves_eq t, leavesAll_eq ts]

end

end Tree

namespace Action

variable {g : Grammar} {actions : List Action} {nodes : List (NodeKind × String)}

/-- What is matched becomes a leaf. -/
theorem matched?_of_builds {a : Action} {node : NodeKind × String} (h : Builds g a node) :
    a.matched? = Tree.leafLabel? node := by
  cases h <;> rfl

/-- The tokens that are matched are the labels of the leaves that are built. -/
theorem filterMap_matched?_of_builds (h : List.Forall₂ (Builds g) actions nodes) :
    actions.filterMap matched? = nodes.filterMap Tree.leafLabel? := by
  induction h with
  | nil => rfl
  | cons hbuilds _ ih =>
    rw [List.filterMap_cons, List.filterMap_cons, matched?_of_builds hbuilds, ih]

/-- Tokens are matched by regular actions only. -/
theorem filterMap_matched?_filter (actions : List Action) :
    (actions.filter isRegular).filterMap matched? = actions.filterMap matched? := by
  rw [List.filterMap_filter]
  congr 1
  funext a
  cases a <;> rfl

/-- The actions that match or expand are among those that build. -/
theorem filter_isRegular_filter_isBuilding (actions : List Action) :
    (actions.filter isBuilding).filter isRegular = actions.filter isRegular := by
  rw [List.filter_filter]
  congr 1
  funext a
  cases a <;> rfl

end Action

namespace Grammar

/-- What has become of the symbols of a string: the subtrees for those that are done with and for
the one that is being dealt with, as far as they go and where there are any; the actions that made
them, in order; and the symbols that are still waiting, the next one first. -/
inductive Grown (g : Grammar) : List Nat → List Tree → List Action → List Nat → Prop where
  /-- None of the symbols has been reached. -/
  | waiting (α : List Nat) : Grown g α [] [] α
  /-- A terminal has been matched. -/
  | matched {symbol : Nat} {α rest : List Nat} {ts : List Tree} {log : List Action}
      (h : g.isTerminal symbol = true) (hα : Grown g α ts log rest) :
      Grown g (symbol :: α) (g.leafOf symbol :: ts) (.matchToken (g.name symbol) :: log) rest
  /-- A nonterminal has been given up: there is no subtree for it. -/
  | givenUp {symbol : Nat} {α rest : List Nat} {ts : List Tree} {log : List Action}
      (h : g.isNonterminal symbol = true) (hα : Grown g α ts log rest) :
      Grown g (symbol :: α) ts (.syncPop (g.name symbol) :: log) rest
  /-- A nonterminal has been expanded by the empty alternative. -/
  | vanished {symbol number : Nat} {α rest : List Nat} {ts : List Tree} {log : List Action}
      (h : (g.alternatives symbol)[number]? = some []) (hα : Grown g α ts log rest) :
      Grown g (symbol :: α) (g.nodeOf symbol [Tree.empty] :: ts)
        (.apply (g.productionText symbol number) :: log) rest
  /-- A nonterminal has been expanded by another alternative, and no symbol of it is waiting. -/
  | expanded {symbol number : Nat} {α β rest : List Nat} {ts us : List Tree}
      {log log' : List Action} (h : (g.alternatives symbol)[number]? = some β) (hne : β ≠ [])
      (hβ : Grown g β us log []) (hα : Grown g α ts log' rest) :
      Grown g (symbol :: α) (g.nodeOf symbol us :: ts)
        (.apply (g.productionText symbol number) :: (log ++ log')) rest
  /-- A nonterminal has been expanded and is being dealt with, all others after it are waiting. -/
  | growing {symbol number : Nat} {α β rest : List Nat} {us : List Tree} {log : List Action}
      (h : (g.alternatives symbol)[number]? = some β) (hne : β ≠ [])
      (hβ : Grown g β us log rest) :
      Grown g (symbol :: α) [g.nodeOf symbol us]
        (.apply (g.productionText symbol number) :: log) (rest ++ α)

namespace Grown

variable {g : Grammar} {symbol number : Nat} {α β rest : List Nat} {ts us : List Tree}
  {log log' : List Action}

/-- More symbols that are waiting. -/
theorem append_waiting (h : g.Grown α ts log rest) (β : List Nat) :
    g.Grown (α ++ β) ts log (rest ++ β) := by
  induction h with
  | waiting α => exact .waiting (α ++ β)
  | matched h _ ih => exact .matched h ih
  | givenUp h _ ih => exact .givenUp h ih
  | vanished h _ ih => exact .vanished h ih
  | expanded h hne hβ _ _ ih => exact .expanded h hne hβ ih
  | growing h hne hβ =>
    rw [List.append_assoc]
    exact .growing h hne hβ

/-- Symbols that are done with, and others after them. -/
theorem append (h : g.Grown α ts log []) (h' : g.Grown β us log' rest) :
    g.Grown (α ++ β) (ts ++ us) (log ++ log') rest := by
  generalize hnone : ([] : List Nat) = none at h
  induction h with
  | waiting α =>
    subst hnone
    exact h'
  | matched h _ ih => exact .matched h (ih hnone)
  | givenUp h _ ih => exact .givenUp h (ih hnone)
  | vanished h _ ih => exact .vanished h (ih hnone)
  | expanded h hne hβ _ _ ih =>
    rw [List.cons_append, List.cons_append, List.cons_append, List.append_assoc]
    exact .expanded h hne hβ (ih hnone)
  | growing h hne hβ =>
    obtain ⟨rfl, rfl⟩ := List.append_eq_nil_iff.mp hnone.symm
    exact .expanded h hne hβ h'

/-- A nonterminal with what has become of an alternative, of which a part may be waiting. -/
theorem of_alternative (h : (g.alternatives symbol)[number]? = some β) (hne : β ≠ [])
    (hβ : g.Grown β us log rest) :
    g.Grown [symbol] [g.nodeOf symbol us] (.apply (g.productionText symbol number) :: log)
      rest := by
  have hgrowing := growing (α := []) h hne hβ
  rwa [List.append_nil] at hgrowing

/-- **The nodes of a tree are built in order** by the matches and expansions that made it. -/
theorem builds (h : g.Grown α ts log rest) :
    List.Forall₂ (Action.Builds g) (log.filter Action.isRegular) (Tree.nodesAll ts) := by
  induction h with
  | waiting => exact .nil
  | matched h _ ih => exact .cons (.matchToken h) ih
  | givenUp _ _ ih => exact ih
  | vanished h _ ih => exact .cons (.apply h) ih
  | expanded h _ _ _ ihβ ihα =>
    refine .cons (.apply h) ?_
    rw [List.filter_append]
    exact List.rel_append ihβ ihα
  | growing h _ _ ih =>
    rw [Tree.nodesAll_cons, Tree.nodesAll_nil, List.append_nil]
    exact .cons (.apply h) ih

/-- For a nonterminal there is no subtree, or one with a node for it as its root. -/
theorem eq_nil_or_eq_nodeOf (h : g.Grown [symbol] ts log rest)
    (hsymbol : g.isTerminal symbol = false) : ts = [] ∨ ∃ us, ts = [g.nodeOf symbol us] := by
  cases h with
  | waiting => exact Or.inl rfl
  | matched hterminal =>
    rw [hsymbol] at hterminal
    cases hterminal
  | givenUp _ hα =>
    cases hα
    exact Or.inl rfl
  | vanished _ hα =>
    cases hα
    exact Or.inr ⟨_, rfl⟩
  | expanded _ _ _ hα =>
    cases hα
    exact Or.inr ⟨_, rfl⟩
  | growing => exact Or.inr ⟨_, rfl⟩

end Grown

end Grammar

/-! ## The actions before a place in a tree -/

namespace Focus

variable {g : Grammar} {symbol : Nat} {frames : List Frame} {f : Frame} {ts : List Tree}
  {log log' : List Action}

/-- The actions before a symbol inside frames: in each frame the symbols of the alternative before
the current one are done with. Outermost is the start symbol. -/
inductive Reached (g : Grammar) : Nat → List Frame → List Action → Prop where
  | root : Reached g g.start [] []
  | inside {symbol number : Nat} {α : List Nat} {f : Frame} {fs : List Frame}
      {before log : List Action}
      (h : (g.alternatives f.left)[number]? = some (α ++ symbol :: f.todo))
      (hα : g.Grown α f.done.reverse log []) (hbefore : Reached g f.left fs before) :
      Reached g symbol (f :: fs) (before ++ .apply (g.productionText f.left number) :: log)

/-- The actions that made a tree as far as it goes. Of a tree that is finished there may be no more
than the root. -/
def Records (g : Grammar) : Focus → List Action → Prop
  | awaiting symbol frames, log => Reached g symbol frames log
  | complete t, log => ∃ ts, g.Grown [g.start] ts log [] ∧ t = ts.headD (g.nodeOf g.start [])

/-- Inside no frame is the start symbol only, with no action before it. -/
theorem Reached.eq_root (h : Reached g symbol [] log) : symbol = g.start ∧ log = [] := by
  cases h with
  | root => exact ⟨rfl, rfl⟩

/-- What has become of the symbol inside a frame is a part of what has become of the alternative of
the frame. -/
theorem Reached.exists_grown {rest : List Nat} (h : Reached g symbol (f :: frames) log)
    (h' : g.Grown [symbol] ts log' rest) :
    ∃ number α before row, (g.alternatives f.left)[number]? = some (α ++ f.todo) ∧ α ≠ [] ∧
      g.Grown α (f.done.reverse ++ ts) row rest ∧ Reached g f.left frames before ∧
      log ++ log' = before ++ .apply (g.productionText f.left number) :: row := by
  cases h with
  | @inside _ number α _ _ before row halternative hα hbefore =>
    refine ⟨number, α ++ [symbol], before, row ++ log', ?_, by simp, hα.append h', hbefore, ?_⟩
    · rw [halternative, List.append_assoc, List.singleton_append]
    · rw [List.append_assoc, List.cons_append]

/-- The place after a finished subtree has the actions of the subtree behind it. -/
theorem records_plug {t : Tree} (h : Reached g symbol frames log)
    (h' : g.Grown [symbol] [t] log' []) : (plug g t frames).Records g (log ++ log') := by
  induction frames generalizing symbol t log log' with
  | nil =>
    obtain ⟨rfl, rfl⟩ := h.eq_root
    exact ⟨[t], h', rfl⟩
  | cons f fs ih =>
    obtain ⟨number, α, before, row, halternative, hne, hα, hbefore, hlog⟩ := h.exists_grown h'
    have hdone : g.Grown α (f.attach t).done.reverse row [] := by
      rw [Frame.attach, List.reverse_cons]
      exact hα
    rw [hlog, plug]
    split
    · next htodo =>
      rw [htodo, List.append_nil] at halternative
      exact ih hbefore (.of_alternative halternative hne hdone)
    · next next todo htodo =>
      rw [htodo] at halternative
      exact .inside halternative hdone hbefore

/-- The place after a symbol that is left out has the action behind it that gave the symbol up. -/
theorem records_leaveOut (h : Reached g symbol frames log) (h' : g.Grown [symbol] [] log' []) :
    (leaveOut g symbol frames).Records g (log ++ log') := by
  cases frames with
  | nil =>
    obtain ⟨rfl, rfl⟩ := h.eq_root
    exact ⟨[], h', rfl⟩
  | cons f fs =>
    obtain ⟨number, α, before, row, halternative, hne, hα, hbefore, hlog⟩ := h.exists_grown h'
    rw [List.append_nil] at hα
    rw [hlog, leaveOut]
    split
    · next htodo =>
      rw [htodo, List.append_nil] at halternative
      exact records_plug hbefore (.of_alternative halternative hne hα)
    · next next todo htodo =>
      rw [htodo] at halternative
      exact .inside halternative hα hbefore

/-- The place at the beginning of an alternative has the expansion behind it. -/
theorem records_expand {number : Nat} {α : List Nat} (h : Reached g symbol frames log)
    (hα : (g.alternatives symbol)[number]? = some α) :
    (expand g symbol frames α).Records g (log ++ [.apply (g.productionText symbol number)]) := by
  cases α with
  | nil => exact records_plug h (.vanished hα (.waiting []))
  | cons first todo => exact .inside (f := ⟨symbol, [], todo⟩) (α := []) hα (.waiting []) h

/-- The subtree of a frame with the frames around it. -/
theorem Reached.grown_enclose {rest : List Nat} (h : Reached g symbol (f :: frames) log)
    (h' : g.Grown [symbol] ts log' rest) :
    g.Grown [g.start] [enclose g (g.nodeOf f.left (f.done.reverse ++ ts)) frames] (log ++ log')
      (rest ++ (f :: frames).flatMap Frame.todo) := by
  -- Induction on the frames: what has become of the symbol of a frame goes into the next frame.
  induction frames generalizing symbol f ts log log' rest with
  | nil =>
    obtain ⟨number, α, before, row, halternative, hne, hα, hbefore, hlog⟩ := h.exists_grown h'
    obtain ⟨hleft, rfl⟩ := hbefore.eq_root
    rw [hlog, List.flatMap_singleton, ← hleft]
    exact .of_alternative halternative (by simp [hne]) (hα.append_waiting f.todo)
  | cons outer fs ih =>
    obtain ⟨number, α, before, row, halternative, hne, hα, hbefore, hlog⟩ := h.exists_grown h'
    have hclose : (outer.attach (g.nodeOf f.left (f.done.reverse ++ ts))).close g =
        g.nodeOf outer.left (outer.done.reverse ++ [g.nodeOf f.left (f.done.reverse ++ ts)]) := by
      rw [Frame.close, Frame.attach, List.reverse_cons]
    rw [hlog, enclose, hclose, List.flatMap_cons, ← List.append_assoc]
    exact ih hbefore (.of_alternative halternative (by simp [hne]) (hα.append_waiting f.todo))

/-- **The tree and the stack at a place**, from the actions before it: what is on the stack is
missing in the tree. -/
theorem Records.exists_grown {focus : Focus} (h : focus.Records g log) :
    ∃ ts waiting, g.Grown [g.start] ts log waiting ∧
      focus.tree g = ts.headD (g.nodeOf g.start []) ∧ focus.stack g = waiting ++ [g.finish] := by
  cases focus with
  | complete t =>
    obtain ⟨ts, hts, rfl⟩ := h
    exact ⟨ts, [], hts, rfl, rfl⟩
  | awaiting symbol frames =>
    have hreached : Reached g symbol frames log := h
    cases frames with
    | nil =>
      obtain ⟨rfl, rfl⟩ := hreached.eq_root
      exact ⟨[], [g.start], .waiting [g.start], rfl, rfl⟩
    | cons f fs =>
      have hgrown := hreached.grown_enclose (.waiting [symbol])
      rw [List.append_nil, List.append_nil] at hgrown
      exact ⟨_, _, hgrown, rfl, rfl⟩

end Focus

namespace Parser

variable {g : Grammar} {recovery : Recovery} {s next last : State} {m : Move} {log : List Action}

/-! ## Runs -/

/-- **A step adds its action to the record**, unless it only passes over a token. -/
theorem Step.records (hg : g.WellFormed) (h : (generate g).Step recovery s m next)
    (hs : s.focus.Records g log) :
    next.focus.Records g
      (log ++ ([(generate g).action ⟨s, m⟩] : List Action).filter Action.isBuilding) := by
  cases h with
  | shift hsymbol => exact Focus.records_plug hs (.matched hsymbol (.waiting []))
  | expand hsymbol hrow hcell =>
    obtain ⟨-, α, -, hα, -⟩ := exists_alternative_of_consult hg hcell
    have hexpand := Focus.records_expand hs hα
    rw [← Grammar.alternative_eq hα] at hexpand
    exact hexpand
  | giveUp hsymbol hrow =>
    exact Focus.records_leaveOut hs (.givenUp (isNonterminal_of_row? hrow) (.waiting []))
  | passOver =>
    change Focus.Records g _ (log ++ [])
    rw [List.append_nil]
    exact hs

/-- Steps add their actions to the record. -/
theorem Steps.records (hg : g.WellFormed) {es : List Event}
    (h : (generate g).Steps recovery s es last) (hs : s.focus.Records g log) :
    last.focus.Records g
      (log ++ (es.map (generate g).action).filter Action.isBuilding) := by
  induction h generalizing log with
  | refl => simpa using hs
  | cons hstep _ ih =>
    have hlast := ih (hstep.records hg hs)
    rw [List.append_assoc, ← List.filter_append] at hlast
    exact hlast

/-- What ends a run adds nothing to the tree. -/
theorem isBuilding_of_isFinal {a : Action} (h : a.isFinal = true) : a.isBuilding = false := by
  cases a <;> simp_all [Action.isFinal, Action.isBuilding]

/-- The last entry of a trace shows the stack of the last state. -/
theorem getLast?_trace (p : Parser) (es : List Event) (e : Event) (s : State) :
    (p.report (es ++ [e]) s).trace.getLast?.map TraceEntry.stack =
      some (p.snapshot e.state).stack := by
  simp [report, List.zipIdx_append, traceEntry, snapshot]

theorem move_of_action_eq_accept {p : Parser} {e : Event} (h : p.action e = .accept) :
    e.move = .accept := by
  unfold action at h
  split at h <;> cases h
  assumption

/-- **The tree and the trace describe the same run**, whether it is accepted, recovers or fails.
The tree is what the matches, the expansions and the nonterminals given up in the trace have made
of the start symbol, one after the other: below a node that was expanded are, in order, the
subtrees for the symbols of the alternative, except for the nonterminals that were given up and
for the symbols that are left on the stack in the last entry, of which there is none when the last
entry accepts. The root stands for the start symbol, and if the start symbol was not expanded, then
the tree is this root. Otherwise the nodes of the tree, each before those below it, have been built
by the matches and expansions of the trace, in the same order; so the leaves are the tokens that
were matched. -/
theorem tree_records_trace {rules : List Rule} {start : Option String} {config : Config}
    {p : Parser} (hp : Parser.build rules start config = .ok p) (input : List String)
    (options : RunOptions) :
    ∃ ts waiting,
      p.grammar.Grown [p.grammar.start] ts
        (((p.run input options).trace.map TraceEntry.action).filter Action.isBuilding) waiting ∧
      ((p.run input options).trace.getLast?.map TraceEntry.stack =
        some (Mark.finish :: (waiting.map p.grammar.name).reverse)) ∧
      ((p.run input options).lastAction? = some .accept → waiting = []) ∧
      (ts = [(p.run input options).tree] ∨
        ts = [] ∧ (p.run input options).tree = p.grammar.nodeOf p.grammar.start []) ∧
      (∃ below, (p.run input options).tree = p.grammar.nodeOf p.grammar.start below) ∧
      List.Forall₂ (Action.Builds p.grammar)
        (((p.run input options).trace.map TraceEntry.action).filter Action.isRegular)
        (Tree.nodesAll ts) ∧
      (p.run input options).tree.leaves =
        (p.run input options).trace.filterMap (·.action.matched?) := by
  obtain ⟨g, hg, rfl⟩ := exists_of_build hp
  obtain ⟨es, last, m, hsteps, hhistory, hfinal, haccept⟩ :=
    exists_history_eq (generate g) input options
  have hrun : (generate g).run input options =
      (generate g).report (es ++ [⟨last, m⟩]) ((generate g).initial input) := by
    rw [run, hhistory]
  have hrecords : last.focus.Records g ([] ++ _) := hsteps.records hg .root
  obtain ⟨ts, waiting, hgrown, htree, hstack⟩ := hrecords.exists_grown
  have hactions : ((es ++ [⟨last, m⟩] : List Event).map (generate g).action).filter
      Action.isBuilding = (es.map (generate g).action).filter Action.isBuilding := by
    rw [List.map_append, List.filter_append, List.map_singleton, List.filter_singleton,
      isBuilding_of_isFinal hfinal, Bool.cond_false, List.append_nil]
  rw [List.nil_append, ← hactions] at hgrown
  have hbuilds := hgrown.builds
  rw [Action.filter_isRegular_filter_isBuilding] at hbuilds
  have hroot := hgrown.eq_nil_or_eq_nodeOf (Catalog.isTerminal_eq_false hg.isNonterminal_start)
  have hsnapshot := snapshot_of_stack (p := generate g) hstack
  have hfinalTree : ((generate g).report (es ++ [⟨last, m⟩]) ((generate g).initial input)).tree =
      ts.headD (g.nodeOf g.start []) := (tree_report es ⟨last, m⟩ _).trans htree
  rw [hrun, map_action_trace, getLast?_trace, hsnapshot, lastAction?_report, hfinalTree,
    filterMap_action_trace]
  refine ⟨ts, waiting, hgrown, ?_, ?_, ?_, ?_, hbuilds, ?_⟩
  · exact congrArg (fun bottom => some (bottom :: _)) hg.name_finish
  · intro hlast
    have hmove := move_of_action_eq_accept (Option.some.inj hlast)
    obtain ⟨t, rfl⟩ := eq_of_move_accept (haccept hmove)
    exact List.append_left_eq_self.mp hstack.symm
  · rcases hroot with rfl | ⟨below, rfl⟩
    · exact Or.inr ⟨rfl, rfl⟩
    · exact Or.inl rfl
  · rcases hroot with rfl | ⟨below, rfl⟩
    · exact ⟨[], rfl⟩
    · exact ⟨below, rfl⟩
  · have hleaves : (ts.headD (g.nodeOf g.start [])).leaves = Tree.leavesAll ts := by
      rcases hroot with rfl | ⟨below, rfl⟩ <;> simp
    rw [hleaves, Tree.leavesAll_eq, ← Action.filterMap_matched?_of_builds hbuilds,
      Action.filterMap_matched?_filter]

/-- A run that gives up a nonterminal, and has another one on the stack when it has made all its
steps. -/
theorem tree_records_trace_loop :
    build loopRules none {} = .ok (generate loopGrammar) ∧
      ((generate loopGrammar).run ["b", "a"] ⟨9, .panic⟩).syncPoints = [⟨9, "a", "B"⟩] ∧
      ((generate loopGrammar).run ["b", "a"] ⟨9, .panic⟩).tree.leaves = ["b"] ∧
      List.Forall₂ (Action.Builds loopGrammar)
        ((((generate loopGrammar).run ["b", "a"] ⟨9, .panic⟩).trace.map
          TraceEntry.action).filter Action.isRegular)
        ((generate loopGrammar).run ["b", "a"] ⟨9, .panic⟩).tree.nodes ∧
      ∃ waiting, loopGrammar.Grown [0] [((generate loopGrammar).run ["b", "a"] ⟨9, .panic⟩).tree]
        ((((generate loopGrammar).run ["b", "a"] ⟨9, .panic⟩).trace.map
          TraceEntry.action).filter Action.isBuilding) waiting ∧
        Mark.finish :: (waiting.map loopGrammar.name).reverse = ["$", "A"] := by
  have hp : build loopRules none {} = .ok (generate loopGrammar) :=
    build_eq_ok (by decide +kernel)
  obtain ⟨ts, waiting, hgrown, hstack, -, hts, -, hbuilds, hleaves⟩ :=
    tree_records_trace hp ["b", "a"] ⟨9, .panic⟩
  have hregular : (((generate loopGrammar).run ["b", "a"] ⟨9, .panic⟩).trace.map
      TraceEntry.action).filter Action.isRegular ≠ [] := by
    decide +kernel
  obtain rfl : ts = [((generate loopGrammar).run ["b", "a"] ⟨9, .panic⟩).tree] := by
    rcases hts with hts | ⟨rfl, -⟩
    · exact hts
    · exact absurd (List.forall₂_nil_right_iff.mp hbuilds) hregular
  rw [Tree.nodesAll_cons, Tree.nodesAll_nil, List.append_nil] at hbuilds
  have hlast : ((generate loopGrammar).run ["b", "a"] ⟨9, .panic⟩).trace.getLast?.map
      TraceEntry.stack = some ["$", "A"] := by
    decide +kernel
  exact ⟨hp, by decide +kernel, hleaves.trans (by decide +kernel), hbuilds, waiting, hgrown,
    Option.some.inj (hstack.symm.trans hlast)⟩

end Parser

end TopDown
