import TopDown.Proofs.Grammar.Derivation
import TopDown.Proofs.Run.Steps
import TopDown.Proofs.Table.Exact

/-!
# Runs on sentences of LL(1) grammars

If no cell of the table lists two alternatives, then the automaton builds every derivation tree of
the start symbol from its leaves: it takes a step for each nonterminal node and for each token, and
one to accept. Hence no other derivation tree has the same leaves.

The automaton follows the tree. Before a nonterminal node the next token *selects* the symbols of
the node's alternative and those that are waiting (`Parser.Selects`): it is what they can start
with, or the end mark at the end of the input. FIRST is exact, so this passes from what comes
after a tree to what comes before it. If the alternative vanishes, the token is what the waiting
symbols can start with, and then it is in the FOLLOW set of the nonterminal, because the stack stays
followed (`Grammar.Followed`).

## Main definitions

* `Tree.count`, `Tree.steps`: the nodes of a kind, and the steps that a tree takes
* `Parser.Selects`: the next token is what a string can start with

## Main results

* `Parser.proceeds_of_isTree`, `Parser.proceeds_of_isForest`: the automaton follows trees
* `Parser.run_of_isTree`: the run on the leaves of a derivation tree
-/

namespace TopDown

namespace Tree

mutual

/-- The number of nodes of a kind. -/
def count (kind : NodeKind) : Tree → Nat
  | node other _ children => (if other = kind then 1 else 0) + countAll kind children

/-- The number of nodes of a kind in several trees. -/
def countAll (kind : NodeKind) : List Tree → Nat
  | [] => 0
  | t :: ts => t.count kind + countAll kind ts

end

/-- The steps of a run that builds a tree: one for each nonterminal node, one for each token and
one to accept. -/
def steps (t : Tree) : Nat :=
  t.count .nonterminal + t.leaves.length + 1

@[simp] theorem count_leafOf (g : Grammar) (symbol : Nat) :
    (g.leafOf symbol).count .nonterminal = 0 := rfl

@[simp] theorem count_nodeOf (g : Grammar) (symbol : Nat) (ts : List Tree) :
    (g.nodeOf symbol ts).count .nonterminal = 1 + countAll .nonterminal ts := rfl

end Tree

namespace Focus

variable {g : Grammar} {left : Nat} {done : List Tree} {frames : List Frame}

/-- The place inside a nonterminal node, after finished subtrees and before the symbols of a
string. -/
def resume (g : Grammar) (left : Nat) (done : List Tree) (frames : List Frame) :
    List Nat → Focus
  | [] => plug g (g.nodeOf left done.reverse) frames
  | symbol :: todo => awaiting symbol (⟨left, done, todo⟩ :: frames)

theorem plug_cons (t : Tree) (todo : List Nat) :
    plug g t (⟨left, done, todo⟩ :: frames) = resume g left (t :: done) frames todo := by
  cases todo <;> rfl

theorem expand_of_ne_nil {α : List Nat} (hα : α ≠ []) :
    expand g left frames α = resume g left [] frames α := by
  cases α with
  | nil => exact absurd rfl hα
  | cons symbol todo => rfl

/-- The symbols that are waiting in frames, and the end mark. -/
def waiting (g : Grammar) (frames : List Frame) : List Nat :=
  frames.flatMap Frame.todo ++ [g.finish]

theorem waiting_cons (f : Frame) (frames : List Frame) :
    waiting g (f :: frames) = f.todo ++ waiting g frames := by
  simp [waiting]

end Focus

namespace Parser

/-! ## The next token -/

section Selects

variable {g : Grammar} {α γ : List Nat} {input rest : List String}

/-- The next token, or the end mark after the last one, is what a string of symbols can start
with. -/
def Selects (g : Grammar) (input : List String) (γ : List Nat) : Prop :=
  ∃ t, (generate g).nextTerminal? input = some t ∧ t ∈ (g.lookahead.firstOf γ).terminals

theorem nextTerminal?_name (hg : g.WellFormed) {t : Nat} (ht : g.isTerminal t = true)
    (hlt : t < g.finish) (rest : List String) :
    (generate g).nextTerminal? (g.name t :: rest) = some t := by
  change (g.findTerminal? (g.name t)).filter (· != g.finish) = some t
  rw [hg.findTerminal?_name ht]
  simp [Nat.ne_of_lt hlt]

/-- After the last token only the end mark is left. -/
theorem selects_nil (hg : g.WellFormed) : Selects g [] [g.finish] :=
  ⟨g.finish, rfl, Grammar.mem_firstOf_cons hg.isTerminal_finish []⟩

/-- What the next token selects after a string of terminals, the next token selects before it,
together with any symbols that derive the string. -/
theorem Selects.of_derives (hg : g.WellFormed) (h : Selects g rest γ) {w : List Nat}
    (hw : g.Derives α w) (hterminal : ∀ s ∈ w, g.isTerminal s = true)
    (hα : ∀ s ∈ α, s < g.finish) : Selects g (w.map g.name ++ rest) (α ++ γ) := by
  have hle := Grammar.firstOf_le_of_derives (hw.append (.refl (α := γ)))
  have hlt := hw.lt_finish hg hα
  cases w with
  | nil =>
    obtain ⟨t, hnext, ht⟩ := h
    exact ⟨t, hnext, hle.1 t ht⟩
  | cons s w =>
    have hs : g.isTerminal s = true := hterminal s List.mem_cons_self
    exact ⟨s, nextTerminal?_name hg hs (hlt s List.mem_cons_self) _,
      hle.1 s (Grammar.mem_firstOf_cons hs _)⟩

end Selects

/-! ## Trees -/

section Trees

variable {g : Grammar}

/-- **The alternative that the next token selects is the only one in its cell**, whatever symbols
come after it. -/
theorem consult_of_selects (hll1 : (generate g).table.isLL1 = true) {symbol : Nat}
    {α γ : List Nat} {input : List String} (hα : α ∈ g.alternatives symbol)
    (hfollowed : g.Followed (symbol :: γ)) (hselects : Selects g input (α ++ γ)) :
    ∃ number, (generate g).consult symbol input = some (.predict number []) ∧
      g.alternative symbol number = α := by
  have hsymbol := Catalog.isNonterminal_of_mem hα
  obtain ⟨number, hnumber⟩ := List.mem_iff_getElem?.mp hα
  obtain ⟨t, hnext, ht⟩ := hselects
  have hterminal : g.isTerminal t = true := (Grammar.mem_firstOf_iff.mp ht).1
  have hselector : t ∈ g.lookahead.selectors symbol α := hfollowed.mem_selectors hα ht
  refine ⟨number, ?_, Grammar.alternative_eq hnumber⟩
  rw [consult, hnext]
  change (g.table g.lookahead).cell? symbol t = _
  rw [Grammar.cell?_table hsymbol hterminal,
    Grammar.cellOf_of_isLL1 hll1 hterminal hnumber hselector]

/-- The alternative that the next token selects is the one that is taken. -/
theorem exists_step_expand (recovery : Recovery) (hll1 : (generate g).table.isLL1 = true)
    {symbol : Nat} {α : List Nat} {frames : List Frame} {input : List String}
    (hα : α ∈ g.alternatives symbol)
    (hfollowed : g.Followed (symbol :: Focus.waiting g frames))
    (hselects : Selects g input (α ++ Focus.waiting g frames)) :
    ∃ number, (generate g).Step recovery ⟨.awaiting symbol frames, input⟩ (.expand number)
      ⟨.expand g symbol frames α, input⟩ := by
  have hsymbol := Catalog.isNonterminal_of_mem hα
  obtain ⟨number, hcell, halternative⟩ := consult_of_selects hll1 hα hfollowed hselects
  have hrow : ((generate g).table.row? symbol).isSome = true := by
    change ((g.table g.lookahead).row? symbol).isSome = true
    rw [Grammar.row?_table hsymbol]
    rfl
  refine ⟨number, ?_⟩
  have hstep : (generate g).Step recovery ⟨.awaiting symbol frames, input⟩ (.expand number) _ :=
    .expand (Catalog.isTerminal_eq_false hsymbol) hrow hcell
  have hgrammar : (generate g).grammar.alternative symbol number = α := halternative
  rwa [hgrammar] at hstep

/-- One step expands a nonterminal by the alternative that the next token selects. -/
theorem proceeds_expand (recovery : Recovery) (hll1 : (generate g).table.isLL1 = true)
    {symbol : Nat} {α : List Nat} {frames : List Frame} {input : List String}
    (hα : α ∈ g.alternatives symbol)
    (hfollowed : g.Followed (symbol :: Focus.waiting g frames))
    (hselects : Selects g input (α ++ Focus.waiting g frames)) :
    (generate g).Proceeds recovery 1 ⟨.awaiting symbol frames, input⟩
      ⟨.expand g symbol frames α, input⟩ := by
  obtain ⟨number, hstep⟩ := exists_step_expand recovery hll1 hα hfollowed hselects
  exact .of_step hstep (by simp)

mutual

/-- **The automaton follows a derivation tree**, whatever frames are around it. -/
theorem proceeds_of_isTree (recovery : Recovery) (hg : g.WellFormed)
    (hll1 : (generate g).table.isLL1 = true) {symbol : Nat} {t : Tree} (ht : g.IsTree symbol t)
    (frames : List Frame) {rest : List String}
    (hfollowed : g.Followed (symbol :: Focus.waiting g frames))
    (hrest : Selects g rest (Focus.waiting g frames)) :
    (generate g).Proceeds recovery (t.count .nonterminal + t.leaves.length)
      ⟨.awaiting symbol frames, t.leaves ++ rest⟩ ⟨.plug g t frames, rest⟩ := by
  cases ht with
  | leaf hterminal =>
    rw [Tree.count_leafOf, Tree.leaves_leafOf]
    exact .of_step (.shift hterminal) (by simp)
  | empty halt =>
    exact proceeds_expand recovery hll1 halt hfollowed hrest
  | @node _ first α ts halt hts =>
    have hclosed : ∀ s ∈ first :: α, s < g.finish := hg.closed halt
    obtain ⟨w, hw, hterminal, hnames⟩ := hts.exists_derives
    have hselects := hrest.of_derives hg hw hterminal hclosed
    rw [hnames] at hselects
    have hexpand := proceeds_expand recovery hll1 halt hfollowed hselects
    rw [Focus.expand_of_ne_nil (List.cons_ne_nil _ _)] at hexpand
    have hbelow := hfollowed.replace_head (Catalog.isNonterminal_of_mem halt) [] halt
    have hforest := proceeds_of_isForest recovery hg hll1 symbol [] hts hclosed hbelow hrest
    rw [Tree.count_nodeOf, Tree.leaves_nodeOf, Nat.add_assoc]
    simpa [Focus.resume] using hexpand.trans hforest

/-- The automaton follows a row of derivation trees below a node. -/
theorem proceeds_of_isForest (recovery : Recovery) (hg : g.WellFormed)
    (hll1 : (generate g).table.isLL1 = true) (left : Nat) (done : List Tree) {α : List Nat}
    {ts : List Tree} (hts : g.IsForest α ts) (hα : ∀ s ∈ α, s < g.finish)
    {frames : List Frame} {rest : List String}
    (hfollowed : g.Followed (α ++ Focus.waiting g frames))
    (hrest : Selects g rest (Focus.waiting g frames)) :
    (generate g).Proceeds recovery
      (Tree.countAll .nonterminal ts + (Tree.leavesAll ts).length)
      ⟨.resume g left done frames α, Tree.leavesAll ts ++ rest⟩
      ⟨.resume g left (ts.reverse ++ done) frames [], rest⟩ := by
  cases hts with
  | nil => exact .refl _
  | @cons symbol todo t ts ht hts =>
    have htodo : ∀ s ∈ todo, s < g.finish := (List.forall_mem_cons.mp hα).2
    obtain ⟨w, hw, hterminal, hnames⟩ := hts.exists_derives
    have hselects := hrest.of_derives hg hw hterminal htodo
    rw [hnames] at hselects
    have hfirst := proceeds_of_isTree recovery hg hll1 ht (⟨left, done, todo⟩ :: frames)
      (by rwa [Focus.waiting_cons]) (by rwa [Focus.waiting_cons])
    rw [Focus.plug_cons] at hfirst
    have hothers := proceeds_of_isForest recovery hg hll1 left (t :: done) hts htodo hfollowed.2
      hrest
    have hcount : Tree.countAll .nonterminal (t :: ts) + (Tree.leavesAll (t :: ts)).length =
        t.count .nonterminal + t.leaves.length +
          (Tree.countAll .nonterminal ts + (Tree.leavesAll ts).length) := by
      rw [Tree.countAll, Tree.leavesAll_cons, List.length_append]
      omega
    rw [hcount]
    simpa [Focus.resume] using hfirst.trans hothers

end

/-- From the start to the end of the input. -/
theorem proceeds_of_isTree_start (recovery : Recovery) (hg : g.WellFormed)
    (hll1 : (generate g).table.isLL1 = true) {t : Tree} (ht : g.IsTree g.start t) :
    (generate g).Proceeds recovery (t.count .nonterminal + t.leaves.length)
      ((generate g).initial t.leaves) ⟨.complete t, []⟩ := by
  have h := proceeds_of_isTree recovery hg hll1 ht [] (Grammar.Followed.start_finish hg)
    (selects_nil hg)
  rw [List.append_nil] at h
  exact h

end Trees

/-! ## Runs -/

section Runs

variable {p : Parser} {input : List String} {options : RunOptions} {n : Nat} {t : Tree}

/-- A run that may make one step more than a stretch without recovery, which leads to a finished
tree and the end of the input, is accepted. -/
theorem Proceeds.run_of_lt
    (h : p.Proceeds options.recovery n (p.initial input) ⟨.complete t, []⟩)
    (hn : n < options.maxSteps) :
    (p.run input options).accepted = true ∧ (p.run input options).syncPoints = [] ∧
      (p.run input options).skipPoints = [] ∧ (p.run input options).trace.length = n + 1 ∧
      (p.run input options).lastAction? = some .accept ∧ (p.run input options).tree = t := by
  obtain ⟨es, hsteps, rfl, hes⟩ := h
  obtain ⟨k, hk⟩ := Nat.exists_eq_add_of_lt hn
  have hhistory : p.history input options = es ++ [⟨⟨.complete t, []⟩, .accept⟩] := by
    rw [history, hk, Nat.add_assoc, historyFrom_of_steps _ hsteps,
      historyFrom_of_final _ rfl]
    rfl
  have hregular : ∀ e ∈ es ++ [⟨⟨.complete t, []⟩, .accept⟩],
      e.move ≠ .giveUp ∧ e.move ≠ .passOver := by
    intro e he
    rcases List.mem_append.mp he with he | he
    · exact hes e he
    · obtain rfl := List.mem_singleton.mp he
      simp
  rw [run, hhistory]
  refine ⟨accepted_iff.mpr ⟨⟨_, List.getLast?_concat, rfl⟩, hregular⟩, ?_, ?_, ?_, ?_, ?_⟩
  · exact syncPoints_eq_nil_iff.mpr fun e he => (hregular e he).1
  · exact skipPoints_eq_nil_iff.mpr fun e he => (hregular e he).2
  · rw [length_trace_report, List.length_append, List.length_singleton]
  · exact lastAction?_report es _ _
  · exact tree_report es _ _

/-- A run that may not make a step more than a stretch stops for want of steps. -/
theorem Proceeds.run_of_le {last : State}
    (h : p.Proceeds options.recovery n (p.initial input) last) (hn : options.maxSteps ≤ n) :
    (p.run input options).lastAction? = some (.error (.stepLimit options.maxSteps)) ∧
      (p.run input options).accepted = false := by
  obtain ⟨es, hsteps, rfl, -⟩ := h
  obtain ⟨s, hhistory⟩ := historyFrom_of_steps_of_le options.maxSteps hsteps hn
  rw [run, history, hhistory]
  refine ⟨lastAction?_report _ _ _, Bool.eq_false_iff.mpr ?_⟩
  intro haccepted
  obtain ⟨⟨e, hlast, haccept⟩, -⟩ := accepted_iff.mp haccepted
  rw [List.getLast?_concat] at hlast
  cases hlast
  cases haccept

/-- Derivation trees with the same leaves are the same, because one run builds either of them. -/
theorem eq_of_leaves_eq {g : Grammar} (hg : g.WellFormed)
    (hll1 : (generate g).table.isLL1 = true) {t t' : Tree} (ht : g.IsTree g.start t)
    (ht' : g.IsTree g.start t') (h : t'.leaves = t.leaves) : t' = t := by
  obtain ⟨options, hoptions⟩ : ∃ o : RunOptions, o.maxSteps = t.steps + t'.steps :=
    ⟨⟨t.steps + t'.steps, .none⟩, rfl⟩
  rw [Tree.steps, Tree.steps] at hoptions
  have hproceeds := proceeds_of_isTree_start options.recovery hg hll1 ht
  have hproceeds' := proceeds_of_isTree_start options.recovery hg hll1 ht'
  rw [h] at hproceeds' hoptions
  obtain ⟨-, -, -, -, -, htree⟩ := hproceeds.run_of_lt (by omega)
  obtain ⟨-, -, -, -, -, htree'⟩ := hproceeds'.run_of_lt (by omega)
  exact htree'.symm.trans htree

/-- **Runs on sentences of LL(1) grammars.** Let the table of a grammar have no conflicts. A run on
the leaves of a derivation tree of the start symbol is accepted and builds this tree, without
recovery, in as many steps as the tree takes; if it is allowed fewer, then it stops for want of
steps and is not accepted. In particular derivation trees with the same leaves are the same. -/
theorem run_of_isTree {rules : List Rule} {start : Option String} {config : Config} {p : Parser}
    (hp : Parser.build rules start config = .ok p) (hll1 : p.table.isLL1 = true) {t : Tree}
    (ht : p.grammar.IsTree p.grammar.start t) (options : RunOptions) :
    (t.steps ≤ options.maxSteps →
      (p.run t.leaves options).accepted = true ∧ (p.run t.leaves options).syncPoints = [] ∧
      (p.run t.leaves options).skipPoints = [] ∧
      (p.run t.leaves options).trace.length = t.steps ∧
      (p.run t.leaves options).lastAction? = some .accept ∧
      (p.run t.leaves options).tree = t) ∧
    (options.maxSteps < t.steps →
      (p.run t.leaves options).lastAction? = some (.error (.stepLimit options.maxSteps)) ∧
      (p.run t.leaves options).accepted = false) ∧
    ∀ t', p.grammar.IsTree p.grammar.start t' → t'.leaves = t.leaves → t' = t := by
  obtain ⟨g, hg, rfl⟩ := exists_of_build hp
  have hproceeds := proceeds_of_isTree_start options.recovery hg hll1 ht
  exact ⟨hproceeds.run_of_lt, fun hlt => hproceeds.run_of_le (Nat.le_of_lt_succ hlt),
    fun t' ht' hleaves => eq_of_leaves_eq hg hll1 ht ht' hleaves⟩

end Runs

/-- Rules for as many opening tokens as closing ones. -/
def balancedRules : List Rule :=
  [⟨"S", [["a", "S", "b"], ["_"]], []⟩]

/-- The grammar of these rules. -/
def balancedGrammar : Grammar :=
  ⟨⟨#[.nonterminal "S" [[1, 0, 2], []], .terminal "a", .terminal "b", .terminal "$"]⟩, 0, 3⟩

/-- The derivation tree of one pair. -/
def pairTree : Tree :=
  balancedGrammar.nodeOf 0 [balancedGrammar.leafOf 1, balancedGrammar.nodeOf 0 [Tree.empty],
    balancedGrammar.leafOf 2]

theorem run_of_isTree_balanced :
    build balancedRules none {} = .ok (generate balancedGrammar) ∧
      (generate balancedGrammar).table.isLL1 = true ∧ balancedGrammar.IsTree 0 pairTree ∧
      ((generate balancedGrammar).run ["a", "b"] ⟨5, .panic⟩).accepted = true ∧
      ((generate balancedGrammar).run ["a", "b"] ⟨5, .panic⟩).trace.length = 5 ∧
      ((generate balancedGrammar).run ["a", "b"] ⟨5, .panic⟩).tree = pairTree ∧
      ((generate balancedGrammar).run ["a", "b"] ⟨4, .none⟩).accepted = false ∧
      ∀ t, balancedGrammar.IsTree 0 t → t.leaves = ["a", "b"] → t = pairTree := by
  have hp : build balancedRules none {} = .ok (generate balancedGrammar) :=
    build_eq_ok (by decide +kernel)
  have hll1 : (generate balancedGrammar).table.isLL1 = true := by decide
  have ht : balancedGrammar.IsTree 0 pairTree :=
    .node (by decide) (.cons (.leaf (by decide)) (.cons (.empty (by decide))
      (.cons (.leaf (by decide)) .nil)))
  obtain ⟨henough, -, hunique⟩ := run_of_isTree hp hll1 ht ⟨5, .panic⟩
  obtain ⟨-, hfew, -⟩ := run_of_isTree hp hll1 ht ⟨4, .none⟩
  obtain ⟨haccepted, -, -, hlength, -, htree⟩ := henough (by decide)
  exact ⟨hp, hll1, ht, haccepted, hlength, htree, (hfew (by decide)).2, hunique⟩

end Parser

end TopDown
