import TopDown.Proofs.Grammar.Derivation
import TopDown.Proofs.Run.Steps
import TopDown.Proofs.Table

/-!
# Accepted runs

The tree of a run that is accepted is a derivation tree of the start symbol, and its leaves are the
tokens of the input. This needs nothing of the FIRST and FOLLOW sets, nor that the grammar is
LL(1): a cell of the table names an alternative of its row, whatever the reason.

Between the steps the tree is unfinished. Every frame holds derivation trees for the beginning of
an alternative, after which the awaited symbol and the waiting symbols come (`Focus.Fits`). Steps
that match or expand keep this, and keep the matched tokens and those that are left together the
input; steps that recover do not, but then the run is not accepted.

## Main definitions

* `Focus.Fits`, `Focus.IsPartial`: unfinished derivation trees
* `Focus.yield`: the tokens that have been matched
* `State.Accounts`: the invariant of matching and expanding

## Main results

* `Parser.Proceeds.accounts`: matching and expanding keep the invariant
* `Parser.isTree_of_accepted`: the tree of an accepted run
-/

namespace TopDown

namespace Focus

variable {g : Grammar} {symbol : Nat} {frames : List Frame}

/-- A symbol fits into frames: in each of them the finished subtrees, the symbol and the waiting
symbols make an alternative, the whole of which is the symbol of the frame around it. Outermost is
the start symbol. -/
def Fits (g : Grammar) : Nat → List Frame → Prop
  | symbol, [] => symbol = g.start
  | symbol, f :: fs =>
    (∃ α, g.IsForest α f.done.reverse ∧ α ++ symbol :: f.todo ∈ g.alternatives f.left) ∧
      Fits g f.left fs

/-- The tree as far as it goes is an unfinished derivation tree of the start symbol. -/
def IsPartial (g : Grammar) : Focus → Prop
  | awaiting symbol frames => Fits g symbol frames
  | complete t => g.IsTree g.start t

/-- The leaves of the finished subtrees in frames. -/
def framesYield : List Frame → List String
  | [] => []
  | f :: fs => framesYield fs ++ Tree.leavesAll f.done.reverse

/-- The tokens that have been matched. -/
def yield : Focus → List String
  | awaiting _ frames => framesYield frames
  | complete t => t.leaves

/-- A finished derivation tree keeps the whole an unfinished one. -/
theorem isPartial_plug {t : Tree} (ht : g.IsTree symbol t) (h : Fits g symbol frames) :
    (plug g t frames).IsPartial g := by
  -- Induction on the frames: a tree that completes its frame is a tree for the next one.
  induction frames generalizing symbol t with
  | nil =>
    obtain rfl : symbol = g.start := h
    exact ht
  | cons f fs ih =>
    obtain ⟨⟨α, hα, halt⟩, hfits⟩ := h
    have hdone : g.IsForest (α ++ [symbol]) (f.attach t).done.reverse := by
      simpa [Frame.attach] using hα.append (.cons ht .nil)
    rw [plug]
    split
    · next htodo =>
      rw [htodo] at halt
      exact ih (.of_isForest halt (by simp) hdone) hfits
    · next next todo htodo =>
      rw [htodo] at halt
      exact ⟨⟨α ++ [symbol], hdone, by simpa [Frame.attach] using halt⟩, hfits⟩

theorem yield_plug (t : Tree) (frames : List Frame) :
    (plug g t frames).yield = framesYield frames ++ t.leaves := by
  induction frames generalizing t with
  | nil => rfl
  | cons f fs ih =>
    rw [plug]
    split
    · rw [ih]
      simp [framesYield, Frame.close, Frame.attach]
    · simp [yield, framesYield, Frame.attach]

/-- An expanded symbol keeps the whole an unfinished derivation tree. -/
theorem isPartial_expand {α : List Nat} (h : Fits g symbol frames)
    (halt : α ∈ g.alternatives symbol) : (expand g symbol frames α).IsPartial g := by
  cases α with
  | nil => exact isPartial_plug (.empty halt) h
  | cons first todo => exact ⟨⟨[], .nil, halt⟩, h⟩

theorem yield_expand (α : List Nat) :
    (expand g symbol frames α).yield = framesYield frames := by
  cases α with
  | nil => rw [expand, yield_plug, Tree.leaves_nodeOf, Tree.leavesAll_cons, Tree.leaves_empty,
      Tree.leavesAll_nil, List.append_nil, List.append_nil]
  | cons first todo => simp [expand, yield, framesYield]

end Focus

/-- The tree of a state is an unfinished derivation tree, and the matched tokens and those that are
left are the input. -/
structure State.Accounts (g : Grammar) (input : List String) (s : State) : Prop where
  isPartial : s.focus.IsPartial g
  yield_eq : s.focus.yield ++ s.input = input

namespace Parser

variable {g : Grammar} {recovery : Recovery} {s next last : State}

/-! ## The alternative that a cell names -/

theorem isTerminal_of_nextTerminal? (hg : g.WellFormed) {input : List String} {t : Nat}
    (h : (generate g).nextTerminal? input = some t) : g.isTerminal t = true := by
  cases input with
  | nil =>
    cases h
    exact hg.isTerminal_finish
  | cons token rest =>
    obtain ⟨hfind, -⟩ := Option.filter_eq_some_iff.mp h
    exact (Option.filter_eq_some_iff.mp hfind).2

/-- A cell that is consulted has the number of an alternative of the nonterminal, one that the next
token selects. -/
theorem exists_alternative_of_consult (hg : g.WellFormed) {symbol number : Nat}
    {input : List String} {rivals : List Nat}
    (h : (generate g).consult symbol input = some (.predict number rivals)) :
    ∃ t α, (generate g).nextTerminal? input = some t ∧
      (g.alternatives symbol)[number]? = some α ∧ t ∈ g.lookahead.selectors symbol α := by
  rw [consult] at h
  split at h
  · next t ht =>
    have hterminal := isTerminal_of_nextTerminal? hg ht
    change (g.table g.lookahead).cell? symbol t = _ at h
    cases hsymbol : g.isNonterminal symbol with
    | true =>
      rw [Grammar.cell?_table hsymbol hterminal] at h
      obtain ⟨α, hα, hselector⟩ :=
        Grammar.mem_selected_iff.mp (Grammar.mem_selected_of_cellOf (Option.some.inj h))
      exact ⟨t, α, ht, hα, hselector⟩
    | false =>
      rw [Table.cell?, Grammar.row?_table_eq_none hsymbol] at h
      cases h
  · cases h

/-- A cell that is consulted names an alternative of the nonterminal, one that the next token
selects. -/
theorem exists_selector_of_consult (hg : g.WellFormed) {symbol number : Nat}
    {input : List String} {rivals : List Nat}
    (h : (generate g).consult symbol input = some (.predict number rivals)) :
    ∃ t, (generate g).nextTerminal? input = some t ∧
      g.alternative symbol number ∈ g.alternatives symbol ∧
      t ∈ g.lookahead.selectors symbol (g.alternative symbol number) := by
  obtain ⟨t, α, ht, hα, hselector⟩ := exists_alternative_of_consult hg h
  rw [Grammar.alternative_eq hα]
  exact ⟨t, ht, List.mem_of_getElem? hα, hselector⟩

theorem mem_alternatives_of_consult (hg : g.WellFormed) {symbol number : Nat}
    {input : List String} {rivals : List Nat}
    (h : (generate g).consult symbol input = some (.predict number rivals)) :
    g.alternative symbol number ∈ g.alternatives symbol := by
  obtain ⟨t, -, halt, -⟩ := exists_selector_of_consult hg h
  exact halt

/-! ## Steps that match or expand -/

theorem Step.accounts (hg : g.WellFormed) {m : Move} {input : List String}
    (h : (generate g).Step recovery s m next) (hm : m ≠ .giveUp ∧ m ≠ .passOver)
    (hs : s.Accounts g input) : next.Accounts g input := by
  cases h with
  | @shift symbol frames rest hsymbol =>
    obtain ⟨hpartial, hyield⟩ := hs
    have hname : (generate g).grammar.name symbol = g.name symbol := rfl
    rw [hname] at hyield
    refine ⟨Focus.isPartial_plug (.leaf hsymbol) hpartial, ?_⟩
    change (Focus.plug g (g.leafOf symbol) frames).yield ++ rest = input
    rw [Focus.yield_plug, Tree.leaves_leafOf, List.append_assoc, List.singleton_append]
    exact hyield
  | expand _ _ hcell =>
    obtain ⟨hpartial, hyield⟩ := hs
    refine ⟨Focus.isPartial_expand hpartial (mem_alternatives_of_consult hg hcell), ?_⟩
    rw [Focus.yield_expand]
    exact hyield
  | giveUp => exact absurd rfl hm.1
  | passOver => exact absurd rfl hm.2

/-- **Matching and expanding keep the tree an unfinished derivation tree**, and no token is lost. -/
theorem Proceeds.accounts (hg : g.WellFormed) {n : Nat} {input : List String}
    (h : (generate g).Proceeds recovery n s last) (hs : s.Accounts g input) :
    last.Accounts g input := by
  obtain ⟨es, hsteps, -, hes⟩ := h
  induction hsteps with
  | refl => exact hs
  | cons hstep _ ih =>
    obtain ⟨hm, hrest⟩ := List.forall_mem_cons.mp hes
    exact ih (hstep.accounts hg hm hs) hrest

/-- Only a finished tree with no token left is accepted. -/
theorem eq_of_move_accept {p : Parser} (h : p.move recovery s = .accept) :
    ∃ t, s = ⟨.complete t, []⟩ := by
  obtain ⟨focus, input⟩ := s
  cases focus with
  | complete t =>
    cases input with
    | nil => exact ⟨t, rfl⟩
    | cons token rest => cases h
  | awaiting symbol frames =>
    unfold move moveAtNonterminal at h
    dsimp only at h
    split at h
    · split at h <;> cases h
    · split at h
      · split at h <;> cases h
      · cases h

/-! ## Accepted runs -/

/-- An accepted run arrives at a finished tree with no token left, by steps that match or expand. -/
theorem exists_proceeds_of_accepted {p : Parser} {input : List String} {options : RunOptions}
    (h : (p.run input options).accepted = true) :
    ∃ n t, p.Proceeds options.recovery n (p.initial input) ⟨.complete t, []⟩ ∧
      (p.run input options).tree = t := by
  obtain ⟨es, last, m, hsteps, hrun, hend⟩ := exists_run_eq p input options
  rw [hrun] at h ⊢
  obtain ⟨⟨e, hlast, haccept⟩, hregular⟩ := accepted_iff.mp h
  rw [List.getLast?_concat] at hlast
  cases hlast
  obtain ⟨t, rfl⟩ : ∃ t, last = ⟨.complete t, []⟩ := by
    rcases hend with ⟨-, hm⟩ | ⟨-, hm, -⟩
    · rw [hm] at haccept
      cases haccept
    · rw [hm] at haccept
      exact eq_of_move_accept haccept
  refine ⟨es.length, t, ⟨es, hsteps, rfl, ?_⟩, tree_report es _ _⟩
  intro e he
  exact hregular e (List.mem_append_left _ he)

/-- **What is accepted is derived.** If a run is accepted, of whatever grammar, input and options,
then its tree is a derivation tree of the start symbol whose leaves are the tokens of the input;
hence the tokens are the names of terminals in a string that the start symbol derives. -/
theorem isTree_of_accepted {rules : List Rule} {start : Option String} {config : Config}
    {p : Parser} (hp : Parser.build rules start config = .ok p) (input : List String)
    (options : RunOptions) (h : (p.run input options).accepted = true) :
    p.grammar.IsTree p.grammar.start (p.run input options).tree ∧
    (p.run input options).tree.leaves = input ∧
    ∃ w, p.grammar.Derives [p.grammar.start] w ∧
      (∀ s ∈ w, p.grammar.isTerminal s = true ∧ s ≠ p.grammar.finish) ∧
        w.map p.grammar.name = input := by
  obtain ⟨g, hg, rfl⟩ := exists_of_build hp
  obtain ⟨n, t, hproceeds, htree⟩ := exists_proceeds_of_accepted h
  have hinitial : ((generate g).initial input).Accounts g input := ⟨rfl, rfl⟩
  obtain ⟨hpartial, hyield⟩ := hproceeds.accounts hg hinitial
  have ht : g.IsTree g.start t := hpartial
  have hleaves : t.leaves = input := by simpa [Focus.yield] using hyield
  rw [htree]
  refine ⟨ht, hleaves, ?_⟩
  obtain ⟨w, hw, hterminal, hnames⟩ := ht.exists_derives
  have hlt : ∀ s ∈ w, s < g.finish := hw.lt_finish hg (by simpa using hg.start_lt_finish)
  refine ⟨w, hw, ?_, hnames.trans hleaves⟩
  intro s hs
  exact ⟨hterminal s hs, Nat.ne_of_lt (hlt s hs)⟩

/-- Rules with two alternatives that start with the same terminal. -/
def prefixRules : List Rule :=
  [⟨"S", [["a"], ["a", "b"]], []⟩]

/-- The grammar of these rules. -/
def prefixGrammar : Grammar :=
  ⟨⟨#[.nonterminal "S" [[1], [1, 2]], .terminal "a", .terminal "b", .terminal "$"]⟩, 0, 3⟩

theorem isTree_of_accepted_conflict :
    build prefixRules none {} = .ok (generate prefixGrammar) ∧
      (generate prefixGrammar).table.isLL1 = false ∧
      ((generate prefixGrammar).run ["a"] {}).accepted = true ∧
      prefixGrammar.IsTree 0 ((generate prefixGrammar).run ["a"] {}).tree ∧
      ((generate prefixGrammar).run ["a"] {}).tree.leaves = ["a"] := by
  have hp : build prefixRules none {} = .ok (generate prefixGrammar) :=
    build_eq_ok (by decide +kernel)
  have haccepted : ((generate prefixGrammar).run ["a"] {}).accepted = true := by
    decide +kernel
  obtain ⟨htree, hleaves, -⟩ := isTree_of_accepted hp ["a"] {} haccepted
  exact ⟨hp, by decide, haccepted, htree, hleaves⟩

end Parser

end TopDown
