import Mathlib.Data.List.Perm.Subperm
import TopDown.Proofs.Follow.Exact

/-!
# How the tables of a grammar are drafted

The tables of a grammar are the values of two iterations, each of which stops when a pass leaves the
table as it is. A program keeps one draft of both tables, writes into it, and does not look back: a
pass for FIRST writes the entry of each nonterminal anew and notes whether the entry was another one
before, a pass for FOLLOW notes of each addition whether it makes a set longer. The loops call these
passes until no change is noted.

Here the program's draft is ordered by what is known in it. All that a pass does adds to the draft,
as the passes for FIRST start from rising tables, so that its notes are right
(`Draft.isReported_firstPass`, `Draft.isReported_followPass`), and the loops end with the tables of
the grammar, after as many calls as these take passes.

## Main definitions

* `Draft`, `Grammar.draft`: the tables while they are being computed, and before the first pass
* `Draft.firstPass`, `Draft.followPass`: the passes, with their reports

## Main results

* `Draft.loopRuns_firstPass`, `Draft.loopRuns_followPass`: the loops end with the tables of the
  grammar
* `Grammar.firstLoop_settles`, `Grammar.followLoop_settles`: what the loops do
-/

namespace TopDown

open First (ofSymbol ofString ofChoice)

/-- A set with no fewer members than a set that contains it is that set. -/
theorem SymbolSet.eq_of_subset_of_length_le {s s' : SymbolSet} (h : ∀ t ∈ s, t ∈ s')
    (hlength : s'.members.length ≤ s.members.length) : s = s' := by
  have hnodup : s.members.Nodup := s.increasing.imp Nat.ne_of_lt
  have hperm : s.members.Perm s'.members :=
    (List.subperm_of_subset hnodup h).perm_of_length_le hlength
  exact SymbolSet.ext fun t => hperm.mem_iff

/-- Rising tables that agree on the nonterminals are equal. -/
theorem Grammar.IsRising.eq_of_nonterminals {g : Grammar} {table table' : Array First}
    (h : g.IsRising table) (h' : g.IsRising table')
    (hagree : ∀ left, g.isNonterminal left = true → ofSymbol table left = ofSymbol table' left) :
    table = table' := by
  refine First.table_ext (h.size_eq.trans h'.size_eq.symm) fun s => ?_
  refine (h.iff_of_nonterminals (Q := (· = ofSymbol table' s)) h' (fun left hleft => ?_) s).mpr rfl
  rw [hagree left hleft]

/-- A grammar with its tables as far as they have been computed: what is known of its symbols to
start with, and to be followed by. -/
structure Draft where
  grammar : Grammar
  first : Array First
  follow : Array SymbolSet

/-- The draft before the first pass. -/
def Grammar.draft (g : Grammar) : Draft :=
  ⟨g, g.initialFirst, g.initialFollow⟩

namespace Draft

/-- A draft is less than another one if less is known in it of the same grammar. -/
instance : PartialOrder Draft where
  le d d' := d.grammar = d'.grammar ∧ d.first.size = d'.first.size ∧
    d.follow.size = d'.follow.size ∧ (∀ s, ofSymbol d.first s ≤ ofSymbol d'.first s) ∧
    ∀ s, ∀ t ∈ followOf d.follow s, t ∈ followOf d'.follow s
  le_refl _ := ⟨rfl, rfl, rfl, fun _ => le_rfl, fun _ _ => id⟩
  le_trans _ _ _ h h' :=
    ⟨h.1.trans h'.1, h.2.1.trans h'.2.1, h.2.2.1.trans h'.2.2.1,
      fun s => (h.2.2.2.1 s).trans (h'.2.2.2.1 s),
      fun s t ht => h'.2.2.2.2 s t (h.2.2.2.2 s t ht)⟩
  le_antisymm d d' h h' := by
    obtain ⟨g, first, follow⟩ := d
    obtain ⟨g', first', follow'⟩ := d'
    obtain ⟨hgrammar, hfirst, hfollow, hle, hmem⟩ := h
    obtain ⟨-, -, -, hle', hmem'⟩ := h'
    obtain rfl : g = g' := hgrammar
    obtain rfl : first = first' := First.table_ext hfirst fun s => (hle s).antisymm (hle' s)
    obtain rfl : follow = follow' :=
      followTable_ext hfollow fun s t => ⟨hmem s t, hmem' s t⟩
    rfl

/-! ## Passes with their reports -/

/-- Writes the entry of a nonterminal anew, and reports whether it was another one before. -/
def renewFirst (left : Nat) (d : Draft) : Draft × Bool :=
  let f := ofChoice d.first (d.grammar.alternatives left)
  if ofSymbol d.first left = f then (d, false)
  else ({ d with first := d.first.setIfInBounds left f }, true)

/-- One pass over the nonterminals in order. -/
def firstPass (d : Draft) : Draft × Bool :=
  inTurn renewFirst d.grammar.nonterminals d

/-- Adds to what follows a symbol, and reports whether the set is longer than before. -/
def extendFollow (addition : Nat × SymbolSet) (d : Draft) : Draft × Bool :=
  let before := (followOf d.follow addition.1).members.length
  let follow := d.follow.modify addition.1 (· ∪ addition.2)
  ({ d with follow }, (followOf follow addition.1).members.length != before)

/-- One pass over the occurrences. All additions are computed before the first of them is made. -/
def followPass (d : Draft) : Draft × Bool :=
  let additions := d.grammar.occurrences.map fun o => (o.symbol, o.contribution d.first d.follow)
  inTurn extendFollow additions d

/-! ## What the passes do -/

variable {g : Grammar} {d : Draft} {left : Nat}

theorem renewFirst_fst (left : Nat) (d : Draft) :
    (renewFirst left d).1 = { d with first := d.grammar.renewFirst d.first left } := by
  rw [renewFirst]
  split
  · next heq =>
    have hsame : d.grammar.renewFirst d.first left = d.first := by
      refine First.table_ext Grammar.size_renewFirst fun s => ?_
      rcases eq_or_ne s left with rfl | hne
      · rcases Nat.lt_or_ge s d.first.size with hlt | hge
        · rw [Grammar.ofSymbol_renewFirst_self hlt, heq]
        · rw [First.ofSymbol_of_size_le (Grammar.size_renewFirst.trans_le hge),
            First.ofSymbol_of_size_le hge]
      · exact Grammar.ofSymbol_renewFirst_of_ne hne
    rw [hsame]
  · rfl

theorem firstPass_fst (d : Draft) :
    d.firstPass.1 = { d with first := d.grammar.firstPass d.first } := by
  rw [firstPass, inTurn_fst, Grammar.firstPass]
  simp only [renewFirst_fst]
  refine List.foldl_hom (fun first => { d with first }) ?_
  exact fun _ _ => rfl

theorem followPass_fst (d : Draft) :
    d.followPass.1 = { d with follow := d.grammar.followPass d.first d.follow } := by
  rw [followPass, inTurn_fst, List.foldl_map, Grammar.followPass]
  refine List.foldl_hom (fun follow => { d with follow }) ?_
  exact fun _ _ => rfl

theorem le_extendFollow (addition : Nat × SymbolSet) (d : Draft) :
    d ≤ (extendFollow addition d).1 :=
  ⟨rfl, rfl, Array.size_modify.symm, fun _ => le_rfl,
    fun _ _ ht => mem_followOf_modify.mpr (Or.inl ht)⟩

/-- **An addition is reported** if it makes a set longer, and then it adds to the set. -/
theorem isReported_extendFollow (addition : Nat × SymbolSet) (d : Draft) :
    IsReported (fun _ => True) d (extendFollow addition d) := by
  refine ⟨trivial, le_extendFollow addition d, ?_⟩
  have hreport : (extendFollow addition d).2 = true ↔
      (followOf (extendFollow addition d).1.follow addition.1).members.length ≠
        (followOf d.follow addition.1).members.length := bne_iff_ne
  rw [hreport, not_iff_not]
  constructor
  · intro hlength
    have hsame := SymbolSet.eq_of_subset_of_length_le
      ((le_extendFollow addition d).2.2.2.2 addition.1) hlength.le
    refine (le_extendFollow addition d).antisymm' ⟨rfl, rfl, Array.size_modify, fun _ => le_rfl, ?_⟩
    intro s t ht
    rcases eq_or_ne s addition.1 with rfl | hne
    · rwa [hsame]
    · refine (mem_followOf_modify.mp ht).resolve_right ?_
      rintro ⟨-, rfl, -⟩
      exact hne rfl
  · intro heq
    rw [heq]

theorem isReported_followPass (d : Draft) : IsReported (fun _ => True) d d.followPass :=
  .inTurn (fun addition _ d _ => isReported_extendFollow addition d) trivial

/-- A draft of the tables of a grammar in which no entry holds more than the alternatives give. -/
def IsRising (g : Grammar) (d : Draft) : Prop :=
  d.grammar = g ∧ g.IsRising d.first

/-- **An entry that is written anew is reported** if it was another one before. -/
theorem isReported_renewFirst (hleft : g.isNonterminal left = true) (h : d.IsRising g) :
    IsReported (IsRising g) d (renewFirst left d) := by
  obtain ⟨rfl, hrising⟩ := h
  have hlt := hrising.lt_size hleft
  refine ⟨?_, ?_, ?_⟩
  · rw [renewFirst_fst]
    exact ⟨rfl, hrising.renewFirst hleft⟩
  · rw [renewFirst_fst]
    exact ⟨rfl, Grammar.size_renewFirst.symm, rfl, hrising.le_renewFirst hleft, fun _ _ => id⟩
  · rw [renewFirst]
    split
    · simp
    · next hne =>
      refine iff_of_true rfl fun heq => hne ?_
      rw [← Grammar.ofSymbol_renewFirst_self hlt]
      exact congrArg (fun d => ofSymbol d.first left) heq.symm

theorem isReported_firstPass (h : d.IsRising g) : IsReported (IsRising g) d d.firstPass := by
  obtain ⟨rfl, -⟩ := id h
  exact .inTurn (fun _ hleft _ hd =>
    isReported_renewFirst (Catalog.mem_nonterminals.mp hleft) hd) h

/-! ## What the reports say -/

/-- What a call of the pass for FIRST does to a draft: no symbol loses a terminal that it can start
with, none loses its nullability, and a change is reported exactly if there is one for some
nonterminal. -/
structure RelaxesFirst (d : Draft) (result : Draft × Bool) : Prop where
  grammar_eq : result.1.grammar = d.grammar
  follow_eq : result.1.follow = d.follow
  terminals_subset : ∀ left, ∀ t ∈ (ofSymbol d.first left).terminals,
    t ∈ (ofSymbol result.1.first left).terminals
  nullable_kept : ∀ left, (ofSymbol d.first left).nullable = true →
    (ofSymbol result.1.first left).nullable = true
  report_iff : result.2 = true ↔ ∃ left, d.grammar.isNonterminal left = true ∧
    ofSymbol result.1.first left ≠ ofSymbol d.first left

/-- What a call of the pass for FOLLOW does to a draft: nothing but the sets of what follows is
touched, these lose nothing, and a change is reported exactly if one of them grows. -/
structure RelaxesFollow (d : Draft) (result : Draft × Bool) : Prop where
  grammar_eq : result.1.grammar = d.grammar
  first_eq : result.1.first = d.first
  follow_subset : ∀ s, ∀ t ∈ followOf d.follow s, t ∈ followOf result.1.follow s
  report_iff : result.2 = true ↔ ∃ symbol, d.grammar.isNonterminal symbol = true ∧
    ∃ t, t ∈ followOf result.1.follow symbol ∧ t ∉ followOf d.follow symbol

/-- **A call of the pass for FIRST**, although it writes the entries anew. -/
theorem relaxesFirst_firstPass (h : d.IsRising g) : RelaxesFirst d d.firstPass := by
  have hreported := isReported_firstPass h
  obtain ⟨rfl, hrising⟩ := h
  obtain ⟨hgrammar, -, -, hle, -⟩ := hreported.le
  refine ⟨hgrammar.symm, by rw [firstPass_fst], fun left => (hle left).1, fun left => (hle left).2,
    ?_⟩
  rw [hreported.report_iff, firstPass_fst]
  constructor
  · intro hne
    by_contra hnone
    have hsame : d.grammar.firstPass d.first = d.first := by
      refine hrising.firstPass.eq_of_nonterminals hrising fun left hleft => ?_
      by_contra hdiffer
      exact hnone ⟨left, hleft, hdiffer⟩
    rw [hsame] at hne
    exact hne rfl
  · rintro ⟨left, -, hdiffer⟩ heq
    exact hdiffer (congrArg (fun d => ofSymbol d.first left) heq)

/-- **A call of the pass for FOLLOW**, although it notes the sizes of the sets only. -/
theorem relaxesFollow_followPass (h : d.follow.size = d.grammar.size) :
    RelaxesFollow d d.followPass := by
  have hreported := isReported_followPass d
  obtain ⟨hgrammar, -, -, -, hsubset⟩ := hreported.le
  refine ⟨hgrammar.symm, by rw [followPass_fst], hsubset, ?_⟩
  rw [hreported.report_iff, followPass_fst]
  constructor
  · intro hne
    by_contra hnone
    have hsame : d.grammar.followPass d.first d.follow = d.follow := by
      refine followTable_ext Grammar.size_followPass fun s t => ?_
      cases hs : d.grammar.isNonterminal s with
      | false => exact Grammar.mem_followPass_of_not_isNonterminal hs h
      | true =>
        refine ⟨fun ht => ?_, Grammar.mem_followPass_of_mem⟩
        by_contra hnew
        exact hnone ⟨s, hs, t, ht, hnew⟩
    rw [hsame] at hne
    exact hne rfl
  · rintro ⟨symbol, -, t, ht, hnew⟩ heq
    exact hnew (congrArg Draft.follow heq ▸ ht)

/-! ## The loops -/

theorem carriesOut_firstPass {table : Array First} (follow : Array SymbolSet)
    (h : g.IsRising table) :
    CarriesOut firstPass (fun table => ⟨g, table, follow⟩) g.firstPass table := by
  have hreported := isReported_firstPass (d := ⟨g, table, follow⟩) ⟨rfl, h⟩
  rw [CarriesOut]
  refine Prod.ext (firstPass_fst _) (Bool.eq_iff_iff.mpr ?_)
  rw [hreported.report_iff, firstPass_fst, decide_eq_true_eq]
  simp

theorem carriesOut_followPass (first : Array First) (table : Array SymbolSet) :
    CarriesOut followPass (fun table => ⟨g, first, table⟩) (g.followPass first) table := by
  have hreported := isReported_followPass ⟨g, first, table⟩
  rw [CarriesOut]
  refine Prod.ext (followPass_fst _) (Bool.eq_iff_iff.mpr ?_)
  rw [hreported.report_iff, followPass_fst, decide_eq_true_eq]
  simp

/-- **The loop for FIRST** ends with the table of the grammar. -/
theorem loopRuns_firstPass (g : Grammar) : LoopRuns firstPass g.draft g.lookahead.firstPasses
    ⟨g, g.lookahead.first, g.initialFollow⟩ := by
  refine loopRuns_stabilize (fun table => Draft.mk g table g.initialFollow)
    (fun _ => Grammar.IsRising.firstPass) (fun _ h => carriesOut_firstPass _ h)
    g.isRising_initialFirst ?_
  exact Nat.lt_of_le_of_lt g.passes_firstTable_le g.lt_firstBound

/-- **The loop for FOLLOW**, after the one for FIRST, ends with the other table. -/
theorem loopRuns_followPass (g : Grammar) :
    LoopRuns followPass ⟨g, g.lookahead.first, g.initialFollow⟩ g.lookahead.followPasses
      ⟨g, g.lookahead.first, g.lookahead.follow⟩ := by
  refine loopRuns_stabilize (P := fun _ => True) (fun table => Draft.mk g g.lookahead.first table)
    (fun _ _ => trivial) (fun table _ => carriesOut_followPass _ table) trivial ?_
  exact Nat.lt_of_le_of_lt (g.passes_followTable_le _) g.lt_followBound

/-- With the table of the grammar, a further pass for FIRST changes nothing. -/
theorem firstPass_lookahead (g : Grammar) (follow : Array SymbolSet) :
    firstPass ⟨g, g.lookahead.first, follow⟩ = (⟨g, g.lookahead.first, follow⟩, false) := by
  have hcarries := carriesOut_firstPass follow g.isRising_firstTable
  rw [CarriesOut, g.firstPass_firstTable] at hcarries
  exact hcarries.trans (by simp [Grammar.lookahead])

/-- With the tables of the grammar, a further pass for FOLLOW changes nothing. -/
theorem followPass_lookahead (g : Grammar) :
    followPass ⟨g, g.lookahead.first, g.lookahead.follow⟩ =
      (⟨g, g.lookahead.first, g.lookahead.follow⟩, false) := by
  have hcarries := carriesOut_followPass (g := g) g.lookahead.first g.lookahead.follow
  have hfixed : g.followPass g.lookahead.first g.lookahead.follow = g.lookahead.follow :=
    g.followPass_followTable _
  rw [CarriesOut, hfixed] at hcarries
  simpa using hcarries

end Draft

namespace Grammar

/-- **The loop for FIRST settles.** Every call of its pass loses no terminal and no nullability of
any nonterminal, although it writes the entries anew, and reports a change exactly if there is one.
The loop ends after at most one call more than twice as many as there are nonterminals; this number
of calls is the one that is logged, and the table is that of the parser. A further call of the pass
changes nothing then, and neither does one after the loop for FOLLOW. -/
theorem firstLoop_settles (g : Grammar) :
    (∀ k, (calls Draft.firstPass k g.draft).RelaxesFirst
      (calls Draft.firstPass k g.draft).firstPass) ∧
    ∃ n d, LoopRuns Draft.firstPass g.draft n d ∧
      n ≤ 2 * g.nonterminals.length + 1 ∧
      (Parser.generate g).log.head? =
        some ⟨.debug, "FIRST sets converged after " ++ n.repr ++ " passes"⟩ ∧
      d.first = (Parser.generate g).lookahead.first ∧
      d.firstPass = (d, false) ∧
      ∃ m d', LoopRuns Draft.followPass d m d' ∧
        d'.first = (Parser.generate g).lookahead.first ∧
        d'.firstPass = (d', false) := by
  constructor
  · intro k
    obtain ⟨hcalls, hrising⟩ := calls_view (fun table => Draft.mk g table g.initialFollow)
      (fun _ => IsRising.firstPass) (fun _ h => Draft.carriesOut_firstPass _ h)
      g.isRising_initialFirst k
    have hdraft : (calls Draft.firstPass k g.draft).IsRising g := by
      rw [draft, hcalls]
      exact ⟨rfl, hrising⟩
    exact Draft.relaxesFirst_firstPass hdraft
  · refine ⟨_, _, Draft.loopRuns_firstPass g, g.passes_firstTable_le, rfl, rfl,
      Draft.firstPass_lookahead g _, ?_⟩
    exact ⟨_, _, Draft.loopRuns_followPass g, rfl, Draft.firstPass_lookahead g _⟩

/-- **The loop for FOLLOW settles**, where it begins with what the loop for FIRST ends with. Every
call of its pass touches nothing but the sets of what follows, of which none loses anything, and
reports a change exactly if one of them grows. The loop ends after at most one call more than there
are nonterminals, with the sets of the parser, and a further call changes nothing. So wherever a
nonterminal stands in an alternative, it is followed by all that the rest of the alternative can
start with and, if this rest is nullable, by all that follows the left side. -/
theorem followLoop_settles (g : Grammar) :
    ∃ n d, LoopRuns Draft.firstPass g.draft n d ∧
      (∀ k, (calls Draft.followPass k d).RelaxesFollow
        (calls Draft.followPass k d).followPass) ∧
      ∃ m d', LoopRuns Draft.followPass d m d' ∧
        m ≤ g.nonterminals.length + 1 ∧
        d'.first = (Parser.generate g).lookahead.first ∧
        d'.follow = (Parser.generate g).lookahead.follow ∧
        d'.followPass = (d', false) ∧
        ∀ left before symbol rest, before ++ symbol :: rest ∈ g.alternatives left →
          g.isNonterminal symbol = true →
          (∀ t ∈ (ofString d'.first rest).terminals, t ∈ followOf d'.follow symbol) ∧
          ((ofString d'.first rest).nullable = true →
            ∀ t ∈ followOf d'.follow left, t ∈ followOf d'.follow symbol) := by
  refine ⟨_, _, Draft.loopRuns_firstPass g, fun k => ?_, _, _, Draft.loopRuns_followPass g,
    g.passes_followTable_le _, rfl, rfl, Draft.followPass_lookahead g, ?_⟩
  · obtain ⟨hcalls, hsize⟩ := calls_view (P := fun table => table.size = g.size)
      (fun table => Draft.mk g g.lookahead.first table) (fun _ h => size_followPass.trans h)
      (fun table _ => Draft.carriesOut_followPass _ table) g.size_initialFollow k
    apply Draft.relaxesFollow_followPass
    rw [hcalls]
    exact hsize
  · intro left before symbol rest halt hsymbol
    refine ⟨fun t ht => ?_, fun hnull t ht => ?_⟩
    · exact mem_followOf_of_alternative halt hsymbol (Or.inl ht)
    · exact mem_followOf_of_alternative halt hsymbol (Or.inr ⟨hnull, ht⟩)

/-- The terminal after the start symbol follows it, and also the nonterminal that comes last in
another alternative of it. -/
theorem followLoop_settles_cyclic :
    ∃ n d m d', LoopRuns Draft.firstPass Parser.cyclicGrammar.draft n d ∧
      LoopRuns Draft.followPass d m d' ∧ m ≤ 4 ∧
      2 ∈ followOf d'.follow 0 ∧ 2 ∈ followOf d'.follow 1 := by
  obtain ⟨n, d, hfirst, -, m, d', hfollow, hle, htable, -, -, hclosed⟩ :=
    followLoop_settles Parser.cyclicGrammar
  have hstart : 2 ∈ followOf d'.follow 0 :=
    (hclosed 0 [] 0 [2] (by decide) (by decide)).1 2 (by rw [htable]; decide)
  have hlast : 2 ∈ followOf d'.follow 1 :=
    (hclosed 0 [] 1 [] (by decide) (by decide)).2 rfl 2 hstart
  exact ⟨n, d, m, d', hfirst, hfollow, hle, hstart, hlast⟩

end Grammar

end TopDown
