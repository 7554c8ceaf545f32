import Mathlib.Data.List.Nodup
import TopDown.Proofs.Table.Conflicts

/-!
# Generation by lookup

The tables of a grammar are computed with lookups that have an answer for everything: a number that
is no symbol starts with nothing and is followed by nothing. A program has no such answers. It comes
to a halt where a number is outside of a list or a map, and it goes on with its passes for as long
as they change something.

Here the generation of a parser is carried out a second time, in the way of a program. Every access
to a table, a row or a name can fail, and so can the passes, if they do not come to an end. Rows are
filled by finding the column of a terminal and adding to what is there. For a well-formed grammar
nothing fails, and the result is the same parser (`Parser.generate?_eq`).

## Main definitions

* `replace?`, `label?`, `settle?`: writing, numbering and iterating, with failure
* `First.ofString?`, `Grammar.firstPass?`, `Grammar.followPass?`: the passes
* `Grammar.fillRow?`: a row, filled alternative by alternative
* `Parser.generate?`: the parser and what is reported about it

## Main results

* `settle?_eq`: an iteration that comes to an end in time
* `Grammar.enterAll?_eq`: entering a number into the columns of some terminals
* `Grammar.fillRow?_eq`: filling a row gives the cells that the sets prescribe
* `Parser.generate?_eq`: nothing fails when the parser of a well-formed grammar is generated
-/

namespace TopDown

/-! ## Computations that can fail -/

section Computations

variable {α β : Type}

/-- An array with one entry replaced, which has to be there. -/
def replace? (a : Array α) (i : Nat) (x : α) : Option (Array α) :=
  if i < a.size then some (a.setIfInBounds i x) else none

/-- Each member of a list with the label of its place, which has to be there. -/
def label? (labels : List β) (l : List α) : Option (List (β × α)) :=
  l.zipIdx.mapM fun a => do
    let label ← labels[a.2]?
    return (label, a.1)

/-- Repeats a step until it changes nothing, which has to be within the bound. -/
def settle? [DecidableEq α] (step : α → Option α) (passes : Nat) :
    (bound : Nat) → α → Option (Stable α)
  | 0, _ => none
  | bound + 1, a => do
    let b ← step a
    if b = a then return ⟨a, passes + 1⟩ else settle? step (passes + 1) bound b

theorem replace?_eq {a : Array α} {i : Nat} (hi : i < a.size) (x : α) :
    replace? a i x = some (a.setIfInBounds i x) :=
  if_pos hi

theorem mapM_eq_some {f? : α → Option β} {f : α → β} {l : List α}
    (h : ∀ a ∈ l, f? a = some (f a)) : l.mapM f? = some (l.map f) := by
  induction l with
  | nil => rfl
  | cons a l ih =>
    obtain ⟨ha, hl⟩ := List.forall_mem_cons.mp h
    rw [List.mapM_cons, ha, ih hl]
    rfl

/-- A fold does not fail if none of its steps does, as long as something holds that they keep. -/
theorem foldlM_eq_some {f? : β → α → Option β} {f : β → α → β} {P : β → Prop} {l : List α} {b : β}
    (hstep : ∀ b, ∀ a ∈ l, P b → f? b a = some (f b a)) (hP : ∀ b a, P b → P (f b a)) (hb : P b) :
    l.foldlM f? b = some (l.foldl f b) := by
  induction l generalizing b with
  | nil => rfl
  | cons a l ih =>
    rw [List.foldlM_cons, hstep b a List.mem_cons_self hb]
    exact ih (fun b a ha => hstep b a (List.mem_cons_of_mem _ ha)) (hP b a hb)

/-- The labels that a list was made from are those of its places. -/
theorem label?_map (labels : List β) (f : β → α) :
    label? labels (labels.map f) = some (labels.map fun label => (label, f label)) := by
  have hlabel : ∀ a ∈ labels.zipIdx, (do
      let label ← labels[a.2]?
      return (label, f a.1)) = some (a.1, f a.1) := by
    intro a ha
    rw [List.mem_zipIdx_iff_getElem?.mp ha]
    rfl
  rw [label?, List.zipIdx_map, List.mapM_map]
  refine (mapM_eq_some hlabel).trans (congrArg some ?_)
  have hfst := congrArg (List.map fun label => (label, f label)) (List.zipIdx_map_fst 0 labels)
  rwa [List.map_map] at hfst

/-- **An iteration comes to its end** if its steps do not fail and its bound is not reached. -/
theorem settle?_eq [DecidableEq α] {step? : α → Option α} {step : α → α} {P : α → Prop}
    (hstep : ∀ a, P a → step? a = some (step a)) (hP : ∀ a, P a → P (step a))
    {passes bound : Nat} {a : α} (ha : P a)
    (h : (stabilizeAfter step passes bound a).passes < passes + bound) :
    settle? step? passes bound a = some (stabilizeAfter step passes bound a) := by
  induction bound generalizing passes a with
  | zero => exact absurd h (Nat.lt_irrefl _)
  | succ bound ih =>
    rw [stabilizeAfter] at h ⊢
    rw [settle?, hstep a ha]
    change (if step a = a then _ else _) = _
    split
    · rfl
    · next hne =>
      rw [if_neg hne] at h
      exact ih (hP a ha) (by omega)

end Computations

/-! ## FIRST and FOLLOW -/

namespace First

/-- What a string can start with, if every symbol that can be seen in it has an entry. -/
def ofString? (table : Array First) : List Nat → Option First
  | [] => some vanishing
  | symbol :: symbols => do
    let f ← table[symbol]?
    if f.nullable then
      let rest ← ofString? table symbols
      return f.seq rest
    else return f

/-- What a choice between strings can start with. -/
def ofChoice? (table : Array First) (choice : List (List Nat)) : Option First :=
  choice.foldlM (fun f symbols => do
    let other ← ofString? table symbols
    return f.alt other) nothing

variable {table : Array First}

theorem ofString?_eq {α : List Nat} (h : ∀ s ∈ α, s < table.size) :
    ofString? table α = some (ofString table α) := by
  induction α with
  | nil => rfl
  | cons s α ih =>
    obtain ⟨hs, hα⟩ := List.forall_mem_cons.mp h
    rw [ofString?, ofString, ofSymbol, Array.getElem?_eq_getElem hs, ih hα]
    change (if table[s].nullable then some (table[s].seq (ofString table α)) else some table[s]) = _
    rw [Option.getD_some, seq]
    split <;> rfl

theorem ofChoice?_eq {choice : List (List Nat)} (h : ∀ α ∈ choice, ∀ s ∈ α, s < table.size) :
    ofChoice? table choice = some (ofChoice table choice) := by
  refine foldlM_eq_some (P := fun _ => True) (fun f α hα _ => ?_) (fun _ _ _ => trivial) trivial
  rw [ofString?_eq (h α hα)]
  rfl

end First

/-- What an occurrence lets follow its symbol. -/
def Occurrence.contribution? (first : Array First) (table : Array SymbolSet) (o : Occurrence) :
    Option SymbolSet := do
  let rest ← First.ofString? first o.rest
  if rest.nullable then
    let follow ← table[o.left]?
    return rest.terminals ∪ follow
  else return rest.terminals

namespace Grammar

/-- Renews the entry of one nonterminal. -/
def renewFirst? (g : Grammar) (table : Array First) (symbol : Nat) : Option (Array First) := do
  let f ← First.ofChoice? table (g.alternatives symbol)
  replace? table symbol f

/-- One pass over the nonterminals in order. -/
def firstPass? (g : Grammar) (table : Array First) : Option (Array First) :=
  g.nonterminals.foldlM g.renewFirst? table

/-- The table before the first pass. -/
def initialFollow? (g : Grammar) : Option (Array SymbolSet) :=
  replace? (Array.replicate g.size ∅) g.start {g.finish}

/-- One pass over the occurrences. -/
def followPass? (g : Grammar) (first : Array First) (table : Array SymbolSet) :
    Option (Array SymbolSet) :=
  g.occurrences.foldlM (fun new o => do
    let added ← o.contribution? first table
    let follow ← new[o.symbol]?
    return new.setIfInBounds o.symbol (follow ∪ added)) table

/-- The tables of a grammar. -/
def lookahead? (g : Grammar) : Option Lookahead := do
  let first ← settle? g.firstPass? 0 g.firstBound g.initialFirst
  let initial ← g.initialFollow?
  let follow ← settle? (g.followPass? first.value) 0 g.followBound initial
  return ⟨first.value, follow.value, first.passes, follow.passes⟩

variable {g : Grammar}

theorem firstPass?_eq (hg : g.WellFormed) {table : Array First} (hsize : table.size = g.size) :
    g.firstPass? table = some (g.firstPass table) := by
  refine foldlM_eq_some (P := fun table => table.size = g.size) (fun table left hleft hsize => ?_)
    (fun table left hsize => size_renewFirst.trans hsize) hsize
  have hmem := Catalog.lt_size_of_isNonterminal (Catalog.mem_nonterminals.mp hleft)
  have hchoice : First.ofChoice? table (g.alternatives left) = _ :=
    First.ofChoice?_eq fun α hα s hs => by
      rw [hsize]
      exact hg.lt_size_of_mem hα hs
  rw [renewFirst?, hchoice]
  exact replace?_eq (hsize ▸ hmem) _

theorem followPass?_eq (hg : g.WellFormed) {first : Array First} {table : Array SymbolSet}
    (hfirst : first.size = g.size) (hsize : table.size = g.size) :
    g.followPass? first table = some (g.followPass first table) := by
  refine foldlM_eq_some (P := fun new => new.size = g.size) (fun new o ho hnew => ?_)
    (fun new o hnew => (Array.size_modify).trans hnew) hsize
  obtain ⟨-, before, halt⟩ := mem_occurrences_iff.mp ho
  have hleft := Catalog.lt_size_of_isNonterminal (Catalog.isNonterminal_of_mem halt)
  have hrest : First.ofString? first o.rest = _ := First.ofString?_eq fun s hs => by
    rw [hfirst]
    exact hg.lt_size_of_mem halt (by simp [hs])
  have hcontribution : o.contribution? first table = some (o.contribution first table) := by
    rw [Occurrence.contribution?, Occurrence.contribution, hrest, followOf,
      Array.getElem?_eq_getElem (hsize ▸ hleft)]
    dsimp only [Option.bind_eq_bind, Option.bind_some, Option.getD_some]
    split <;> rfl
  have hsymbol : o.symbol < new.size := by
    rw [hnew]
    exact hg.lt_size_of_mem halt (by simp)
  rw [hcontribution, Array.getElem?_eq_getElem hsymbol]
  refine congrArg some (Array.ext_getElem? fun i => ?_)
  rw [Array.getElem?_setIfInBounds, Array.getElem?_modify]
  split
  · next heq =>
    subst heq
    simp [hsymbol]
  · rfl

theorem initialFollow?_eq (hg : g.WellFormed) : g.initialFollow? = some g.initialFollow := by
  refine replace?_eq ?_ _
  rw [Array.size_replicate]
  exact Catalog.lt_size_of_isNonterminal hg.isNonterminal_start

/-- **The passes fail nowhere, and come to an end.** -/
theorem lookahead?_eq (hg : g.WellFormed) : g.lookahead? = some g.lookahead := by
  have hfirst : settle? g.firstPass? 0 g.firstBound g.initialFirst = some g.firstTable := by
    refine settle?_eq (P := g.IsRising) (fun table h => firstPass?_eq hg h.size_eq)
      (fun table => IsRising.firstPass) g.isRising_initialFirst ?_
    rw [Nat.zero_add]
    exact Nat.lt_of_le_of_lt g.passes_firstTable_le g.lt_firstBound
  have hsize := g.isRising_firstTable.size_eq
  have hfollow : settle? (g.followPass? g.firstTable.value) 0 g.followBound g.initialFollow =
      some (g.followTable g.firstTable.value) := by
    refine settle?_eq (P := fun table => table.size = g.size)
      (fun table => followPass?_eq hg hsize) (fun table h => size_followPass.trans h)
      g.size_initialFollow ?_
    rw [Nat.zero_add]
    exact Nat.lt_of_le_of_lt (g.passes_followTable_le _) g.lt_followBound
  rw [lookahead?, hfirst, initialFollow?_eq hg]
  dsimp only [Option.bind_eq_bind, Option.bind_some]
  rw [hfollow]
  rfl

end Grammar

/-! ## Rows -/

/-- The numbers in a cell with one more number at the end, unless it is there already. -/
def enter (number : Nat) (numbers : List Nat) : List Nat :=
  if number ∈ numbers then numbers else numbers ++ [number]

/-- A number entered into the column of a terminal, which has to be there. -/
def enter? (columns : List Nat) (number : Nat) (row : Array (List Nat)) (t : Nat) :
    Option (Array (List Nat)) := do
  let column ← columns.idxOf? t
  let numbers ← row[column]?
  replace? row column (enter number numbers)

namespace Grammar

/-- An alternative entered into a row: into the columns of the terminals that it can start with
and, if it vanishes, into those of the terminals that follow the left side. -/
def enterAlternative? (g : Grammar) (l : Lookahead) (left : Nat) (row : Array (List Nat))
    (alternative : List Nat × Nat) : Option (Array (List Nat)) := do
  let f ← First.ofString? l.first alternative.1
  let row ← f.terminals.members.foldlM (enter? g.terminals alternative.2) row
  if f.nullable then
    let follow ← l.follow[left]?
    follow.members.foldlM (enter? g.terminals alternative.2) row
  else return row

/-- The cell that lists some numbers. -/
def cellOfNumbers (g : Grammar) (l : Lookahead) (left t : Nat) : List Nat → Cell
  | number :: rivals => .predict number rivals
  | [] => g.recovery l left t

/-- A row, which is filled alternative by alternative. -/
def fillRow? (g : Grammar) (l : Lookahead) (left : Nat) : Option Row := do
  let row ← (g.alternatives left).zipIdx.foldlM (g.enterAlternative? l left)
    (Array.replicate g.terminals.length [])
  let cells ← label? g.terminals row.toList
  return ⟨left, cells.map fun cell => g.cellOfNumbers l left cell.1 cell.2⟩

/-- The parse table. -/
def table? (g : Grammar) (l : Lookahead) : Option Table := do
  let rows ← g.nonterminals.mapM (g.fillRow? l)
  return ⟨g.terminals, rows⟩

variable {g : Grammar} {l : Lookahead} {left t : Nat}

/-- The row in which every terminal has the numbers that a function says. -/
def rowOf (g : Grammar) (F : Nat → List Nat) : Array (List Nat) :=
  (g.terminals.map F).toArray

theorem nodup_terminals (g : Grammar) : g.terminals.Nodup :=
  List.Nodup.filter _ List.nodup_range

theorem enter?_rowOf (F : Nat → List Nat) (number : Nat) (ht : g.isTerminal t = true) :
    enter? g.terminals number (g.rowOf F) t =
      some (g.rowOf (Function.update F t (enter number (F t)))) := by
  have hmem := Catalog.mem_terminals.mpr ht
  have hlt := List.idxOf_lt_length_iff.mpr hmem
  have hcolumn : g.terminals.idxOf? t = some (g.terminals.idxOf t) := by
    rw [List.idxOf_eq_getD_idxOf?]
    cases h : g.terminals.idxOf? t with
    | none => exact absurd hmem (List.idxOf?_eq_none_iff.mp h)
    | some column => rfl
  have hget : (g.rowOf F)[g.terminals.idxOf t]? = some (F t) := by
    simp [rowOf, hlt]
  have hsize : g.terminals.idxOf t < (g.rowOf F).size := by simpa [rowOf] using hlt
  rw [enter?, hcolumn]
  dsimp only [Option.bind_eq_bind, Option.bind_some]
  rw [hget, Option.bind_some, replace?_eq hsize, rowOf, rowOf, g.nodup_terminals.map_update,
    if_pos hmem, List.setIfInBounds_toArray]

theorem enter_enter (number : Nat) (numbers : List Nat) :
    enter number (enter number numbers) = enter number numbers := by
  have hmem : number ∈ enter number numbers := by
    rw [enter]
    split <;> simp_all
  rw [enter, if_pos hmem]

/-- **A number is entered into the columns of some terminals**, into each of them once. -/
theorem foldlM_enter?_rowOf (number : Nat) {ts : List Nat} (hts : ∀ t ∈ ts, g.isTerminal t = true)
    (F : Nat → List Nat) : ts.foldlM (enter? g.terminals number) (g.rowOf F) =
      some (g.rowOf fun t => if t ∈ ts then enter number (F t) else F t) := by
  induction ts generalizing F with
  | nil => simp
  | cons t ts ih =>
    obtain ⟨ht, hrest⟩ := List.forall_mem_cons.mp hts
    rw [List.foldlM_cons, enter?_rowOf F number ht]
    refine (ih hrest _).trans (congrArg some (congrArg g.rowOf (funext fun s => ?_)))
    by_cases hs : s = t
    · subst hs
      rw [Function.update_self, enter_enter, if_pos List.mem_cons_self, ite_self]
    · rw [Function.update_of_ne hs]
      simp [hs]

/-- **An alternative is entered into the columns of its selectors.** -/
theorem enterAlternative?_rowOf {α : List Nat} {f : First} (hf : l.firstOf α = f)
    (hα : First.ofString? l.first α = some f) (hfirst : ∀ t ∈ f.terminals, g.isTerminal t = true)
    (hleft : left < l.follow.size) (hfollow : ∀ t ∈ l.followOf left, g.isTerminal t = true)
    (number : Nat) (F : Nat → List Nat) : g.enterAlternative? l left (g.rowOf F) (α, number) =
      some (g.rowOf fun t => if t ∈ l.selectors left α then enter number (F t) else F t) := by
  have hset : l.follow[left]? = some (l.followOf left) := by
    rw [Lookahead.followOf, followOf, Array.getElem?_eq_getElem hleft, Option.getD_some]
  rw [enterAlternative?, hα]
  dsimp only [Option.bind_eq_bind, Option.bind_some]
  rw [foldlM_enter?_rowOf number hfirst, Option.bind_some, hset, Option.bind_some,
    foldlM_enter?_rowOf number hfollow, Lookahead.selectors, hf]
  by_cases hnull : f.nullable = true
  · rw [if_pos hnull, if_pos hnull]
    refine congrArg some (congrArg g.rowOf (funext fun t => ?_))
    simp only [← SymbolSet.mem_def, SymbolSet.mem_union]
    -- A terminal of both sets is entered twice, which makes no difference.
    by_cases hmem : t ∈ f.terminals <;> by_cases hmem' : t ∈ l.followOf left <;>
      simp [hmem, hmem', enter_enter]
  · rw [if_neg hnull, if_neg hnull]
    rfl

/-- The numbers of the alternatives in a list that a terminal selects. -/
def listed (l : Lookahead) (left : Nat) (alternatives : List (List Nat)) (t : Nat) : List Nat :=
  (alternatives.zipIdx.filter fun a => t ∈ l.selectors left a.1).map Prod.snd

theorem lt_length_of_mem_listed {alternatives : List (List Nat)} {number : Nat}
    (h : number ∈ listed l left alternatives t) : number < alternatives.length := by
  obtain ⟨⟨α, k⟩, ha, rfl⟩ := List.mem_map.mp h
  exact (List.getElem?_eq_some_iff.mp (List.mem_zipIdx_iff_getElem?.mp (List.mem_filter.mp ha).1)).1

theorem listed_append (alternatives : List (List Nat)) (α : List Nat) (t : Nat) :
    listed l left (alternatives ++ [α]) t = if t ∈ l.selectors left α then
      enter alternatives.length (listed l left alternatives t) else
      listed l left alternatives t := by
  have hnew : alternatives.length ∉ listed l left alternatives t := fun h =>
    Nat.lt_irrefl _ (lt_length_of_mem_listed h)
  rw [enter, if_neg hnew, listed, List.zipIdx_append, List.filter_append, List.map_append]
  split <;> simp_all [listed]

theorem ofString?_lookahead {α : List Nat} (h : ∀ s ∈ α, s < g.size) :
    First.ofString? g.lookahead.first α = some (g.lookahead.firstOf α) :=
  First.ofString?_eq fun s hs => g.isRising_firstTable.size_eq ▸ h s hs

/-- All alternatives of a list are entered. -/
theorem foldlM_enterAlternative?_eq (hg : g.WellFormed) {alternatives : List (List Nat)}
    (hleft : left < g.size) (h : ∀ α ∈ alternatives, ∀ s ∈ α, s < g.size) :
    alternatives.zipIdx.foldlM (g.enterAlternative? g.lookahead left) (g.rowOf fun _ => []) =
      some (g.rowOf (listed g.lookahead left alternatives)) := by
  induction alternatives using List.reverseRecOn with
  | nil => rfl
  | append_singleton alternatives α ih =>
    have hα : First.ofString? g.lookahead.first α = _ :=
      ofString?_lookahead (h α (by simp))
    have hbefore := ih fun α hα => h α (List.mem_append_left _ hα)
    rw [List.zipIdx_append, List.foldlM_append, hbefore]
    have hlast := enterAlternative?_rowOf (g := g) rfl hα
      (fun t ht => (mem_firstOf_iff.mp ht).1) (by rwa [lookahead, size_followTable])
      (fun t ht => isTerminal_of_mem_followOf hg ht) alternatives.length
      (listed g.lookahead left alternatives)
    simp only [← listed_append] at hlast
    simpa using hlast

/-- **Filling a row gives the cells that the sets prescribe.** -/
theorem fillRow?_eq (hg : g.WellFormed) (hleft : g.isNonterminal left = true) :
    g.fillRow? g.lookahead left =
      some ⟨left, g.terminals.map (g.cellOf g.lookahead left)⟩ := by
  have hempty : Array.replicate g.terminals.length [] = g.rowOf fun _ => [] := by
    simp [rowOf]
  have hsize : ∀ α ∈ g.alternatives left, ∀ s ∈ α, s < g.size :=
    fun _ hα _ hs => hg.lt_size_of_mem hα hs
  have hfilled := foldlM_enterAlternative?_eq hg (Catalog.lt_size_of_isNonterminal hleft) hsize
  rw [fillRow?, hempty, hfilled]
  dsimp only [Option.bind_eq_bind, Option.bind_some]
  rw [rowOf, label?_map, Option.bind_some, List.map_map]
  refine congrArg some (congrArg (Row.mk left) (List.map_congr_left fun t _ => ?_))
  rw [cellOf]
  change g.cellOfNumbers _ left t (g.selected g.lookahead left t) = _
  cases g.selected g.lookahead left t <;> rfl

theorem table?_eq (hg : g.WellFormed) : g.table? g.lookahead = some (g.table g.lookahead) := by
  rw [table?, mapM_eq_some fun left hleft => fillRow?_eq hg (Catalog.mem_nonterminals.mp hleft)]
  rfl

end Grammar

/-! ## Conflicts -/

namespace Grammar

/-- The kind of a clash between two alternatives over a terminal. -/
def clashKind? (g : Grammar) (l : Lookahead) (left earlier later terminal : Nat) :
    Option ConflictKind := do
  let f ← First.ofString? l.first (g.alternative left earlier)
  let f' ← First.ofString? l.first (g.alternative left later)
  return if terminal ∈ f.terminals ∧ terminal ∈ f'.terminals then .firstFirst else .firstFollow

/-- The clashes in a cell. -/
def clashesIn? (g : Grammar) (l : Lookahead) (left terminal : Nat) (cell : Cell) :
    Option (List Clash) :=
  (orderedPairs cell.numbers).mapM fun (earlier, later) => do
    let kind ← g.clashKind? l left earlier later terminal
    return ⟨kind, left, earlier, later, terminal⟩

/-- The clashes in a row, whose cells are in the columns of their terminals. -/
def clashesInRow? (g : Grammar) (l : Lookahead) (t : Table) (row : Row) : Option (List Clash) := do
  let cells ← label? t.columns row.cells
  let found ← cells.mapM fun (terminal, cell) => g.clashesIn? l row.left terminal cell
  return found.flatten

/-- The conflicts in a table. -/
def conflicts? (g : Grammar) (l : Lookahead) (t : Table) : Option (List Conflict) := do
  let found ← t.rows.mapM (g.clashesInRow? l t)
  return found.flatten.foldl (fun cs clash => Conflict.record clash cs) []

variable {g : Grammar} {left t : Nat}

theorem lt_size_of_mem_alternative (hg : g.WellFormed) {number s : Nat}
    (hs : s ∈ g.alternative left number) : s < g.size := by
  cases halt : (g.alternatives left)[number]? with
  | none => simp [Catalog.alternative, halt] at hs
  | some α =>
    rw [alternative_eq halt] at hs
    exact hg.lt_size_of_mem (List.mem_of_getElem? halt) hs

theorem clashKind?_eq (hg : g.WellFormed) (earlier later : Nat) :
    g.clashKind? g.lookahead left earlier later t =
      some (g.clashKind g.lookahead left earlier later t) := by
  rw [clashKind?, ofString?_lookahead fun s => lt_size_of_mem_alternative hg,
    ofString?_lookahead fun s => lt_size_of_mem_alternative hg]
  rfl

theorem clashesIn?_eq (hg : g.WellFormed) (cell : Cell) :
    g.clashesIn? g.lookahead left t cell = some (g.clashesIn g.lookahead left t cell) := by
  refine mapM_eq_some ?_
  rintro ⟨earlier, later⟩ -
  dsimp only
  rw [clashKind?_eq hg]
  rfl

/-- **Every place of a row is that of a column.** -/
theorem conflicts?_eq (hg : g.WellFormed) :
    g.conflicts? g.lookahead (g.table g.lookahead) =
      some (g.conflicts g.lookahead (g.table g.lookahead)) := by
  have hrow : ∀ row ∈ (g.table g.lookahead).rows,
      g.clashesInRow? g.lookahead (g.table g.lookahead) row =
        some ((g.terminals.zip row.cells).flatMap fun (t, cell) =>
          g.clashesIn g.lookahead row.left t cell) := by
    intro row hrow
    obtain ⟨left, -, rfl⟩ := List.mem_map.mp hrow
    have hlabel : label? (g.table g.lookahead).columns _ = _ :=
      label?_map g.terminals (g.cellOf g.lookahead left)
    rw [clashesInRow?, hlabel, ← List.map_prod_left_eq_zip]
    dsimp only [Option.bind_eq_bind, Option.bind_some]
    rw [mapM_eq_some fun cell _ => clashesIn?_eq hg cell.2]
    rfl
  rw [conflicts?, mapM_eq_some hrow]
  rfl

end Grammar

/-! ## Reports -/

namespace Catalog

/-- The names in a string of symbols, all of which have to be there. -/
def spell? (c : Catalog) : List Nat → Option (List String)
  | [] => some [Mark.epsilon]
  | symbols => symbols.mapM c.name?

/-- An alternative with its left side, as text. -/
def productionText? (c : Catalog) (left number : Nat) : Option String := do
  let name ← c.name? left
  let names ← c.spell? (c.alternative left number)
  return name ++ " -> " ++ " ".intercalate names

variable {c : Catalog} {left : Nat}

theorem spell?_eq {α : List Nat} (h : ∀ s ∈ α, s < c.size) : c.spell? α = some (c.spell α) := by
  cases α with
  | nil => rfl
  | cons s α => exact mapM_eq_some fun s hs => name?_eq_name (h s hs)

theorem productionText?_eq {number : Nat} (hleft : left < c.size)
    (h : ∀ s ∈ c.alternative left number, s < c.size) :
    c.productionText? left number = some (c.productionText left number) := by
  rw [productionText?, name?_eq_name hleft, spell?_eq h]
  rfl

end Catalog

namespace Parser

/-- What is reported about one conflict. -/
def conflictRecord? (p : Parser) (c : Conflict) : Option LogRecord := do
  let name ← p.grammar.name? c.left
  let earlier ← p.grammar.productionText? c.left c.earlier
  let later ← p.grammar.productionText? c.left c.later
  return ⟨.warn, c.kind.name ++ " on " ++ name ++ ": " ++ earlier ++ " / " ++ later⟩

/-- What is reported about the generation. -/
def log? (p : Parser) : Option (List LogRecord) := do
  let records ← p.conflicts.mapM p.conflictRecord?
  return [⟨.debug, "FIRST sets converged after " ++ p.lookahead.firstPasses.repr ++ " passes"⟩,
      ⟨.debug, "FOLLOW sets converged after " ++ p.lookahead.followPasses.repr ++ " passes"⟩] ++
    records ++
    [⟨.debug, "LL(1) table built: " ++ p.table.rows.length.repr ++ " rows x " ++
      p.table.columns.length.repr ++ " columns, " ++ p.conflicts.length.repr ++ " conflicts"⟩]

/-- The parser of a grammar, with what is reported about it. -/
def generate? (g : Grammar) : Option (Parser × List LogRecord) := do
  let lookahead ← g.lookahead?
  let table ← g.table? lookahead
  let conflicts ← g.conflicts? lookahead table
  let p : Parser := ⟨g, lookahead, table, conflicts⟩
  let records ← p.log?
  return (p, records)

variable {g : Grammar}

theorem log?_eq (hg : g.WellFormed) : (generate g).log? = some (generate g).log := by
  have hrecord : ∀ c ∈ (generate g).conflicts,
      (generate g).conflictRecord? c = some ((generate g).conflictRecord c) := by
    intro c hc
    obtain ⟨α, β, -, hα, -⟩ := Grammar.contested_of_mem_conflicts hg hc
    have hleft := Catalog.lt_size_of_isNonterminal
      (Catalog.isNonterminal_of_mem (List.mem_of_getElem? hα))
    have hname : (generate g).grammar.name? c.left = some (g.name c.left) :=
      Catalog.name?_eq_name hleft
    have htext : ∀ number, (generate g).grammar.productionText? c.left number =
        some (g.productionText c.left number) := fun number =>
      Catalog.productionText?_eq hleft fun s => Grammar.lt_size_of_mem_alternative hg
    rw [conflictRecord?, hname, htext, htext]
    rfl
  rw [log?, mapM_eq_some hrecord]
  rfl

/-- **Nothing fails when the parser of a well-formed grammar is generated.** -/
theorem generate?_eq (hg : g.WellFormed) :
    generate? g = some (generate g, (generate g).log) := by
  have hlog := log?_eq hg
  rw [generate?, Grammar.lookahead?_eq hg]
  dsimp only [Option.bind_eq_bind, Option.bind_some]
  rw [Grammar.table?_eq hg, Option.bind_some, Grammar.conflicts?_eq hg, Option.bind_some]
  change (do let records ← (generate g).log?; _) = _
  rw [hlog]
  rfl

end Parser

end TopDown
