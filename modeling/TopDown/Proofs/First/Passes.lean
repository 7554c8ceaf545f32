import Mathlib.Data.Finset.Filter
import TopDown.Proofs.First.Order
import TopDown.Proofs.Iteration

/-!
# The passes for FIRST

A pass writes the entry of a nonterminal anew, from entries some of which it has renewed already.
Nothing is lost by that, because the tables met on the way are all rising: an entry never holds
more than the alternatives give (`Grammar.IsRising`).

A pass is a function of the table that respects any question about it: what derives the empty
string after a pass depends only on what does before it, and where a terminal is known depends on
this and on where it is known before. So the nullable nonterminals have settled after as many
passes as there are nonterminals, and every terminal after as many passes again.

## Main definitions

* `Grammar.IsRising`, `Grammar.IsClosed`: no entry, or every entry, holds all that the alternatives
  give
* `Grammar.firstStage`: the table after a number of passes

## Main results

* `Grammar.IsRising.firstPass`, `Grammar.IsRising.le_firstPass`: a pass loses nothing
* `Grammar.firstStage_settled`: the tables do not change after twice as many passes as there are
  nonterminals
* `Grammar.firstPass_firstTable`, `Grammar.isClosed_firstTable`: the table of a grammar is final
-/

namespace TopDown

open First (ofSymbol ofString ofChoice Respected)

/-- Tables with the same entries are equal. -/
theorem First.table_ext {table table' : Array First} (hsize : table.size = table'.size)
    (h : ∀ s, ofSymbol table s = ofSymbol table' s) : table = table' := by
  refine Array.ext hsize fun i hi hi' => ?_
  simpa [ofSymbol, hi, hi'] using h i

theorem First.ofSymbol_of_size_le {table : Array First} {s : Nat} (h : table.size ≤ s) :
    ofSymbol table s = First.nothing := by
  simp [ofSymbol, h]

namespace Grammar

variable {g : Grammar} {table table' : Array First} {left : Nat}

/-! ## One entry renewed -/

theorem size_renewFirst : (g.renewFirst table left).size = table.size :=
  Array.size_setIfInBounds

theorem ofSymbol_renewFirst_self (h : left < table.size) :
    ofSymbol (g.renewFirst table left) left = ofChoice table (g.alternatives left) := by
  simp [ofSymbol, renewFirst, h]

theorem ofSymbol_renewFirst_of_ne {s : Nat} (h : s ≠ left) :
    ofSymbol (g.renewFirst table left) s = ofSymbol table s := by
  simp [ofSymbol, renewFirst, Array.getElem?_setIfInBounds_ne h.symm]

/-- No entry holds more than the alternatives of its symbol give. -/
structure IsRising (g : Grammar) (table : Array First) : Prop where
  size_eq : table.size = g.size
  terminal : ∀ {t : Nat}, g.isTerminal t = true → ofSymbol table t = First.terminal t
  le : ∀ {left : Nat}, g.isNonterminal left = true →
    ofSymbol table left ≤ ofChoice table (g.alternatives left)

/-- Every entry holds all that the alternatives of its symbol give. -/
def IsClosed (g : Grammar) (table : Array First) : Prop :=
  ∀ {left : Nat}, g.isNonterminal left = true →
    ofChoice table (g.alternatives left) ≤ ofSymbol table left

theorem ofSymbol_initialFirst {s : Nat} {e : Entry} (he : g.entries[s]? = some e) :
    ofSymbol g.initialFirst s = if e.isTerminal then First.terminal s else First.nothing := by
  have hentry : g.initialFirst[s]? = some (if e.isTerminal then First.terminal s
      else First.nothing) := by
    rw [initialFirst, Array.getElem?_mapIdx, he]
    cases e <;> rfl
  simp [ofSymbol, hentry]

theorem isRising_initialFirst (g : Grammar) : g.IsRising g.initialFirst where
  size_eq := Array.size_mapIdx
  terminal ht := by
    obtain ⟨e, he, hkind⟩ := Catalog.isTerminal_iff.mp ht
    rw [ofSymbol_initialFirst he, hkind, if_pos rfl]
  le hleft := by
    obtain ⟨e, he, hkind⟩ := Catalog.isNonterminal_iff.mp hleft
    rw [ofSymbol_initialFirst he, hkind, if_neg Bool.false_ne_true, First.le_def]
    simp

namespace IsRising

theorem lt_size (h : g.IsRising table) (hleft : g.isNonterminal left = true) :
    left < table.size := by
  rw [h.size_eq]
  exact Catalog.lt_size_of_isNonterminal hleft

theorem le_renewFirst (h : g.IsRising table) (hleft : g.isNonterminal left = true) (s : Nat) :
    ofSymbol table s ≤ ofSymbol (g.renewFirst table left) s := by
  rcases eq_or_ne s left with rfl | hne
  · rw [ofSymbol_renewFirst_self (h.lt_size hleft)]
    exact h.le hleft
  · rw [ofSymbol_renewFirst_of_ne hne]

theorem renewFirst (h : g.IsRising table) (hleft : g.isNonterminal left = true) :
    g.IsRising (g.renewFirst table left) where
  size_eq := size_renewFirst.trans h.size_eq
  terminal := fun {t} ht => by
    have hne : t ≠ left := by
      rintro rfl
      rw [Catalog.isTerminal_eq_false hleft] at ht
      cases ht
    rw [ofSymbol_renewFirst_of_ne hne]
    exact h.terminal ht
  le := fun {other} hother => by
    have hmore := First.respected_le.ofChoice (h.le_renewFirst hleft) (g.alternatives other)
    rcases eq_or_ne other left with rfl | hne
    · rw [ofSymbol_renewFirst_self (h.lt_size hleft)]
      exact hmore
    · rw [ofSymbol_renewFirst_of_ne hne]
      exact (h.le hother).trans hmore

/-- Several entries renewed one after the other. -/
theorem foldl_renewFirst (h : g.IsRising table) {ls : List Nat}
    (hls : ∀ left ∈ ls, g.isNonterminal left = true) :
    g.IsRising (ls.foldl g.renewFirst table) ∧
      ∀ s, ofSymbol table s ≤ ofSymbol (ls.foldl g.renewFirst table) s := by
  induction ls generalizing table with
  | nil => exact ⟨h, fun _ => le_rfl⟩
  | cons left ls ih =>
    obtain ⟨hleft, hrest⟩ := List.forall_mem_cons.mp hls
    obtain ⟨hrising, hle⟩ := ih (h.renewFirst hleft) hrest
    refine ⟨hrising, ?_⟩
    intro s
    exact (h.le_renewFirst hleft s).trans (hle s)

theorem firstPass (h : g.IsRising table) : g.IsRising (g.firstPass table) :=
  (h.foldl_renewFirst fun _ => Catalog.mem_nonterminals.mp).1

/-- **A pass loses nothing**, although it writes the entries anew. -/
theorem le_firstPass (h : g.IsRising table) (s : Nat) :
    ofSymbol table s ≤ ofSymbol (g.firstPass table) s :=
  (h.foldl_renewFirst fun _ => Catalog.mem_nonterminals.mp).2 s

/-- After entries have been renewed, they hold all that the alternatives gave before. -/
theorem ofChoice_le_foldl (h : g.IsRising table) {ls : List Nat}
    (hls : ∀ left ∈ ls, g.isNonterminal left = true) (hmem : left ∈ ls) :
    ofChoice table (g.alternatives left) ≤ ofSymbol (ls.foldl g.renewFirst table) left := by
  induction ls generalizing table with
  | nil => cases hmem
  | cons other ls ih =>
    obtain ⟨hother, hrest⟩ := List.forall_mem_cons.mp hls
    rcases eq_or_ne left other with rfl | hne
    · rw [← ofSymbol_renewFirst_self (h.lt_size hother)]
      exact ((h.renewFirst hother).foldl_renewFirst hrest).2 left
    · have hmem : left ∈ ls := (List.mem_cons.mp hmem).resolve_left hne
      exact (First.respected_le.ofChoice (h.le_renewFirst hother) _).trans
        (ih (h.renewFirst hother) hrest hmem)

/-- A table that a pass does not change is closed. -/
theorem isClosed (h : g.IsRising table) (hfixed : g.firstPass table = table) :
    g.IsClosed table := fun {left} hleft => by
  have hle := h.ofChoice_le_foldl (fun _ => Catalog.mem_nonterminals.mp)
    (Catalog.mem_nonterminals.mpr hleft)
  change _ ≤ ofSymbol (g.firstPass table) left at hle
  rwa [hfixed] at hle

/-- Two rising tables differ at nonterminals only. -/
theorem iff_of_nonterminals {Q : First → Prop} (h : g.IsRising table) (h' : g.IsRising table')
    (hagree : ∀ s, g.isNonterminal s = true → (Q (ofSymbol table s) ↔ Q (ofSymbol table' s)))
    (s : Nat) : Q (ofSymbol table s) ↔ Q (ofSymbol table' s) := by
  rcases Nat.lt_or_ge s g.size with hlt | hge
  · cases hkind : g.isTerminal s with
    | true =>
      rw [h.terminal hkind, h'.terminal hkind]
    | false => exact hagree s (Catalog.isNonterminal_of_lt hlt hkind)
  · rw [First.ofSymbol_of_size_le (h.size_eq.trans_le hge),
      First.ofSymbol_of_size_le (h'.size_eq.trans_le hge)]

end IsRising

/-! ## What a pass depends on -/

section Respect

variable {R : First → First → Prop}

theorem renewFirst_respects (hR : Respected R) (hsize : table.size = table'.size)
    (h : ∀ s, R (ofSymbol table s) (ofSymbol table' s)) (left s : Nat) :
    R (ofSymbol (g.renewFirst table left) s) (ofSymbol (g.renewFirst table' left) s) := by
  by_cases hs : s = left
  · subst hs
    rcases Nat.lt_or_ge s table.size with hlt | hge
    · rw [ofSymbol_renewFirst_self hlt, ofSymbol_renewFirst_self (hsize ▸ hlt)]
      exact hR.ofChoice h _
    · rw [First.ofSymbol_of_size_le (size_renewFirst.trans_le hge),
        First.ofSymbol_of_size_le ((size_renewFirst.trans hsize.symm).trans_le hge)]
      exact hR.refl _
  · rw [ofSymbol_renewFirst_of_ne hs, ofSymbol_renewFirst_of_ne hs]
    exact h s

/-- What sequence and choice respect, a pass respects. -/
theorem firstPass_respects (hR : Respected R) (hsize : table.size = table'.size)
    (h : ∀ s, R (ofSymbol table s) (ofSymbol table' s)) :
    ∀ s, R (ofSymbol (g.firstPass table) s) (ofSymbol (g.firstPass table') s) := by
  unfold firstPass
  -- The two passes run side by side; after each entry the relation holds again.
  induction g.nonterminals generalizing table table' with
  | nil => exact h
  | cons left ls ih =>
    refine ih ?_ (renewFirst_respects hR hsize h left)
    rw [size_renewFirst, size_renewFirst, hsize]

end Respect

/-! ## The stages of the iteration -/

/-- The table after a number of passes. -/
def firstStage (g : Grammar) (k : Nat) : Array First :=
  g.firstPass^[k] g.initialFirst

theorem firstStage_succ (g : Grammar) (k : Nat) :
    g.firstStage (k + 1) = g.firstPass (g.firstStage k) :=
  Function.iterate_succ_apply' _ _ _

theorem isRising_firstStage (g : Grammar) (k : Nat) : g.IsRising (g.firstStage k) := by
  induction k with
  | zero => exact g.isRising_initialFirst
  | succ k ih =>
    rw [firstStage_succ]
    exact ih.firstPass

theorem firstStage_le_succ (g : Grammar) (k s : Nat) :
    ofSymbol (g.firstStage k) s ≤ ofSymbol (g.firstStage (k + 1)) s := by
  rw [firstStage_succ]
  exact (g.isRising_firstStage k).le_firstPass s

/-- What two stages agree on in a respected way, the next two agree on. -/
theorem firstStage_respects {R : First → First → Prop} (hR : Respected R) {i j : Nat}
    (h : ∀ s, R (ofSymbol (g.firstStage i) s) (ofSymbol (g.firstStage j) s)) :
    ∀ s, R (ofSymbol (g.firstStage (i + 1)) s) (ofSymbol (g.firstStage (j + 1)) s) := by
  rw [firstStage_succ, firstStage_succ]
  refine firstPass_respects hR ?_ h
  rw [(g.isRising_firstStage i).size_eq, (g.isRising_firstStage j).size_eq]

/-- The nonterminals whose entry has a property. -/
def holders (g : Grammar) (Q : First → Prop) [DecidablePred Q] (table : Array First) :
    Finset Nat :=
  g.nonterminals.toFinset.filter fun s => Q (ofSymbol table s)

section Holders

variable {Q : First → Prop} [DecidablePred Q]

theorem mem_holders {s : Nat} :
    s ∈ g.holders Q table ↔ g.isNonterminal s = true ∧ Q (ofSymbol table s) := by
  simp [holders, Catalog.mem_nonterminals]

theorem holders_subset : g.holders Q table ⊆ g.nonterminals.toFinset :=
  Finset.filter_subset _ _

theorem card_nonterminals_le : g.nonterminals.toFinset.card ≤ g.nonterminals.length :=
  List.toFinset_card_le _

theorem holders_subset_succ (hQ : ∀ f f' : First, f ≤ f' → Q f → Q f') (k : Nat) :
    g.holders Q (g.firstStage k) ⊆ g.holders Q (g.firstStage (k + 1)) := by
  intro s hs
  rw [mem_holders] at hs ⊢
  exact ⟨hs.1, hQ _ _ (g.firstStage_le_succ k s) hs.2⟩

/-- Stages with the same holders agree on the property everywhere. -/
theorem iff_of_holders_eq {i j : Nat}
    (h : g.holders Q (g.firstStage i) = g.holders Q (g.firstStage j)) (s : Nat) :
    Q (ofSymbol (g.firstStage i) s) ↔ Q (ofSymbol (g.firstStage j) s) := by
  refine (g.isRising_firstStage i).iff_of_nonterminals (g.isRising_firstStage j) ?_ s
  intro s hs
  have hmem := Finset.ext_iff.mp h s
  rw [mem_holders, mem_holders] at hmem
  exact ⟨fun hq => (hmem.mp ⟨hs, hq⟩).2, fun hq => (hmem.mpr ⟨hs, hq⟩).2⟩

theorem holders_eq_of_iff {i j : Nat}
    (h : ∀ s, Q (ofSymbol (g.firstStage i) s) ↔ Q (ofSymbol (g.firstStage j) s)) :
    g.holders Q (g.firstStage i) = g.holders Q (g.firstStage j) := by
  ext s
  rw [mem_holders, mem_holders, h s]

end Holders

/-- What derives the empty string is known after as many passes as there are nonterminals. -/
theorem nullable_firstStage_settled {k : Nat} (hk : g.nonterminals.length ≤ k) (s : Nat) :
    (ofSymbol (g.firstStage k) s).nullable = true ↔
      (ofSymbol (g.firstStage g.nonterminals.length) s).nullable = true := by
  let Q : First → Prop := fun f => f.nullable = true
  refine iff_of_holders_eq (Q := Q) (settled_of_card_le
    (S := fun k => g.holders Q (g.firstStage k)) (fun _ => holders_subset)
    (holders_subset_succ fun f f' hle hf => hle.2 hf) (fun k h => ?_) card_nonterminals_le hk) s
  exact holders_eq_of_iff (firstStage_respects First.respected_nullable (iff_of_holders_eq h))

/-- What a nonterminal can start with is known after as many passes again: once the nullable
nonterminals are known, the ones that start with a terminal depend on nothing else. -/
theorem mem_firstStage_settled {k : Nat} (hk : 2 * g.nonterminals.length ≤ k) (n s : Nat) :
    n ∈ (ofSymbol (g.firstStage k) s).terminals ↔
      n ∈ (ofSymbol (g.firstStage (2 * g.nonterminals.length)) s).terminals := by
  let Q : First → Prop := fun f => n ∈ f.terminals
  let late : Nat → Nat := fun j => g.nonterminals.length + j
  have hsettled : g.holders Q (g.firstStage (late (k - g.nonterminals.length))) =
      g.holders Q (g.firstStage (late g.nonterminals.length)) := by
    refine settled_of_card_le (S := fun j => g.holders Q (g.firstStage (late j)))
      (fun _ => holders_subset) (fun j => holders_subset_succ (fun f f' hle hf => hle.1 n hf) _)
      (fun j h => ?_) card_nonterminals_le (by omega)
    have hagree : ∀ i s, (ofSymbol (g.firstStage (late i)) s).nullable = true ↔
        (ofSymbol (g.firstStage (late (i + 1))) s).nullable = true := fun i s =>
      (nullable_firstStage_settled (Nat.le_add_right _ _) s).trans
        (nullable_firstStage_settled (Nat.le_add_right _ _) s).symm
    have hnext := firstStage_respects (First.respected_mem n)
      fun s => ⟨hagree j s, iff_of_holders_eq h s⟩
    exact holders_eq_of_iff fun s => (hnext s).2
  have hk' : late (k - g.nonterminals.length) = k := by
    dsimp only [late]
    omega
  have htwice : late g.nonterminals.length = 2 * g.nonterminals.length := by
    dsimp only [late]
    omega
  rw [hk', htwice] at hsettled
  exact iff_of_holders_eq hsettled s

/-- **The passes settle linearly**: after twice as many passes as there are nonterminals, a further
one changes nothing. -/
theorem firstStage_settled (g : Grammar) :
    g.firstPass (g.firstStage (2 * g.nonterminals.length)) =
      g.firstStage (2 * g.nonterminals.length) := by
  rw [← firstStage_succ]
  refine First.table_ext ?_ fun s => First.ext (fun n => ?_) ?_
  · rw [(g.isRising_firstStage _).size_eq, (g.isRising_firstStage _).size_eq]
  · exact mem_firstStage_settled (Nat.le_succ _) n s
  · exact (nullable_firstStage_settled (by omega) s).trans
      (nullable_firstStage_settled (by omega) s).symm

/-! ## The final table -/

theorem passes_firstTable_le (g : Grammar) :
    g.firstTable.passes ≤ 2 * g.nonterminals.length + 1 :=
  passes_stabilize_le g.firstStage_settled

/-- The bound on the passes is never reached. -/
theorem lt_firstBound (g : Grammar) : 2 * g.nonterminals.length + 1 < g.firstBound := by
  have hle := g.length_nonterminals_le
  have hmul : g.nonterminals.length * 2 ≤ g.nonterminals.length * (g.size + 1) := by
    rcases Nat.eq_zero_or_pos g.nonterminals.length with hzero | hpos
    · simp [hzero]
    · exact Nat.mul_le_mul_left _ (by omega)
  rw [firstBound]
  omega

/-- The last pass changes nothing. -/
theorem firstPass_firstTable (g : Grammar) :
    g.firstPass g.firstTable.value = g.firstTable.value :=
  step_stabilize_of_iterate g.firstStage_settled g.lt_firstBound

theorem isRising_firstTable (g : Grammar) : g.IsRising g.firstTable.value :=
  stabilizeAfter_induction (P := g.IsRising) g.firstPass (fun _ => IsRising.firstPass)
    g.isRising_initialFirst

theorem isClosed_firstTable (g : Grammar) : g.IsClosed g.firstTable.value :=
  g.isRising_firstTable.isClosed g.firstPass_firstTable

end Grammar

end TopDown
