import Mathlib.Data.List.Forall2
import TopDown.Proofs.Text.Tex
import TopDown.Proofs.Text.Words

/-!
# Tables in LaTeX

A table is a text with two backslashes after each of its rows but perhaps the last, and a row is a
text with a bare ampersand between any two of its cells. LaTeX does not know how a table was made:
it takes the text apart at these marks. If all cells are made of texts that fit in cells, then what
LaTeX finds are the rows and the cells that were meant (`isRowOf_row`, `forall₂_texRows_rows`).

## Main definitions

* `IsSeparator`: what stands between cells, and what stands between rows
* `IsRowText`: the text of a row, made of cells
* `texRows`, `IsRowOf`: the rows that LaTeX finds in a text
* `IsTable`: a text that is a table with a row for each of some texts

## Main results

* `forall₂_splitOnP_tokens`: a text is taken apart at its marks
* `isTable_array`, `isTable_tabular`: the two kinds of tables
-/

namespace TopDown.Text.Tex

variable {before after sep : String} {columns : Nat}

/-! ## Marks between texts -/

/-- A text that divides the texts around it by a mark, and adds something to both of them that fits
in a cell. -/
structure IsSeparator (u : Token) (sep : String) : Prop where
  exists_parts : ∃ before after, FitsCell before ∧ FitsCell after ∧
    ∀ t : String, tokens (sep ++ t).toList =
      tokens before.toList ++ u :: tokens (after ++ t).toList
  notMem : ∀ s, FitsCell s → u ∉ tokens s.toList

theorem isSeparator_cell : IsSeparator (.bare '&') " & " where
  exists_parts := by
    refine ⟨" ", " ", by decide, by decide, fun t => ?_⟩
    have hsep : (" & " ++ t).toList = ' ' :: '&' :: ' ' :: t.toList := String.toList_append
    have hafter : (" " ++ t).toList = ' ' :: t.toList := String.toList_append
    rw [hsep, hafter, tokens_cons_of_ne (by decide), tokens_cons_of_ne (by decide)]
    rfl
  notMem := fun _ h => h.inCell

theorem isSeparator_row : IsSeparator (.escaped '\\') (rowEnd ++ "\n") where
  exists_parts := by
    refine ⟨"", "\n", by decide, by decide, fun t => ?_⟩
    have hsep : (rowEnd ++ "\n" ++ t).toList = '\\' :: '\\' :: '\n' :: t.toList :=
      String.toList_append
    have hafter : ("\n" ++ t).toList = '\n' :: t.toList := String.toList_append
    rw [hsep, hafter, tokens, if_pos rfl]
    rfl
  notMem := fun _ h => h.inRow

/-- Texts without a mark that have a separator between any two of them are told apart at the mark.
What is found in the place of each of them is the text, with something before and after it that fits
in a cell. -/
theorem forall₂_splitOnP_tokens {u : Token} (hsep : IsSeparator u sep) {texts : List String}
    (hwhole : ∀ text ∈ texts, IsWhole text)
    (hmark : ∀ text ∈ texts, u ∉ tokens text.toList) (hne : texts ≠ []) (hbefore : FitsCell before)
    (hafter : FitsCell after) :
    List.Forall₂ (fun text ts => ∃ before after, FitsCell before ∧ FitsCell after ∧
        ts = tokens before.toList ++ (tokens text.toList ++ tokens after.toList)) texts
      ((tokens (before ++ (sep.intercalate texts ++ after)).toList).splitOnP (· == u)) := by
  have hnone : ∀ before text after : String, FitsCell before → FitsCell after →
      u ∉ tokens text.toList →
      u ∉ tokens before.toList ++ (tokens text.toList ++ tokens after.toList) := by
    intro before text after hbefore hafter htext
    simp only [List.mem_append, not_or]
    exact ⟨hsep.notMem _ hbefore, htext, hsep.notMem _ hafter⟩
  induction texts generalizing before with
  | nil => exact absurd rfl hne
  | cons text texts ih =>
    obtain ⟨htext, hwhole⟩ := List.forall_mem_cons.mp hwhole
    obtain ⟨hmarkText, hmark⟩ := List.forall_mem_cons.mp hmark
    cases texts with
    | nil =>
      rw [String.intercalate_singleton, hbefore.whole.tokens_append, htext.tokens_append,
        splitOnP_eq_singleton_of_notMem (hnone _ _ _ hbefore hafter hmarkText)]
      exact .cons ⟨before, after, hbefore, hafter, rfl⟩ .nil
    | cons next texts =>
      -- The separator falls apart: its beginning goes with this text, its end with the next one.
      obtain ⟨start, rest, hstart, hrest, htokens⟩ := hsep.exists_parts
      have hsplit : tokens (before ++ (sep.intercalate (text :: next :: texts) ++ after)).toList =
          tokens before.toList ++ (tokens text.toList ++ tokens start.toList) ++
            u :: tokens (rest ++ (sep.intercalate (next :: texts) ++ after)).toList := by
        rw [String.intercalate_cons_cons, String.append_assoc, String.append_assoc,
          hbefore.whole.tokens_append, htext.tokens_append, htokens]
        simp only [List.append_assoc]
      have hmark' : (u == u) = true := beq_self_eq_true u
      rw [hsplit, List.splitOnP_append_cons (p := (· == u)) _ _ hmark',
        splitOnP_eq_singleton_of_notMem (hnone _ _ _ hbefore hstart hmarkText)]
      exact .cons ⟨before, start, hbefore, hstart, rfl⟩
        (ih hwhole hmark (List.cons_ne_nil _ _) hrest)

/-! ## Rows -/

theorem forall_mem_of_forall₂ {α β : Type} {P : β → Prop} {l : List α} {l' : List β}
    (h : List.Forall₂ (fun _ b => P b) l l') : ∀ b ∈ l', P b := by
  induction h with
  | nil => simp
  | cons hb h ih => exact List.forall_mem_cons.mpr ⟨hb, ih⟩

/-- A row that LaTeX finds: a text stands in it, it has as many cells as the table has columns, and
nothing stands in a cell that must not stand there. -/
structure IsRowOf (columns : Nat) (text : String) (ts : List Token) : Prop where
  holds : tokens text.toList <:+: ts
  count : ts.count (.bare '&') + 1 = columns
  cells : ∀ cell ∈ ts.splitOnP (· == .bare '&'), IsSound cell

/-- A text is made of as many cells as there are columns, all of which fit. -/
def IsRowText (columns : Nat) (text : String) : Prop :=
  ∃ cells, cells.length = columns ∧ (∀ cell ∈ cells, FitsCell cell) ∧ row cells = text

theorem fitsRow_row {cells : List String} (hcells : ∀ cell ∈ cells, FitsCell cell) :
    FitsRow (row cells) :=
  FitsRow.intercalate (by decide) fun cell hcell => (hcells cell hcell).toFitsRow

/-- **A row has the cells that it was made of.** -/
theorem isRowOf_row {cells : List String} (hcells : ∀ cell ∈ cells, FitsCell cell)
    (hne : cells ≠ []) (hbefore : FitsCell before) (hafter : FitsCell after) :
    IsRowOf cells.length (row cells)
      (tokens before.toList ++ (tokens (row cells).toList ++ tokens after.toList)) := by
  have hsplit : List.Forall₂ _ cells
      ((tokens (before ++ (row cells ++ after)).toList).splitOnP (· == .bare '&')) :=
    forall₂_splitOnP_tokens isSeparator_cell (fun cell hcell => (hcells cell hcell).whole)
      (fun cell hcell => (hcells cell hcell).inCell) hne hbefore hafter
  have htokens : tokens (before ++ (row cells ++ after)).toList =
      tokens before.toList ++ (tokens (row cells).toList ++ tokens after.toList) := by
    rw [hbefore.whole.tokens_append, (fitsRow_row hcells).whole.tokens_append]
  rw [htokens] at hsplit
  refine ⟨⟨tokens before.toList, tokens after.toList, List.append_assoc _ _ _⟩, ?_, ?_⟩
  · rw [hsplit.length_eq, length_splitOnP]
    rfl
  · have hsound : List.Forall₂ (fun _ ts => IsSound ts) cells _ :=
      ((List.forall₂_and_left _ _).mpr ⟨hcells, hsplit⟩).imp fun cell ts h => by
        obtain ⟨hcell, before, after, hbefore, hafter, rfl⟩ := h
        exact hbefore.sound.append (hcell.sound.append hafter.sound)
    exact forall_mem_of_forall₂ hsound

theorem IsRowText.fitsRow {text : String} (h : IsRowText columns text) : FitsRow text := by
  obtain ⟨cells, -, hcells, rfl⟩ := h
  exact fitsRow_row hcells

theorem IsRowText.isRowOf {text : String} (h : IsRowText columns text) (hcolumns : columns ≠ 0)
    (hbefore : FitsCell before) (hafter : FitsCell after) :
    IsRowOf columns text
      (tokens before.toList ++ (tokens text.toList ++ tokens after.toList)) := by
  obtain ⟨cells, rfl, hcells, rfl⟩ := h
  have hne : cells ≠ [] := by
    rintro rfl
    exact hcolumns rfl
  exact isRowOf_row hcells hne hbefore hafter

theorem isRowText_singleton (h : FitsCell before) : IsRowText 1 before :=
  ⟨[before], rfl, List.forall_mem_singleton.mpr h, String.intercalate_singleton⟩

/-- The first row of a table has something before it. -/
theorem IsRowText.isRowOf_append {text : String} (h : IsRowText columns text)
    (hcolumns : columns ≠ 0) (hbefore : FitsCell before) :
    IsRowOf columns text (tokens (before ++ text).toList) := by
  have hrow := h.isRowOf hcolumns hbefore .empty
  rwa [← h.fitsRow.whole.tokens_append, ← hbefore.whole.tokens_append, String.append_empty] at hrow

/-! ## Tables -/

/-- The rows that LaTeX finds in a text. -/
def texRows (s : String) : List (List Token) :=
  (tokens s.toList).splitOnP (· == .escaped '\\')

/-- A text is a table: LaTeX finds a heading in it, then one row for each of some texts, and then
what closes the table without being a row. -/
structure IsTable (columns : Nat) (texts closing : List String) (s : String) : Prop where
  exists_rows : ∃ heading rows,
    texRows s = heading :: (rows ++ closing.map fun t => tokens t.toList) ∧
    (∀ cell ∈ heading.splitOnP (· == .bare '&'), IsSound cell) ∧
    List.Forall₂ (IsRowOf columns) texts rows

theorem texRows_of_fitsRow {s : String} (h : FitsRow s) : texRows s = [tokens s.toList] :=
  splitOnP_eq_singleton_of_notMem h.inRow

/-- Two backslashes divide a table. -/
theorem texRows_append_rowEnd {s : String} (h : IsWhole s) (t : String) :
    texRows (s ++ (rowEnd ++ t)) = texRows s ++ texRows t := by
  have hend : tokens (rowEnd ++ t).toList = .escaped '\\' :: tokens t.toList := by
    have htext : (rowEnd ++ t).toList = '\\' :: '\\' :: t.toList := String.toList_append
    rw [htext, tokens, if_pos rfl]
  rw [texRows, h.tokens_append, hend, List.splitOnP_append_cons _ _ (by decide)]
  rfl

section Rows

variable {texts : List String} (htexts : ∀ text ∈ texts, IsRowText columns text)
  (hcolumns : columns ≠ 0) (hne : texts ≠ [])
include htexts hcolumns hne

/-- **Rows that are put together are found again.** -/
theorem forall₂_texRows_rows (hbefore : FitsCell before) (hafter : FitsCell after) :
    List.Forall₂ (IsRowOf columns) texts (texRows (before ++ (rows texts ++ after))) := by
  have hsplit := forall₂_splitOnP_tokens isSeparator_row
    (fun text htext => (htexts text htext).fitsRow.whole)
    (fun text htext => (htexts text htext).fitsRow.inRow) hne hbefore hafter
  refine ((List.forall₂_and_left _ _).mpr ⟨htexts, hsplit⟩).imp fun text ts h => ?_
  obtain ⟨htext, before, after, hbefore, hafter, rfl⟩ := h
  exact htext.isRowOf hcolumns hbefore hafter

/-- **A table whose last row is not ended** is a heading and rows, if what stands around the rows
fits in cells. -/
theorem isTable_array {heading : String} {width : Nat} (hheading : IsRowText width heading)
    (hwidth : width ≠ 0) (hbefore : FitsCell before) (hafter : FitsCell after) :
    IsTable columns texts [] (heading ++ (rowEnd ++ (before ++ (rows texts ++ after)))) where
  exists_rows := by
    have hcells := (hheading.isRowOf_append hwidth .empty).cells
    rw [String.empty_append] at hcells
    refine ⟨_, _, ?_, hcells, forall₂_texRows_rows htexts hcolumns hne hbefore hafter⟩
    rw [texRows_append_rowEnd hheading.fitsRow.whole, texRows_of_fitsRow hheading.fitsRow,
      List.map_nil, List.append_nil]
    rfl

/-- **A table whose last row is ended** is a heading, rows, and what comes after them. -/
theorem isTable_tabular {spec headings : String} (hspec : FitsCell spec) {width : Nat}
    (hheadings : IsRowText width headings) (hwidth : width ≠ 0) :
    IsTable columns texts ["\n" ++ command "end" "tabular"] (tabular spec headings texts) where
  exists_rows := by
    have hbegin : FitsCell (command "begin" "tabular" ++ braced spec ++ "\n") := by
      have hcommand : FitsCell (command "begin" "tabular") := by decide
      exact (hcommand.append hspec.braced).append (by decide)
    have hheading := hbegin.toFitsRow.append hheadings.fitsRow
    have hend : FitsRow ("\n" ++ command "end" "tabular") := by decide
    have hline : FitsCell "\\hline\n" := by decide
    have hrows : IsWhole (rows texts) :=
      .intercalate (by decide) fun text htext => (htexts text htext).fitsRow.whole
    have hbody : IsWhole ("\\hline\n" ++ (rows texts ++ "")) :=
      hline.whole.append (hrows.append (by decide))
    have htable : tabular spec headings texts =
        (command "begin" "tabular" ++ braced spec ++ "\n" ++ headings) ++ (rowEnd ++
          (("\\hline\n" ++ (rows texts ++ "")) ++
            (rowEnd ++ ("\n" ++ command "end" "tabular")))) := by
      simp only [tabular, String.append_assoc, String.append_empty]
    refine ⟨tokens (command "begin" "tabular" ++ braced spec ++ "\n" ++ headings).toList, _, ?_,
      (hheadings.isRowOf_append hwidth hbegin).cells,
      forall₂_texRows_rows htexts hcolumns hne hline .empty⟩
    rw [htable, texRows_append_rowEnd hheading.whole, texRows_append_rowEnd hbody,
      texRows_of_fitsRow hheading, texRows_of_fitsRow hend]
    rfl

end Rows

end TopDown.Text.Tex
