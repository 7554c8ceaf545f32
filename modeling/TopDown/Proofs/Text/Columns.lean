import Mathlib.Data.List.Forall2
import Mathlib.Order.Bounds.Defs
import TopDown.Proofs.Text.Words
import TopDown.Text.Columns

/-!
# Columns of plain tables

A plain table shows its cells at places that can be computed from the widths of the columns. Where
the cells hold no line ends, the text falls into one line for each row, all lines are of the same
length, and every column begins at the same place in all of them. In its column a cell has nothing
before it but spaces, a bar stands between two columns, and a column is as wide as its longest cell.
None of this depends on what else the cells hold: a bar or a space in a cell moves nothing.

A table is missing if and only if one of its cells is as long as the bound on the widths, or longer.

## Main definitions

* `IsOneLine`: texts without line ends
* `IsGrid`: rows of the same number of cells without line ends
* `columnStart`, `IsLineOf`: where the cells of a row stand on its line
* `IsAligned`: a text that is a table with lines for rows and exact columns
* `SetInColumns`: rows that are set as an aligned table, unless a cell is too long

## Main results

* `isGreatest_widths`: the width of a column is the length of its longest cell
* `exists_append_intercalate`: where a piece stands in a text made of pieces
* `isLineOf_alignRow`: the line of a row
* `setInColumns_alignColumns?`: the table of a grid
-/

namespace TopDown.Text

variable {s t : String} {row : List String} {rows : List (List String)} {ws : List Nat}
  {cell : String} {w j columns : Nat}

/-! ## Texts on one line -/

/-- A text without line ends. -/
def IsOneLine (s : String) : Prop :=
  '\n' ∉ s.toList

instance : DecidablePred IsOneLine := fun s =>
  inferInstanceAs (Decidable ('\n' ∉ s.toList))

theorem IsWord.isOneLine (h : IsWord s) : IsOneLine s := by
  intro hmem
  have hblank := h.isBlank_eq_false _ hmem
  revert hblank
  decide

namespace IsOneLine

theorem append (h : IsOneLine s) (h' : IsOneLine t) : IsOneLine (s ++ t) := by
  rw [IsOneLine, String.toList_append, List.mem_append, not_or]
  exact ⟨h, h'⟩

/-- A text between two others. -/
theorem between {before after : String} (hbefore : IsOneLine before) (h : IsOneLine s)
    (hafter : IsOneLine after) : IsOneLine (before ++ s ++ after) :=
  (hbefore.append h).append hafter

theorem intercalate {sep : String} (hsep : IsOneLine sep) {parts : List String}
    (hparts : ∀ part ∈ parts, IsOneLine part) : IsOneLine (sep.intercalate parts) :=
  intercalate_induction (by decide) append hsep hparts

end IsOneLine

theorem isOneLine_repr (n : Nat) : IsOneLine n.repr := by
  intro hmem
  rw [Nat.toList_repr] at hmem
  have hdigit := Nat.isDigit_of_mem_toDigits (by decide) (by decide) hmem
  revert hdigit
  decide

/-- Rows that are to be set in columns: there is a row, all rows have the same number of cells, of
which there is one, and no cell has a line end in it. -/
structure IsGrid (columns : Nat) (rows : List (List String)) : Prop where
  ne_nil : rows ≠ []
  columns_ne_zero : columns ≠ 0
  length_eq : ∀ row ∈ rows, row.length = columns
  isOneLine : ∀ row ∈ rows, ∀ cell ∈ row, IsOneLine cell

/-- Rows below a heading. -/
theorem isGrid_cons {ι : Type} (heading : List String) {items : List ι} {cells : ι → List String}
    (hne : heading ≠ []) (hheading : ∀ cell ∈ heading, IsOneLine cell)
    (hitems : ∀ i ∈ items, (cells i).length = heading.length ∧
      ∀ cell ∈ cells i, IsOneLine cell) :
    IsGrid heading.length (heading :: items.map cells) where
  ne_nil := List.cons_ne_nil _ _
  columns_ne_zero := mt List.length_eq_zero_iff.mp hne
  length_eq := List.forall_mem_cons.mpr
    ⟨rfl, List.forall_mem_map.mpr fun i hi => (hitems i hi).1⟩
  isOneLine := List.forall_mem_cons.mpr
    ⟨hheading, List.forall_mem_map.mpr fun i hi => (hitems i hi).2⟩

/-! ## Widths -/

/-- Where a row and the columns so far both have a cell, the longer one counts. -/
theorem getElem?_widen (row : List String) (ws : List Nat) (j : Nat) :
    (widen row ws)[j]? = max (row[j]?.map String.length) ws[j]? := by
  fun_induction widen row ws generalizing j with
  | case1 ws => simp
  | case2 s row ih =>
    cases j with
    | zero => simp
    | succ j => simpa using ih j
  | case3 s row w ws ih =>
    cases j with
    | zero => simp
    | succ j => simpa using ih j

theorem length_widen (row : List String) (ws : List Nat) :
    (widen row ws).length = max row.length ws.length := by
  fun_induction widen row ws with
  | case1 ws => simp
  | case2 s row ih => simp [ih]
  | case3 s row w ws ih => simp [ih]

/-- A column has room for each of its cells. -/
theorem exists_le_widths (hrow : row ∈ rows) (hcell : row[j]? = some cell) :
    ∃ w, (widths rows)[j]? = some w ∧ cell.length ≤ w := by
  induction rows with
  | nil => cases hrow
  | cons first rows ih =>
    rw [widths, List.foldr_cons, ← widths, getElem?_widen]
    rcases List.mem_cons.mp hrow with rfl | hrow
    · rw [hcell, Option.map_some]
      cases (widths rows)[j]? with
      | none => exact ⟨_, rfl, Nat.le_refl _⟩
      | some w => exact ⟨_, rfl, Nat.le_max_left _ _⟩
    · obtain ⟨w, hw, hle⟩ := ih hrow
      rw [hw]
      cases first[j]? with
      | none => exact ⟨w, rfl, hle⟩
      | some cell' => exact ⟨_, rfl, hle.trans (Nat.le_max_right _ _)⟩

/-- A column is no wider than one of its cells. -/
theorem exists_length_eq_of_widths (h : (widths rows)[j]? = some w) :
    ∃ row ∈ rows, ∃ cell, row[j]? = some cell ∧ cell.length = w := by
  induction rows generalizing w with
  | nil => cases h
  | cons first rows ih =>
    rw [widths, List.foldr_cons, ← widths, getElem?_widen] at h
    have hrest : ∀ {w}, (widths rows)[j]? = some w →
        ∃ row ∈ first :: rows, ∃ cell, row[j]? = some cell ∧ cell.length = w := by
      intro w hw
      obtain ⟨row, hrow, hcell⟩ := ih hw
      exact ⟨row, List.mem_cons_of_mem _ hrow, hcell⟩
    cases hfirst : first[j]? with
    | none =>
      rw [hfirst, Option.map_none, Option.max_none_left] at h
      exact hrest h
    | some cell =>
      have hhere : ∃ row ∈ first :: rows, ∃ cell', row[j]? = some cell' ∧
          cell'.length = cell.length := ⟨first, List.mem_cons_self, cell, hfirst, rfl⟩
      rw [hfirst, Option.map_some] at h
      cases hw : (widths rows)[j]? with
      | none =>
        rw [hw, Option.max_none_right] at h
        cases h
        exact hhere
      | some w' =>
        rw [hw, Option.max_some_some] at h
        cases h
        rcases Nat.le_total cell.length w' with hle | hle
        · rw [Nat.max_eq_right hle]
          exact hrest hw
        · rw [Nat.max_eq_left hle]
          exact hhere

/-- The lengths of the cells in a column. -/
def cellLengths (rows : List (List String)) (j : Nat) : Set Nat :=
  {n | ∃ row ∈ rows, ∃ cell, row[j]? = some cell ∧ cell.length = n}

/-- **The width of a column is the length of its longest cell.** -/
theorem isGreatest_widths (h : (widths rows)[j]? = some w) : IsGreatest (cellLengths rows j) w := by
  refine ⟨exists_length_eq_of_widths h, ?_⟩
  rintro n ⟨row, hrow, cell, hcell, rfl⟩
  obtain ⟨w', hw', hle⟩ := exists_le_widths hrow hcell
  rw [h, Option.some.injEq] at hw'
  exact hw' ▸ hle

/-- There are as many columns as each row has cells. -/
theorem length_widths (hne : rows ≠ []) (hrows : ∀ row ∈ rows, row.length = columns) :
    (widths rows).length = columns := by
  -- The bound holds without rows too, so that it carries the induction.
  have hle : (widths rows).length ≤ columns := by
    clear hne
    induction rows with
    | nil => exact Nat.zero_le _
    | cons row rows ih =>
      obtain ⟨hrow, hrows⟩ := List.forall_mem_cons.mp hrows
      rw [widths, List.foldr_cons, ← widths, length_widen]
      exact Nat.max_le.mpr ⟨hrow.le, ih hrows⟩
  obtain ⟨row, rows, rfl⟩ := List.exists_cons_of_ne_nil hne
  have hrow := hrows row List.mem_cons_self
  rw [widths, List.foldr_cons, ← widths, length_widen] at hle ⊢
  omega

/-- **A table is missing if a cell is too long**, and only then. -/
theorem alignColumns?_eq_none_iff :
    alignColumns? rows = none ↔ ∃ row ∈ rows, ∃ cell ∈ row, widthBound ≤ cell.length := by
  have hnone : alignColumns? rows = none ↔ ∃ w ∈ widths rows, widthBound ≤ w := by
    simp [alignColumns?]
  rw [hnone]
  constructor
  · rintro ⟨w, hw, hle⟩
    obtain ⟨j, hj⟩ := List.mem_iff_getElem?.mp hw
    obtain ⟨row, hrow, cell, hcell, rfl⟩ := exists_length_eq_of_widths hj
    exact ⟨row, hrow, cell, List.mem_of_getElem? hcell, hle⟩
  · rintro ⟨row, hrow, cell, hcell, hle⟩
    obtain ⟨j, hj⟩ := List.mem_iff_getElem?.mp hcell
    obtain ⟨w, hw, hle'⟩ := exists_le_widths hrow hj
    exact ⟨w, List.mem_of_getElem? hw, hle.trans hle'⟩

theorem eq_of_alignColumns?_eq_some {table : String} (h : alignColumns? rows = some table) :
    table = "\n".intercalate (rows.map (alignRow (widths rows))) := by
  rw [alignColumns?] at h
  split at h
  · exact (Option.some.inj h).symm
  · cases h

/-! ## Places on a line -/

/-- What stands between two columns. -/
def bar : String := " | "

/-- Where a column begins: behind the columns before it, each of which has a bar behind it. -/
def columnStart : List Nat → Nat → Nat
  | w :: ws, j + 1 => w + bar.length + columnStart ws j
  | _, _ => 0

@[simp] theorem columnStart_zero (ws : List Nat) : columnStart ws 0 = 0 := by
  cases ws <;> rfl

@[simp] theorem columnStart_cons_succ (w : Nat) (ws : List Nat) (j : Nat) :
    columnStart (w :: ws) (j + 1) = w + bar.length + columnStart ws j := rfl

/-- What stands at a place of a line. -/
def stretch (line : List Char) (start width : Nat) : List Char :=
  (line.drop start).take width

theorem stretch_append {before middle after : List Char} {start width : Nat}
    (hstart : before.length = start) (hwidth : middle.length = width) :
    stretch (before ++ (middle ++ after)) start width = middle := by
  rw [stretch, ← hstart, List.drop_left, List.take_left' hwidth]

/-- **Where a piece stands** in a text that is made of pieces with bars between them: the widths of
the pieces say how much is before it, and what is behind it begins with a bar unless it is the
last. -/
theorem exists_append_intercalate {pieces : List String} {piece : String}
    (h : pieces[j]? = some piece) : ∃ before after : List Char,
      (bar.intercalate pieces).toList = before ++ (piece.toList ++ after) ∧
      before.length = columnStart (pieces.map String.length) j ∧
      (j + 1 < pieces.length → bar.toList <+: after) := by
  induction pieces generalizing j with
  | nil => cases h
  | cons first pieces ih =>
    cases j with
    | zero =>
      cases h
      cases pieces with
      | nil => exact ⟨[], [], by simp, rfl, fun hlt => absurd hlt (Nat.lt_irrefl _)⟩
      | cons next pieces =>
        refine ⟨[], bar.toList ++ (bar.intercalate (next :: pieces)).toList, ?_, rfl,
          fun _ => List.prefix_append _ _⟩
        simp only [String.intercalate_cons_cons, String.toList_append, List.append_assoc,
          List.nil_append]
    | succ j =>
      rw [List.getElem?_cons_succ] at h
      obtain ⟨before, after, heq, hlength, hbar⟩ := ih h
      cases pieces with
      | nil => cases h
      | cons next pieces =>
        refine ⟨first.toList ++ (bar.toList ++ before), after, ?_, ?_, fun hlt => ?_⟩
        · rw [String.intercalate_cons_cons, String.toList_append, String.toList_append, heq]
          simp only [List.append_assoc]
        · rw [List.map_cons, columnStart_cons_succ, ← hlength]
          simp only [List.length_append, String.length_toList]
          omega
        · exact hbar (Nat.lt_of_succ_lt_succ hlt)

/-- With a bar behind it, a text that is made of pieces would end where one more piece begins. -/
theorem length_intercalate {pieces : List String} (hne : pieces ≠ []) :
    (bar.intercalate pieces).toList.length + bar.length =
      columnStart (pieces.map String.length) pieces.length := by
  induction pieces with
  | nil => exact absurd rfl hne
  | cons first pieces ih =>
    cases pieces with
    | nil => simp [String.length_toList]
    | cons next pieces =>
      rw [String.intercalate_cons_cons, List.map_cons, List.length_cons, columnStart_cons_succ,
        ← ih (List.cons_ne_nil _ _)]
      simp only [String.toList_append, List.length_append, String.length_toList]
      omega

/-- The line that shows a row: all columns are where their widths say, and every cell stands at the
right end of its column. -/
structure IsLineOf (ws : List Nat) (row : List String) (line : List Char) : Prop where
  /-- With a bar behind it, the line would end where one more column begins. -/
  length_eq : line.length + bar.length = columnStart ws ws.length
  /-- There is nothing but spaces before a cell in its column. -/
  column_eq : ∀ {j w : Nat} {cell : String}, ws[j]? = some w → row[j]? = some cell →
    stretch line (columnStart ws j) w = List.replicate (w - cell.length) ' ' ++ cell.toList
  /-- Behind every column but the last is a bar. -/
  bar_eq : ∀ {j w : Nat}, ws[j]? = some w → j + 1 < ws.length →
    stretch line (columnStart ws j + w) bar.length = bar.toList

theorem toList_padLeft (w : Nat) (s : String) :
    (padLeft w s).toList = List.replicate (w - s.length) ' ' ++ s.toList := by
  simp [padLeft, List.leftpad, String.length_toList]

/-- Cells that fit are as wide as their columns when they are padded. -/
theorem map_length_zipWith_padLeft (hlength : row.length = ws.length)
    (hfits : ∀ {j w : Nat} {cell : String}, ws[j]? = some w → row[j]? = some cell →
      cell.length ≤ w) :
    (List.zipWith padLeft ws row).map String.length = ws := by
  refine List.ext_getElem (by simp [hlength]) fun j _ hj => ?_
  have hj' : j < row.length := hlength ▸ hj
  rw [List.getElem_map, List.getElem_zipWith, length_padLeft]
  exact Nat.max_eq_left (hfits (List.getElem?_eq_getElem hj) (List.getElem?_eq_getElem hj'))

/-- **The line of a row** whose cells fit in the columns. -/
theorem isLineOf_alignRow (hlength : row.length = ws.length) (hne : ws ≠ [])
    (hfits : ∀ {j w : Nat} {cell : String}, ws[j]? = some w → row[j]? = some cell →
      cell.length ≤ w) :
    IsLineOf ws row (alignRow ws row).toList := by
  have hwidths := map_length_zipWith_padLeft hlength hfits
  have hcolumns : (List.zipWith padLeft ws row).length = ws.length := by
    rw [← List.length_map, hwidths]
  have hpieces : List.zipWith padLeft ws row ≠ [] := by
    rw [← List.length_pos_iff, hcolumns]
    exact List.length_pos_iff.mpr hne
  have hplace : ∀ {j w : Nat} {cell : String}, ws[j]? = some w → row[j]? = some cell →
      ∃ before after : List Char,
        (alignRow ws row).toList = before ++ ((padLeft w cell).toList ++ after) ∧
        before.length = columnStart ws j ∧ (padLeft w cell).toList.length = w ∧
        (j + 1 < ws.length → bar.toList <+: after) := by
    intro j w cell hw hcell
    have hpiece : (List.zipWith padLeft ws row)[j]? = some (padLeft w cell) := by
      rw [List.getElem?_zipWith, hw, hcell]
    obtain ⟨before, after, heq, hbefore, hbar⟩ := exists_append_intercalate hpiece
    rw [hwidths] at hbefore
    rw [hcolumns] at hbar
    refine ⟨before, after, heq, hbefore, ?_, hbar⟩
    rw [String.length_toList, length_padLeft, Nat.max_eq_left (hfits hw hcell)]
  constructor
  · have hlength' := length_intercalate hpieces
    rwa [hwidths, hcolumns] at hlength'
  · intro j w cell hw hcell
    obtain ⟨before, after, heq, hbefore, hmiddle, -⟩ := hplace hw hcell
    rw [heq, stretch_append hbefore hmiddle, toList_padLeft]
  · intro j w hw hlt
    have hcell : row[j]? = some row[j] :=
      List.getElem?_eq_getElem (hlength ▸ Nat.lt_of_succ_lt hlt)
    obtain ⟨before, after, heq, hbefore, hmiddle, hbar⟩ := hplace hw hcell
    obtain ⟨rest, rfl⟩ := hbar hlt
    rw [heq, ← List.append_assoc]
    refine stretch_append ?_ (String.length_toList ..)
    rw [List.length_append, hbefore, hmiddle]

/-! ## Tables -/

/-- The widths of the columns of rows: there is one for each cell of a row, and it is the length of
the longest cell in its column. -/
structure AreWidths (rows : List (List String)) (ws : List Nat) : Prop where
  length_eq : ∀ row ∈ rows, row.length = ws.length
  isGreatest : ∀ {j w : Nat}, ws[j]? = some w → IsGreatest (cellLengths rows j) w

/-- A text that shows rows in columns: it falls into one line for each of them, in order, and all
lines have the same columns, each of which is as wide as its longest cell. -/
def IsAligned (rows : List (List String)) (table : String) : Prop :=
  ∃ ws, AreWidths rows ws ∧
    List.Forall₂ (IsLineOf ws) rows (table.toList.splitOnP (· == '\n'))

/-- Rows that are set as an aligned table, unless one of their cells is too long. -/
structure SetInColumns (rows : List (List String)) (table? : Option String) : Prop where
  eq_none_iff : table? = none ↔ ∃ row ∈ rows, ∃ cell ∈ row, widthBound ≤ cell.length
  isAligned : ∀ table, table? = some table → IsAligned rows table

theorem areWidths_widths (h : IsGrid columns rows) : AreWidths rows (widths rows) where
  length_eq := fun row hrow =>
    (h.length_eq row hrow).trans (length_widths h.ne_nil h.length_eq).symm
  isGreatest := isGreatest_widths

/-- Cells without line ends are set on one line. -/
theorem isOneLine_alignRow (ws : List Nat) (h : ∀ cell ∈ row, IsOneLine cell) :
    IsOneLine (alignRow ws row) := by
  refine IsOneLine.intercalate (by decide) fun piece hpiece => ?_
  obtain ⟨j, hj, rfl⟩ := List.mem_iff_getElem.mp hpiece
  rw [List.length_zipWith] at hj
  have hcell : IsOneLine row[j] := h _ (List.getElem_mem _)
  rw [List.getElem_zipWith, IsOneLine, toList_padLeft, List.mem_append, not_or]
  exact ⟨fun hmem => absurd (List.eq_of_mem_replicate hmem) (by decide), hcell⟩

/-- **A grid is set as an aligned table**, unless one of its cells is too long. -/
theorem setInColumns_alignColumns? (h : IsGrid columns rows) :
    SetInColumns rows (alignColumns? rows) where
  eq_none_iff := alignColumns?_eq_none_iff
  isAligned := by
    intro table htable
    have hwidths := areWidths_widths h
    have hne : widths rows ≠ [] := by
      rw [← List.length_pos_iff, length_widths h.ne_nil h.length_eq]
      exact Nat.pos_of_ne_zero h.columns_ne_zero
    have hlines : table.toList.splitOnP (· == '\n') =
        rows.map fun row => (alignRow (widths rows) row).toList := by
      rw [eq_of_alignColumns?_eq_some htable, String.toList_intercalate, List.map_map]
      refine List.splitOn_intercalate '\n' (List.forall_mem_map.mpr fun row hrow => ?_) ?_
      · exact isOneLine_alignRow _ (h.isOneLine row hrow)
      · simpa using h.ne_nil
    refine ⟨widths rows, hwidths, ?_⟩
    rw [hlines, List.forall₂_map_right_iff, List.forall₂_same]
    intro row hrow
    refine isLineOf_alignRow (hwidths.length_eq row hrow) hne fun hw hcell => ?_
    exact (hwidths.isGreatest hw).2 ⟨row, hrow, _, hcell, rfl⟩

end TopDown.Text
