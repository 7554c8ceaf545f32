/-!
# Plain tables

A table of texts is set in columns: every cell is padded on the left with spaces to the width of
its column, which is the length of its longest cell in characters, and neighbours are separated
by a bar between two spaces. Rows stand on lines of their own.

The width of a column is a number of sixteen bits. A table that needs a wider column is not set at
all.

## Main definitions

* `widths`: the widths of the columns of a table
* `alignColumns?`: the table as one text, if its columns are not too wide
-/

namespace TopDown.Text

/-- The width of a column is below this bound: it has sixteen bits. -/
def widthBound : Nat := UInt16.size

/-- A text with spaces in front, so that it has at least `width` characters. -/
def padLeft (width : Nat) (s : String) : String :=
  String.ofList (s.toList.leftpad width ' ')

/-- A padded text is as wide as it has to be. -/
theorem length_padLeft (width : Nat) (s : String) :
    (padLeft width s).length = max width s.length := by
  rw [padLeft, String.length_ofList, List.length_leftpad, String.length_toList]

/-- Column widths that have room for one more row. -/
def widen : List String → List Nat → List Nat
  | [], ws => ws
  | s :: row, [] => s.length :: widen row []
  | s :: row, w :: ws => max s.length w :: widen row ws

/-- The widths of the columns: the length of the longest cell of each. -/
def widths (rows : List (List String)) : List Nat :=
  rows.foldr widen []

/-- One line: the cells of a row, padded and separated by bars. -/
def alignRow (ws : List Nat) (row : List String) : String :=
  " | ".intercalate (List.zipWith padLeft ws row)

/-- A table as one text, a line for each row, if no column is too wide. -/
def alignColumns? (rows : List (List String)) : Option String :=
  let ws := widths rows
  if ws.all (· < widthBound) then some ("\n".intercalate (rows.map (alignRow ws))) else none

end TopDown.Text
