/-
# Aligned columns

Tables are printed as lines of cells. Every column is as wide as its widest cell, counted in code
points, the cells of a row are joined by ` | `, and white space at the end of a line is dropped.
Rows may differ in length. A width is a number of 16 bits, and a table with a wider column is not
printed at all.
-/
import LL1.Text.Blank

namespace LL1

/-! ## Widths -/

/-- Raises the widths of the columns to fit one more row. -/
def widen : List Nat → List (List Char) → List Nat
  | widths, [] => widths
  | [], cell :: row => cell.length :: widen [] row
  | width :: widths, cell :: row => max width cell.length :: widen widths row

/-- The width of each column: the length of its longest cell. -/
def columnWidths (rows : List (List (List Char))) : List Nat :=
  rows.foldl widen []

/-- The greatest width that a column can have. -/
def maxWidth : Nat := 65535

/-! ## Lines -/

/-- The cell with blanks behind it, up to the given width. -/
def filledCell (cell : List Char) (width : Nat) : List Char :=
  cell ++ List.replicate (width - cell.length) ' '

/-- The cell, filled up with blanks to the given width. It cannot be filled up to a width that a
column cannot have. -/
def padCell (cell : List Char) (width : Nat) : Option (List Char) :=
  if width ≤ maxWidth then some (filledCell cell width) else none

/-- What stands between two cells of a row. -/
def columnSeparator : List Char := [' ', '|', ' ']

/-- The line of a row under the given column widths. -/
def renderRow (widths : List Nat) (row : List (List Char)) : Option (List Char) := do
  let cells ← (row.zip widths).mapM fun (cell, width) => padCell cell width
  return trimEnd (columnSeparator.intercalate cells)

/-- The table as text, one line per row, without a line break at the end. There is no text if a column
is too wide. -/
def renderRows (rows : List (List (List Char))) : Option (List Char) := do
  let lines ← rows.mapM (renderRow (columnWidths rows))
  return ['\n'].intercalate lines

/-- Filling up reaches the width and never cuts a cell. -/
theorem length_filledCell (cell : List Char) (width : Nat) :
    (filledCell cell width).length = max cell.length width := by
  simp only [filledCell, List.length_append, List.length_replicate]
  omega

end LL1
