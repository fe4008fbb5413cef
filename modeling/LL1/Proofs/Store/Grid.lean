/-
# Where cells are shown

The cells of a table belong to a stored grammar if their rows are declared, their columns are in the
alphabet and their rules are rules of the row. Then the grid of the table shows every cell once and
nothing else, as long as no two cells stand in one place.
-/
import LL1.Proofs.Analysis.Table
import LL1.Store.Basic
import Mathlib.Logic.ExistsUnique

namespace LL1

/-! ## Cells of a stored grammar -/

/-- Whether a cell belongs to a stored grammar: its row is declared, its column is in the alphabet, and
its rule is one of the row. -/
structure Cell.StandsIn (c : Cell) (s : Store) : Prop where
  /-- The row is declared. -/
  row : c.nonTerminal ∈ s.nonTerminals
  /-- The column is in the alphabet. -/
  column : c.terminal ∈ s.terminals
  /-- The rule belongs to the row. -/
  head : c.id.head = c.nonTerminal
  /-- There is such a rule. -/
  index : ∃ h, s.heads.get? c.nonTerminal = some h ∧ c.id.index < h.alternatives.length

/-- The rule of a cell that belongs to a stored grammar is found. -/
theorem Cell.StandsIn.exists_body? {s : Store} {c : Cell} (hc : c.StandsIn s) :
    ∃ body, s.body? c.id = some body := by
  obtain ⟨h, hget, hindex⟩ := hc.index
  rw [Store.body?, hc.head, hget]
  exact ⟨_, List.getElem?_eq_getElem hindex⟩

namespace Store

variable {s : Store} {t : Table} {c : Cell} {a b : Symbol} {i j : Nat} {text : List Char}

/-! ## Texts of a grid -/

/-- The text at a row and a column of the grid. -/
def gridText? (s : Store) (t : Table) (i j : Nat) : Option (List Char) :=
  (s.grid t)[i]?.bind fun row => row[j]?

/-- Whether the grid shows a cell, by its rule, in the given row and column behind the labels. -/
structure Shows (s : Store) (t : Table) (c : Cell) (i j : Nat) : Prop where
  /-- The row is labelled with the non-terminal. -/
  row : s.gridText? t (i + 1) 0 = some [c.nonTerminal]
  /-- The column is labelled with the terminal. -/
  column : s.gridText? t 0 (j + 1) = some [c.terminal]
  /-- There is the rule. -/
  rule : ∃ body, s.body? c.id = some body ∧
    s.gridText? t (i + 1) (j + 1) = some (Rule.mk c.nonTerminal body).text

/-- Rows are labelled with the non-terminals. -/
theorem gridText?_row : s.gridText? t (i + 1) 0 = some [a] ↔ s.nonTerminals[i]? = some a := by
  unfold gridText? grid
  rw [List.getElem?_cons_succ, List.getElem?_map]
  cases s.nonTerminals[i]? <;> simp

/-- Columns are labelled with the terminals. -/
theorem gridText?_column :
    s.gridText? t 0 (j + 1) = some [b] ↔ s.terminals.toList[j]? = some b := by
  unfold gridText? grid
  rw [List.getElem?_cons_zero, Option.bind_some, List.getElem?_cons_succ, List.getElem?_map]
  cases s.terminals.toList[j]? <;> simp

/-- Behind the labels there are the rules of the cells. -/
theorem gridText?_entry (ha : s.nonTerminals[i]? = some a) (hb : s.terminals.toList[j]? = some b) :
    s.gridText? t (i + 1) (j + 1) = some ((s.entryText t a b).getD []) := by
  unfold gridText? grid
  rw [List.getElem?_cons_succ, List.getElem?_map, ha, Option.map_some, Option.bind_some,
    List.getElem?_cons_succ, List.getElem?_map, hb, Option.map_some]

/-- Every text behind the labels stands in the row of a non-terminal and the column of a terminal. -/
theorem exists_of_gridText? (h : s.gridText? t (i + 1) (j + 1) = some text) :
    ∃ a b, s.nonTerminals[i]? = some a ∧ s.terminals.toList[j]? = some b := by
  unfold gridText? grid at h
  rw [List.getElem?_cons_succ, List.getElem?_map] at h
  cases ha : s.nonTerminals[i]? with
  | none =>
    rw [ha] at h
    cases h
  | some a =>
    rw [ha, Option.map_some, Option.bind_some, List.getElem?_cons_succ, List.getElem?_map] at h
    cases hb : s.terminals.toList[j]? with
    | none =>
      rw [hb] at h
      cases h
    | some b => exact ⟨a, b, rfl, rfl⟩

/-- Where there is text a rule is found. -/
theorem exists_body?_of_entryText (h : (s.entryText t a b).getD [] ≠ []) :
    ∃ id body, t.find? a b = some id ∧ s.body? id = some body ∧
      s.entryText t a b = some (Rule.mk a body).text := by
  unfold entryText at h ⊢
  cases hfind : t.find? a b with
  | none =>
    rw [hfind] at h
    exact absurd rfl h
  | some id =>
    rw [hfind] at h
    dsimp only at h ⊢
    cases hbody : s.body? id with
    | none =>
      rw [hbody] at h
      exact absurd rfl h
    | some body => exact ⟨id, body, rfl, hbody, rfl⟩

/-! ## One cell in one place -/

/-- A cell of a table is shown exactly once, if places are apart and the cell belongs to the grammar. -/
theorem existsUnique_shows (hs : s.nonTerminals.Nodup) (ht : t.Distinct) (hc : c ∈ t.cells)
    (hstands : c.StandsIn s) : ∃! p : Nat × Nat, s.Shows t c p.1 p.2 := by
  obtain ⟨i, hi⟩ := List.getElem?_of_mem hstands.row
  obtain ⟨j, hj⟩ := List.getElem?_of_mem (SymbolSet.mem_iff.1 hstands.column)
  obtain ⟨body, hbody⟩ := hstands.exists_body?
  refine ⟨(i, j), ⟨gridText?_row.2 hi, gridText?_column.2 hj, body, hbody, ?_⟩, ?_⟩
  · rw [gridText?_entry hi hj, entryText, ht.find?_of_mem hc]
    simp only [hbody, Option.map_some, Option.getD_some]
  · rintro ⟨i', j'⟩ ⟨hrow, hcolumn, -⟩
    rw [gridText?_row] at hrow
    rw [gridText?_column] at hcolumn
    have hrows := (List.getElem?_inj (List.getElem?_eq_some_iff.1 hrow).1 hs).1 (hrow.trans hi.symm)
    have hcolumns := (List.getElem?_inj (List.getElem?_eq_some_iff.1 hcolumn).1
      s.terminals.nodup).1 (hcolumn.trans hj.symm)
    exact Prod.ext hrows hcolumns

/-- Whatever is written behind the labels shows exactly one cell, if places are apart. -/
theorem existsUnique_cell (ht : t.Distinct) (h : s.gridText? t (i + 1) (j + 1) = some text)
    (hne : text ≠ []) : ∃! c : Cell, c ∈ t.cells ∧ s.Shows t c i j := by
  obtain ⟨a, b, ha, hb⟩ := exists_of_gridText? h
  have hentry := gridText?_entry (t := t) ha hb
  obtain rfl := Option.some.inj (h.symm.trans hentry)
  obtain ⟨id, body, hfind, hbody, htext⟩ := exists_body?_of_entryText hne
  refine ⟨⟨a, b, id⟩, ⟨Table.mem_cells_of_find? hfind, gridText?_row.2 ha, gridText?_column.2 hb, body,
    hbody, ?_⟩, ?_⟩
  · rw [hentry, htext, Option.getD_some]
  · -- another cell that is shown here would stand in the same place
    rintro ⟨a', b', id'⟩ ⟨hmem, hrow, hcolumn, -⟩
    obtain rfl := Option.some.inj ((gridText?_row.1 hrow).symm.trans ha)
    obtain rfl := Option.some.inj ((gridText?_column.1 hcolumn).symm.trans hb)
    obtain rfl := Option.some.inj ((ht.find?_of_mem hmem).symm.trans hfind)
    rfl

end Store

end LL1
