/-
# Tables can be read back

The line of a row is its cells, each filled up to the width of its column, with a bar between any
two of them. A bar is not white space, so all that is dropped from the end of the line is white
space around the last cell. What is left between two bars is a cell with white space around it, and
every bar stands where the widths of the columns put it, whatever the cells of the row are. A table is
printed unless one of its cells is longer than a column can be wide.
-/
import LL1.Text.Columns
import Mathlib.Data.List.Basic
import Mathlib.Data.List.Forall2
import Mathlib.Data.List.TakeWhile

namespace LL1

/-! ## White space around a cell -/

/-- The text without the white space at both of its ends. -/
def trim (text : List Char) : List Char :=
  trimEnd (text.dropWhile isBlank)

/-- What a cell must be so that it can be told from the table around it. -/
structure Legible (cell : List Char) : Prop where
  /-- It holds no bar. -/
  bar : '|' ∉ cell
  /-- It holds no line break. -/
  lineBreak : '\n' ∉ cell
  /-- It does not begin with white space. -/
  first : ∀ c, cell.head? = some c → isBlank c = false
  /-- It does not end with white space. -/
  last : ∀ c, cell.getLast? = some c → isBlank c = false

/-- Whether a text is a cell with nothing but white space around it. -/
def Padded (cell text : List Char) : Prop :=
  ∃ before after, text = before ++ cell ++ after ∧
    (∀ c ∈ before, isBlank c = true) ∧ ∀ c ∈ after, isBlank c = true

variable {cell text : List Char}

/-- Everything is dropped if everything may be. -/
theorem dropTrailing_eq_nil {p : Char → Bool} {l : List Char} (h : ∀ c ∈ l, p c = true) :
    dropTrailing p l = [] := by
  induction l with
  | nil => rfl
  | cons c rest ih =>
    rw [List.forall_mem_cons] at h
    unfold dropTrailing
    rw [ih h.2]
    exact if_pos h.1

/-- Nothing is dropped up to a character that must stay. -/
theorem dropTrailing_append_cons {p : Char → Bool} {c : Char} (hc : p c = false)
    (l rest : List Char) : dropTrailing p (l ++ c :: rest) = l ++ c :: dropTrailing p rest := by
  induction l with
  | nil =>
    show dropTrailing p (c :: rest) = c :: dropTrailing p rest
    rw [dropTrailing]
    cases dropTrailing p rest with
    | nil => simp [hc]
    | cons d more => rfl
  | cons d l ih =>
    show dropTrailing p (d :: (l ++ c :: rest)) = d :: (l ++ c :: dropTrailing p rest)
    rw [dropTrailing, ih]
    cases l <;> rfl

/-- White space behind a cell goes, and what is in front of it stays. -/
theorem Legible.trimEnd_eq (h : Legible cell) (hne : cell ≠ []) {after : List Char}
    (hafter : ∀ c ∈ after, isBlank c = true) (before : List Char) :
    trimEnd (before ++ cell ++ after) = before ++ cell := by
  rcases List.eq_nil_or_concat cell with rfl | ⟨l, c, rfl⟩
  · exact absurd rfl hne
  · have hc : isBlank c = false := h.last c (by simp)
    have hsplit : before ++ l.concat c ++ after = (before ++ l) ++ c :: after := by simp
    rw [hsplit, trimEnd, dropTrailing_append_cons hc, dropTrailing_eq_nil hafter]
    simp

/-- Trimming gives a cell back. -/
theorem Padded.trim_eq (h : Legible cell) (hp : Padded cell text) : trim text = cell := by
  obtain ⟨before, after, rfl, hbefore, hafter⟩ := hp
  rw [trim, List.append_assoc, List.dropWhile_append_of_pos hbefore]
  cases cell with
  | nil =>
    rw [List.nil_append, List.dropWhile_eq_nil_iff.2 hafter]
    rfl
  | cons c rest =>
    have hc : ¬ isBlank c = true := Bool.eq_false_iff.1 (h.first c rfl)
    rw [List.cons_append, List.dropWhile_cons_of_neg hc]
    exact h.trimEnd_eq (List.cons_ne_nil c rest) hafter []

/-- Trimming gives all cells of a row back. -/
theorem map_trim_of_padded {row pieces : List (List Char)} (hcells : ∀ cell ∈ row, Legible cell)
    (h : List.Forall₂ Padded row pieces) : pieces.map trim = row := by
  induction h with
  | nil => rfl
  | cons hp _ ih =>
    rw [List.forall_mem_cons] at hcells
    rw [List.map_cons, hp.trim_eq hcells.1, ih hcells.2]

/-- White space at the end may be dropped. -/
theorem Padded.trimEnd (h : Legible cell) (hp : Padded cell text) : Padded cell (trimEnd text) := by
  obtain ⟨before, after, rfl, hbefore, hafter⟩ := hp
  by_cases hne : cell = []
  · subst hne
    have hblank : ∀ c ∈ before ++ [] ++ after, isBlank c = true := by
      rw [List.append_nil]
      exact List.forall_mem_append.2 ⟨hbefore, hafter⟩
    rw [LL1.trimEnd, dropTrailing_eq_nil hblank]
    exact ⟨[], [], rfl, by simp, by simp⟩
  · rw [h.trimEnd_eq hne hafter]
    exact ⟨before, [], by simp, hbefore, by simp⟩

/-- Filling up a cell only adds white space. -/
theorem padded_filledCell {lead : List Char} (hlead : ∀ c ∈ lead, isBlank c = true)
    (cell : List Char) (width : Nat) : Padded cell (lead ++ filledCell cell width) := by
  refine ⟨lead, List.replicate (width - cell.length) ' ', ?_, hlead, fun c hc => ?_⟩
  · rw [filledCell, List.append_assoc]
  · rw [List.eq_of_mem_replicate hc]
    decide

/-! ## Widths -/

/-- Whether the cells of a row fit into columns of the given widths. -/
inductive Fits : List (List Char) → List Nat → Prop where
  /-- A row without cells fits. -/
  | none (widths : List Nat) : Fits [] widths
  /-- The first cell is no longer than the first column is wide. -/
  | cell {cell : List Char} {row : List (List Char)} {width : Nat} {widths : List Nat}
    (h : cell.length ≤ width) (rest : Fits row widths) : Fits (cell :: row) (width :: widths)

/-- A row fits into the columns that were widened for it. -/
theorem fits_widen (widths : List Nat) (row : List (List Char)) : Fits row (widen widths row) := by
  induction row generalizing widths with
  | nil => exact .none _
  | cons cell row ih =>
    cases widths with
    | nil => exact .cell (Nat.le_refl _) (ih [])
    | cons width widths => exact .cell (Nat.le_max_right _ _) (ih widths)

/-- What fits into columns fits when they are widened. -/
theorem Fits.widen {row : List (List Char)} {widths : List Nat} (h : Fits row widths)
    (other : List (List Char)) : Fits row (widen widths other) := by
  induction h generalizing other with
  | none => exact .none _
  | cell h rest ih =>
    cases other with
    | nil => exact .cell h rest
    | cons cell' other => exact .cell (Nat.le_trans h (Nat.le_max_left _ _)) (ih other)

/-- A row fits when columns it fits into are widened for others, and when it is one of them. -/
theorem fits_foldl_widen {row : List (List Char)} (rows : List (List (List Char)))
    (widths : List Nat) (h : row ∈ rows ∨ Fits row widths) :
    Fits row (rows.foldl LL1.widen widths) := by
  induction rows generalizing widths with
  | nil => exact h.resolve_left List.not_mem_nil
  | cons other rest ih =>
    apply ih
    rcases h with h | h
    · rcases List.mem_cons.1 h with rfl | h
      · exact Or.inr (fits_widen widths row)
      · exact Or.inl h
    · exact Or.inr (h.widen other)

/-- Every row of a table fits into its columns. -/
theorem fits_columnWidths {rows : List (List (List Char))} {row : List (List Char)}
    (hrow : row ∈ rows) : Fits row (columnWidths rows) :=
  fits_foldl_widen rows [] (Or.inl hrow)

/-- Widening for a row keeps widths within a bound that its cells keep. -/
theorem forall_mem_widen {m : Nat} {widths : List Nat} {row : List (List Char)}
    (hwidths : ∀ width ∈ widths, width ≤ m) (hrow : ∀ cell ∈ row, cell.length ≤ m) :
    ∀ width ∈ widen widths row, width ≤ m := by
  induction row generalizing widths with
  | nil => exact hwidths
  | cons cell row ih =>
    rw [List.forall_mem_cons] at hrow
    cases widths with
    | nil => exact List.forall_mem_cons.2 ⟨hrow.1, ih (List.forall_mem_nil _) hrow.2⟩
    | cons width widths =>
      rw [List.forall_mem_cons] at hwidths
      exact List.forall_mem_cons.2 ⟨Nat.max_le.2 ⟨hwidths.1, hrow.1⟩, ih hwidths.2 hrow.2⟩

/-- No column is wider than all cells. -/
theorem forall_mem_columnWidths {m : Nat} {rows : List (List (List Char))}
    (h : ∀ row ∈ rows, ∀ cell ∈ row, cell.length ≤ m) : ∀ width ∈ columnWidths rows, width ≤ m :=
  List.foldlRecOn (motive := fun widths => ∀ width ∈ widths, width ≤ m) rows widen
    (List.forall_mem_nil _) fun _ hwidths row hrow => forall_mem_widen hwidths (h row hrow)

/-! ## Lines -/

/-- The line of a row before its end is trimmed. -/
def rowText (widths : List Nat) (row : List (List Char)) : List Char :=
  columnSeparator.intercalate (row.zipWith filledCell widths)

theorem rowText_singleton (cell : List Char) (width : Nat) (widths : List Nat) :
    rowText (width :: widths) [cell] = filledCell cell width := by
  rw [rowText, List.zipWith_cons_cons, List.zipWith_nil_left, List.intercalate_singleton]

theorem rowText_cons_cons (cell cell' : List Char) (row : List (List Char)) (width width' : Nat)
    (widths : List Nat) :
    rowText (width :: width' :: widths) (cell :: cell' :: row) =
      filledCell cell width ++ ' ' :: '|' :: ' ' :: rowText (width' :: widths) (cell' :: row) := by
  rw [rowText, List.zipWith_cons_cons, List.zipWith_cons_cons, List.intercalate_cons_cons,
    List.append_assoc]
  rfl

/-- After the first of several cells stands a bar, and trimming goes on behind it. -/
theorem trimEnd_rowText_cons_cons (lead cell cell' : List Char) (row : List (List Char))
    (width width' : Nat) (widths : List Nat) :
    trimEnd (lead ++ rowText (width :: width' :: widths) (cell :: cell' :: row)) =
      (lead ++ filledCell cell width ++ [' ']) ++
        '|' :: trimEnd ([' '] ++ rowText (width' :: widths) (cell' :: row)) := by
  have hsplit : lead ++ rowText (width :: width' :: widths) (cell :: cell' :: row) =
      (lead ++ filledCell cell width ++ [' ']) ++
        '|' :: ([' '] ++ rowText (width' :: widths) (cell' :: row)) := by
    rw [rowText_cons_cons]
    simp
  rw [hsplit]
  exact dropTrailing_append_cons (by decide) _ _

variable {row : List (List Char)} {widths : List Nat} {lead : List Char}

/-- A cell with white space around it holds no bar. -/
theorem bar_notMem_filledCell (hcell : '|' ∉ cell) (hlead : ∀ c ∈ lead, isBlank c = true)
    (width : Nat) : '|' ∉ lead ++ filledCell cell width := by
  rw [filledCell, List.mem_append, List.mem_append]
  rintro (h | h | h)
  · exact absurd (hlead _ h) (by decide)
  · exact hcell h
  · exact absurd (List.eq_of_mem_replicate h) (by decide)

/-- Nothing gets into a line when its end is trimmed. -/
theorem mem_of_mem_trimEnd {c : Char} (h : c ∈ trimEnd text) : c ∈ text := by
  obtain ⟨dropped, hdropped, -⟩ := exists_suffix_dropTrailing isBlank text
  rw [hdropped]
  exact List.mem_append_left _ h

theorem bar_notMem_append_blank (h : '|' ∉ text) : '|' ∉ text ++ [' '] := by
  rw [List.mem_append, List.mem_singleton]
  exact fun hmem => hmem.elim h (by decide)

/-- The blank on each side of a bar is white space. -/
theorem isBlank_of_mem_singleton : ∀ c ∈ [' '], isBlank c = true :=
  List.forall_mem_singleton.2 (by decide)

/-- The pieces of a line between its bars are the cells of the row, with white space around them. -/
theorem padded_splitOn_trimEnd (hrow : row ≠ []) (hfits : Fits row widths)
    (hcells : ∀ cell ∈ row, Legible cell) (hlead : ∀ c ∈ lead, isBlank c = true) :
    List.Forall₂ Padded row ((trimEnd (lead ++ rowText widths row)).splitOn '|') := by
  induction hfits generalizing lead with
  | none widths => exact absurd rfl hrow
  | @cell cell row width widths _ rest ih =>
    rw [List.forall_mem_cons] at hcells
    have hbar := bar_notMem_filledCell hcells.1.bar hlead width
    cases rest with
    | none widths =>
      rw [rowText_singleton, List.splitOn_eq_singleton fun h => hbar (mem_of_mem_trimEnd h)]
      exact .cons ((padded_filledCell hlead cell width).trimEnd hcells.1) .nil
    | cell h rest =>
      rw [trimEnd_rowText_cons_cons,
        List.splitOn_append_cons_self_of_not_mem (bar_notMem_append_blank hbar)]
      refine .cons ?_ (ih (List.cons_ne_nil _ _) hcells.2 isBlank_of_mem_singleton)
      obtain ⟨before, after, htext, hbefore, hafter⟩ := padded_filledCell hlead cell width
      refine ⟨before, after ++ [' '], by rw [htext, List.append_assoc], hbefore, ?_⟩
      exact List.forall_mem_append.2 ⟨hafter, isBlank_of_mem_singleton⟩

/-! ## Bars -/

/-- How many characters stand in front of a bar: the columns up to there, the bars before it with a
blank on each side, and the blank in front of it. -/
def barOffset : (widths : List Nat) → (k : Nat) → Nat
  | [], _ => 0
  | width :: _, 0 => width + 1
  | width :: widths, k + 1 => width + 3 + barOffset widths k

/-- A text without bars has no offsets of bars. -/
theorem idxsOf_bar_eq_nil (h : '|' ∉ text) (start : Nat) : text.idxsOf '|' start = [] := by
  refine List.idxsOf_eq_nil_iff.2 fun c hc => ?_
  rw [beq_eq_false_iff_ne]
  rintro rfl
  exact h hc

/-- The bars of a line stand where the widths put them. -/
theorem eq_barOffset_of_idxsOf (hrow : row ≠ []) (hfits : Fits row widths)
    (hcells : ∀ cell ∈ row, Legible cell) (hlead : ∀ c ∈ lead, isBlank c = true) {start k i : Nat}
    (h : ((trimEnd (lead ++ rowText widths row)).idxsOf '|' start)[k]? = some i) :
    i = start + lead.length + barOffset widths k := by
  induction hfits generalizing lead start k with
  | none widths => exact absurd rfl hrow
  | @cell cell row width widths hlength rest ih =>
    rw [List.forall_mem_cons] at hcells
    have hbar := bar_notMem_filledCell hcells.1.bar hlead width
    cases rest with
    | none widths =>
      rw [rowText_singleton, idxsOf_bar_eq_nil fun h => hbar (mem_of_mem_trimEnd h)] at h
      cases h
    | cell h' rest =>
      have hwidth : (filledCell cell width).length = width := by
        rw [length_filledCell]
        exact Nat.max_eq_right hlength
      rw [trimEnd_rowText_cons_cons, List.idxsOf_append,
        idxsOf_bar_eq_nil (bar_notMem_append_blank hbar), List.nil_append, List.idxsOf_cons,
        if_pos (by rfl), List.length_append, List.length_append, hwidth, List.length_singleton] at h
      cases k with
      | zero =>
        have hi := Option.some.inj h
        rw [barOffset]
        omega
      | succ k =>
        -- the other bars are those of the rest of the line
        rw [List.getElem?_cons_succ] at h
        have hi := ih (List.cons_ne_nil _ _) hcells.2 isBlank_of_mem_singleton h
        rw [List.length_singleton] at hi
        rw [barOffset]
        omega

/-! ## Tables -/

/-- A line holds nothing but cells, blanks and bars. -/
theorem mem_rowText (hfits : Fits row widths) {c : Char} (h : c ∈ rowText widths row) :
    c = ' ' ∨ c = '|' ∨ ∃ cell ∈ row, c ∈ cell := by
  have hpad : ∀ {cell : List Char} {width : Nat}, c ∈ filledCell cell width → c = ' ' ∨ c ∈ cell := by
    intro cell width hc
    rcases List.mem_append.1 hc with hc | hc
    · exact Or.inr hc
    · exact Or.inl (List.eq_of_mem_replicate hc)
  induction hfits with
  | none widths => exact absurd h List.not_mem_nil
  | @cell cell row width widths _ rest ih =>
    cases rest with
    | none widths =>
      rw [rowText_singleton] at h
      exact (hpad h).imp_right fun hc => Or.inr ⟨cell, List.mem_cons_self, hc⟩
    | cell h' rest =>
      rw [rowText_cons_cons] at h
      simp only [List.mem_append, List.mem_cons] at h
      rcases h with h | rfl | rfl | rfl | h
      · exact (hpad h).imp_right fun hc => Or.inr ⟨cell, List.mem_cons_self, hc⟩
      · exact Or.inl rfl
      · exact Or.inr (Or.inl rfl)
      · exact Or.inl rfl
      · rcases ih h with hc | hc | ⟨other, hmem, hc⟩
        · exact Or.inl hc
        · exact Or.inr (Or.inl hc)
        · exact Or.inr (Or.inr ⟨other, List.mem_cons_of_mem cell hmem, hc⟩)

/-- The line of a row. -/
def rowLine (widths : List Nat) (row : List (List Char)) : List Char :=
  trimEnd (rowText widths row)

/-- A list of results is there if each of them is. -/
theorem mapM_eq_some_map {α β : Type} {f : α → Option β} {g : α → β} {l : List α}
    (h : ∀ a ∈ l, f a = some (g a)) : l.mapM f = some (l.map g) := by
  induction l with
  | nil => rfl
  | cons a l ih =>
    rw [List.forall_mem_cons] at h
    rw [List.mapM_cons, h.1, ih h.2]
    rfl

/-- A list of results is not there if one of them is not. -/
theorem mapM_eq_none {α β : Type} {f : α → Option β} {l : List α} {a : α} (ha : a ∈ l)
    (h : f a = none) : l.mapM f = none := by
  induction l with
  | nil => cases ha
  | cons b l ih =>
    rw [List.mapM_cons]
    rcases List.mem_cons.1 ha with rfl | hmem
    · rw [h]
      rfl
    · rw [ih hmem]
      cases f b <;> rfl

/-- A row has a line if no column is too wide. -/
theorem renderRow_eq_some (hwidths : ∀ width ∈ widths, width ≤ maxWidth) (row : List (List Char)) :
    renderRow widths row = some (rowLine widths row) := by
  have hcells : ∀ p ∈ row.zip widths, padCell p.1 p.2 = some (filledCell p.1 p.2) :=
    fun p hp => if_pos (hwidths p.2 (List.of_mem_zip hp).2)
  show ((row.zip widths).mapM fun p => padCell p.1 p.2).bind _ = _
  rw [mapM_eq_some_map hcells, List.map_zip_eq_zipWith]
  rfl

/-- A row has no line if one of its cells is too long for any column. -/
theorem renderRow_eq_none (hfits : Fits row widths) (hcell : cell ∈ row)
    (hlong : maxWidth < cell.length) : renderRow widths row = none := by
  have hcolumn : ∃ width, (cell, width) ∈ row.zip widths ∧ cell.length ≤ width := by
    induction hfits with
    | none widths => cases hcell
    | @cell first row width widths hlength _ ih =>
      rw [List.zip_cons_cons]
      rcases List.mem_cons.1 hcell with rfl | hcell
      · exact ⟨width, List.mem_cons_self, hlength⟩
      · obtain ⟨width', hmem, hle⟩ := ih hcell
        exact ⟨width', List.mem_cons_of_mem _ hmem, hle⟩
  obtain ⟨width, hmem, hle⟩ := hcolumn
  have hpad : padCell cell width = none := if_neg (Nat.not_le.2 (Nat.lt_of_lt_of_le hlong hle))
  show ((row.zip widths).mapM fun p => padCell p.1 p.2).bind _ = none
  rw [mapM_eq_none (f := fun p : List Char × Nat => padCell p.1 p.2) hmem hpad]
  rfl

/-- A table is printed if no cell is too long. -/
theorem renderRows_eq_some {rows : List (List (List Char))}
    (h : ∀ row ∈ rows, ∀ cell ∈ row, cell.length ≤ maxWidth) :
    renderRows rows = some (['\n'].intercalate (rows.map (rowLine (columnWidths rows)))) := by
  show (rows.mapM (renderRow (columnWidths rows))).bind _ = _
  rw [mapM_eq_some_map fun row _ => renderRow_eq_some (forall_mem_columnWidths h) row]
  rfl

/-- A table cannot be printed exactly if one of its cells is too long for any column. -/
theorem renderRows_eq_none_iff {rows : List (List (List Char))} :
    renderRows rows = none ↔ ∃ row ∈ rows, ∃ cell ∈ row, maxWidth < cell.length := by
  constructor
  · intro h
    by_contra hshort
    push Not at hshort
    rw [renderRows_eq_some hshort] at h
    cases h
  · rintro ⟨row, hrow, cell, hcell, hlong⟩
    show (rows.mapM (renderRow (columnWidths rows))).bind _ = none
    rw [mapM_eq_none hrow (renderRow_eq_none (fits_columnWidths hrow) hcell hlong)]
    rfl

/-- The text of a table has a line for each row. -/
theorem splitOn_of_renderRows {rows : List (List (List Char))} {text : List Char} (hrows : rows ≠ [])
    (hcells : ∀ row ∈ rows, ∀ cell ∈ row, '\n' ∉ cell) (h : renderRows rows = some text) :
    text.splitOn '\n' = rows.map (rowLine (columnWidths rows)) := by
  have hshort : ∀ row ∈ rows, ∀ cell ∈ row, cell.length ≤ maxWidth := by
    intro row hrow cell hcell
    by_contra hlong
    rw [renderRows_eq_none_iff.2 ⟨row, hrow, cell, hcell, Nat.lt_of_not_le hlong⟩] at h
    cases h
  have hlines : ∀ line ∈ rows.map (rowLine (columnWidths rows)), '\n' ∉ line := by
    intro line hline hbreak
    obtain ⟨row, hmem, rfl⟩ := List.mem_map.1 hline
    rcases mem_rowText (fits_columnWidths hmem) (mem_of_mem_trimEnd hbreak) with h | h | h
    · exact absurd h (by decide)
    · exact absurd h (by decide)
    · obtain ⟨cell, hcell, h⟩ := h
      exact hcells row hmem cell hcell h
  rw [renderRows_eq_some hshort] at h
  rw [← Option.some.inj h]
  exact List.splitOn_intercalate '\n' hlines (by simpa using hrows)

/-- A table of legible cells is printed unless a cell is longer than a column can be wide. The text has
a line for each row. In all lines that have so many bars the last of them stands at the same place, and
the pieces of a line between its bars, without the white space around them, are the cells of its row. -/
theorem renderRows_legible {rows : List (List (List Char))} (hrows : rows ≠ [])
    (hrow : ∀ row ∈ rows, row ≠ []) (hcells : ∀ row ∈ rows, ∀ cell ∈ row, Legible cell) :
    (renderRows rows = none ↔ ∃ row ∈ rows, ∃ cell ∈ row, maxWidth < cell.length) ∧
      ∀ text, renderRows rows = some text →
        (text.splitOn '\n').length = rows.length ∧
        (∀ k : Nat, ∃ offset, ∀ line ∈ text.splitOn '\n', ∀ i,
          (line.idxsOf '|')[k]? = some i → i = offset) ∧
        (text.splitOn '\n').map (fun line => (line.splitOn '|').map trim) = rows := by
  refine ⟨renderRows_eq_none_iff, fun text htext => ?_⟩
  have hnothing : ∀ c ∈ ([] : List Char), isBlank c = true := List.forall_mem_nil _
  rw [splitOn_of_renderRows hrows (fun row hmem cell hcell => (hcells row hmem cell hcell).lineBreak)
    htext]
  refine ⟨List.length_map _, fun k => ⟨barOffset (columnWidths rows) k, ?_⟩, ?_⟩
  · intro line hline i hi
    obtain ⟨row, hmem, rfl⟩ := List.mem_map.1 hline
    have h := eq_barOffset_of_idxsOf (hrow row hmem) (fits_columnWidths hmem) (hcells row hmem)
      hnothing hi
    simpa using h
  · rw [List.map_map]
    refine (List.map_congr_left fun row hmem => ?_).trans (List.map_id rows)
    have hpieces := padded_splitOn_trimEnd (hrow row hmem) (fits_columnWidths hmem)
      (hcells row hmem) hnothing
    exact map_trim_of_padded (hcells row hmem) hpieces

/-- Three rows of different lengths, with cells that are empty at the end, in between and alone. -/
theorem renderRows_legible_of_ragged :
    renderRows [["a".toList, [], "b c".toList, []], [[], "de".toList], [[]]] =
        some "a |    | b c |\n  | de\n".toList ∧
      ("a |    | b c |\n  | de\n".toList.splitOn '\n').map
          (fun line => (line.splitOn '|').map trim) =
        [["a".toList, [], "b c".toList, []], [[], "de".toList], [[]]] := by
  have hcells : ∀ row ∈ [["a".toList, [], "b c".toList, []], [[], "de".toList], [[]]],
      ∀ cell ∈ row, '|' ∉ cell ∧ '\n' ∉ cell ∧ cell.head?.all (fun c => !isBlank c) = true ∧
        cell.getLast?.all (fun c => !isBlank c) = true := by
    decide
  have htext : renderRows [["a".toList, [], "b c".toList, []], [[], "de".toList], [[]]] =
      some "a |    | b c |\n  | de\n".toList := by
    decide
  refine ⟨htext, ((renderRows_legible (by decide) (by decide) fun row hrow cell hcell => ?_).2 _
    htext).2.2⟩
  obtain ⟨hbar, hbreak, hfirst, hlast⟩ := hcells row hrow cell hcell
  refine ⟨hbar, hbreak, fun c hc => ?_, fun c hc => ?_⟩
  · simpa [hc] using hfirst
  · simpa [hc] using hlast

/-- A table with nothing but a cell of 65536 letters is legible, and it is not printed. -/
theorem renderRows_wide :
    (∀ row ∈ [[List.replicate 65536 'a']], row ≠ [] ∧ ∀ cell ∈ row, Legible cell) ∧
      renderRows [[List.replicate 65536 'a']] = none := by
  have hletter : ∀ {c : Char}, c ∈ List.replicate 65536 'a' → c = 'a' := List.eq_of_mem_replicate
  have hlegible : Legible (List.replicate 65536 'a') := by
    refine ⟨fun h => ?_, fun h => ?_, fun c h => ?_, fun c h => ?_⟩
    · exact absurd (hletter h) (by decide)
    · exact absurd (hletter h) (by decide)
    · rw [hletter (List.mem_of_mem_head? h)]
      decide
    · rw [hletter (List.mem_of_getLast? h)]
      decide
  refine ⟨List.forall_mem_singleton.2 ⟨List.cons_ne_nil _ _, List.forall_mem_singleton.2 hlegible⟩,
    renderRows_eq_none_iff.2 ⟨_, List.mem_singleton.2 rfl, _, List.mem_singleton.2 rfl, ?_⟩⟩
  rw [List.length_replicate, maxWidth]
  omega

end LL1
