/-
# Where cells stand

A table that is filled cell by cell holds no two cells in one place, so every cell is found in its
place. The cells of a table belong to a grammar if their rows are non-terminals, their columns terminals
and their rules rules of the row.
-/
import LL1.Proofs.Analysis.Prediction

namespace LL1

/-! ## Places -/

/-- The row and the column of a cell. -/
def Cell.place (c : Cell) : Symbol × Symbol :=
  (c.nonTerminal, c.terminal)

namespace Table

variable {t : Table} {c : Cell} {s a : Symbol}

/-- Whether no two cells stand in one place. -/
def Distinct (t : Table) : Prop :=
  (t.cells.map Cell.place).Nodup

/-- A cell that is put into its place is one cell more. -/
theorem insertCell_perm (c : Cell) (cells : List Cell) :
    (insertCell c cells).Perm (c :: cells) := by
  induction cells with
  | nil => exact List.Perm.refl _
  | cons d rest ih =>
    unfold insertCell
    split
    · exact (ih.cons d).trans (List.Perm.swap c d rest)
    · exact List.Perm.refl _

/-- Nothing is found in a place where no cell stands. -/
theorem find?_eq_none_iff : t.find? s a = none ↔ ∀ c ∈ t.cells, c.place ≠ (s, a) := by
  simp [find?, Cell.place]

/-- Filling an empty place keeps places apart. -/
theorem Distinct.insert (ht : t.Distinct) (hc : t.find? c.nonTerminal c.terminal = none) :
    (t.insert c).Distinct := by
  have hperm := (insertCell_perm c t.cells).map Cell.place
  refine hperm.nodup_iff.2 (List.nodup_cons.2 ⟨fun hmem => ?_, ht⟩)
  obtain ⟨d, hd, hplace⟩ := List.mem_map.1 hmem
  exact find?_eq_none_iff.1 hc d hd hplace

/-- If places are apart, each cell is found in its place. -/
theorem Distinct.find?_of_mem (ht : t.Distinct) (hc : c ∈ t.cells) :
    t.find? c.nonTerminal c.terminal = some c.id := by
  obtain ⟨cells⟩ := t
  unfold Distinct at ht
  dsimp only at ht hc
  induction cells with
  | nil => cases hc
  | cons d rest ih =>
    rw [List.map_cons, List.nodup_cons] at ht
    rw [find?_cons]
    rcases List.mem_cons.1 hc with rfl | hrest
    · exact if_pos ⟨rfl, rfl⟩
    · have hne : ¬ (d.nonTerminal = c.nonTerminal ∧ d.terminal = c.terminal) := by
        intro hsame
        have hplace : d.place = c.place := Prod.ext hsame.1 hsame.2
        exact ht.1 (hplace ▸ List.mem_map_of_mem hrest)
      rw [if_neg hne]
      exact ih ht.2 hrest

end Table

/-- Adding a candidate keeps places apart. -/
theorem Prediction.distinct_add {g : Grammar} {p : Prediction} (hp : p.table.Distinct) (c : Cell) :
    (p.add g c).table.Distinct := by
  unfold add
  split
  · next hnone => exact hp.insert hnone
  · split
    · exact hp
    · exact hp

/-- A table is filled with its places apart, from whatever sets. -/
theorem Grammar.distinct_predict (g : Grammar) (f follow : SetFamily) (m : Memo) :
    (g.predict f follow m).prediction.table.Distinct := by
  refine List.foldlRecOn (motive := fun st : PredictionState => st.prediction.table.Distinct)
    g.nonTerminals _ List.nodup_nil fun st hst n _ => ?_
  exact List.foldlRecOn (motive := fun p : Prediction => p.table.Distinct) _ _ hst
    fun p hp c _ => Prediction.distinct_add hp c

/-! ## Cells of a grammar -/

/-- Whether a cell belongs to a grammar: its row is a non-terminal, its column a terminal, and its rule
one of the row. -/
structure Cell.FitsIn (c : Cell) (g : Grammar) : Prop where
  /-- The column is a terminal. -/
  terminal : c.terminal ∈ g.terminals
  /-- The rule belongs to the row. -/
  head : c.id.head = c.nonTerminal
  /-- There is such a rule. -/
  index : ∃ n, g.find? c.nonTerminal = some n ∧ c.id.index < n.alternatives.length

end LL1
