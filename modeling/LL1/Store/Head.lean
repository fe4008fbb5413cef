/-
# Heads

A stored grammar keeps its non-terminals under their symbols, each together with its FIRST and its
FOLLOW set. The entries of the map have no order that anything could depend on, so a map is known by
what it answers for each symbol.
-/
import LL1.Grammar.NonTerminal
import LL1.Symbol.SymbolSet

namespace LL1

/-! ## Heads -/

/-- A non-terminal with its sets. -/
structure Head extends NonTerminal where
  /-- Its FIRST set. -/
  first : SymbolSet := ∅
  /-- Its FOLLOW set. -/
  follow : SymbolSet := ∅
  deriving DecidableEq, Repr

namespace Head

/-- A non-terminal with empty sets. -/
def ofNonTerminal (n : NonTerminal) : Head :=
  { toNonTerminal := n }

/-- The head with a non-terminal in its place. If nothing is changed by that it keeps its sets, and
otherwise they are empty. -/
def replacedBy (h : Head) (n : NonTerminal) : Head :=
  if n = h.toNonTerminal then h else ofNonTerminal n

end Head

/-! ## Maps -/

/-- A map from symbols to heads. -/
structure HeadMap where
  /-- The symbols with their heads. -/
  entries : List (Symbol × Head) := []
  /-- No symbol is listed twice. -/
  nodup : (entries.map Prod.fst).Nodup := by exact List.nodup_nil
  deriving Repr

namespace HeadMap

/-- The map without entries. -/
def empty : HeadMap := {}

/-- The head under a symbol. -/
def get? (m : HeadMap) (s : Symbol) : Option Head :=
  m.entries.lookup s

/-- Whether there is a head under a symbol. -/
def contains (m : HeadMap) (s : Symbol) : Bool :=
  (m.get? s).isSome

/-- Takes the head under a symbol out of the map. -/
def erase (m : HeadMap) (s : Symbol) : HeadMap where
  entries := m.entries.filter fun e => e.1 != s
  nodup := (List.filter_sublist.map Prod.fst).nodup m.nodup

/-- There is no entry for a symbol that was taken out. -/
theorem notMem_erase (m : HeadMap) (s : Symbol) : s ∉ (m.erase s).entries.map Prod.fst := by
  simp [erase]

/-- Puts a head under a symbol, in the place of the one that is there. -/
def insert (m : HeadMap) (s : Symbol) (h : Head) : HeadMap where
  entries := (s, h) :: (m.erase s).entries
  nodup := List.nodup_cons.2 ⟨m.notMem_erase s, (m.erase s).nodup⟩

/-- Changes the head under a symbol, if there is one. -/
def modify (m : HeadMap) (s : Symbol) (f : Head → Head) : HeadMap :=
  match m.get? s with
  | none => m
  | some h => m.insert s (f h)

/-- The heads of a list under their symbols, put in one after the other. -/
def ofHeads (heads : List Head) : HeadMap :=
  heads.foldl (fun m h => m.insert h.symbol h) empty

/-! ## Lookup after an operation -/

variable {m : HeadMap} {s t : Symbol}

/-- The empty map answers nothing. -/
theorem get?_empty (s : Symbol) : empty.get? s = none := rfl

/-- What is taken out is gone, and the rest stays. -/
theorem get?_erase (m : HeadMap) (s t : Symbol) :
    (m.erase s).get? t = if t = s then none else m.get? t := by
  obtain ⟨entries, hnodup⟩ := m
  show (entries.filter fun e => e.1 != s).lookup t = if t = s then none else entries.lookup t
  clear hnodup
  induction entries with
  | nil => simp
  | cons e rest ih =>
    obtain ⟨u, h⟩ := e
    by_cases hu : u = s
    · rw [List.filter_cons_of_neg (by simpa using hu), ih, List.lookup_cons]
      by_cases ht : t = s
      · rw [if_pos ht, if_pos ht]
      · rw [if_neg ht, if_neg ht, beq_false_of_ne fun heq => ht (heq.trans hu)]
    · rw [List.filter_cons_of_pos (by simpa using hu), List.lookup_cons, List.lookup_cons]
      by_cases ht : t = u
      · rw [beq_iff_eq.2 ht, if_neg fun heq => hu (ht.symm.trans heq)]
      · rw [beq_false_of_ne ht]
        exact ih

/-- What is put in is there, and the rest stays. -/
theorem get?_insert (m : HeadMap) (s t : Symbol) (h : Head) :
    (m.insert s h).get? t = if t = s then some h else m.get? t := by
  show ((s, h) :: (m.erase s).entries).lookup t = _
  rw [List.lookup_cons]
  by_cases ht : t = s
  · rw [if_pos ht, beq_iff_eq.2 ht]
  · rw [if_neg ht, beq_false_of_ne ht]
    exact (get?_erase m s t).trans (if_neg ht)

/-- A change of one head leaves the others alone. -/
theorem get?_modify (m : HeadMap) (s t : Symbol) (f : Head → Head) :
    (m.modify s f).get? t = if t = s then (m.get? t).map f else m.get? t := by
  unfold modify
  cases hs : m.get? s with
  | none =>
    by_cases ht : t = s
    · rw [if_pos ht, ht, hs]
      rfl
    · exact (if_neg ht).symm
  | some h =>
    show (m.insert s (f h)).get? t = _
    rw [get?_insert]
    by_cases ht : t = s
    · rw [if_pos ht, if_pos ht, ht, hs]
      rfl
    · rw [if_neg ht, if_neg ht]

/-- A map of heads answers with the head that bears the symbol, if no two bear the same. -/
theorem get?_ofHeads {heads : List Head} (hnodup : (heads.map fun h => h.symbol).Nodup) (s : Symbol) :
    (ofHeads heads).get? s = heads.find? fun h => h.symbol == s := by
  -- heads that are put in later do not bear the symbols of earlier ones
  have key : ∀ (l : List Head) (m : HeadMap), (l.map fun h => h.symbol).Nodup →
      (l.foldl (fun m h => m.insert h.symbol h) m).get? s =
        (l.find? fun h => h.symbol == s).or (m.get? s) := by
    intro l
    induction l with
    | nil => exact fun _ _ => rfl
    | cons h rest ih =>
      intro m hl
      rw [List.map_cons, List.nodup_cons] at hl
      rw [List.foldl_cons, ih _ hl.2, get?_insert, List.find?_cons]
      by_cases hs : s = h.symbol
      · have hnone : rest.find? (fun k => k.symbol == s) = none := by
          rw [List.find?_eq_none]
          intro k hk heq
          exact hl.1 (List.mem_map.2 ⟨k, hk, (beq_iff_eq.1 heq).trans hs⟩)
        rw [if_pos hs, beq_iff_eq.2 hs.symm, hnone]
        rfl
      · rw [if_neg hs, beq_false_of_ne (Ne.symm hs)]
  rw [ofHeads, key heads empty hnodup, get?_empty, Option.or_none]

end HeadMap

end LL1
