/-
# Families of sets

FIRST and FOLLOW assign a set of symbols to every non-terminal. A family lists the non-terminals
with their sets; a symbol that is not listed has the empty set.
-/
import LL1.Grammar.Basic

namespace LL1

/-- A set of symbols for each of some non-terminals. -/
structure SetFamily where
  /-- The non-terminals with their sets. -/
  entries : List (Symbol × SymbolSet) := []
  deriving DecidableEq, Repr

namespace SetFamily

/-! ## Operations -/

/-- The set of a symbol. -/
def get (f : SetFamily) (s : Symbol) : SymbolSet :=
  match f.entries.lookup s with
  | some a => a
  | none => ∅

/-- The family that lists the given symbols with empty sets. -/
def empty (symbols : List Symbol) : SetFamily :=
  ⟨symbols.map fun s => (s, ∅)⟩

/-- Adds members to the set of a listed symbol. -/
def extend (f : SetFamily) (s : Symbol) (members : List Symbol) : SetFamily :=
  if members.all fun t => decide (t ∈ f.get s) then f
  else ⟨f.entries.map fun (t, a) => if t = s then (t, a.insertAll members) else (t, a)⟩

/-- What remains of a family when a grammar changes: the sets of the non-terminals of the new
grammar that are the same in the old one. -/
def carryOver (f : SetFamily) (old new : Grammar) : SetFamily :=
  ⟨new.nonTerminals.map fun n =>
    (n.symbol, if old.find? n.symbol = some n then f.get n.symbol else ∅)⟩

/-- Whether the given symbols have sets with the same members in both families. -/
def sameOn (f h : SetFamily) (symbols : List Symbol) : Bool :=
  symbols.all fun s => (f.get s).sameMembers (h.get s)

/-! ## Sets after an operation -/

/-- All sets of an empty family are empty. -/
theorem get_empty (symbols : List Symbol) (s : Symbol) : (empty symbols).get s = ∅ := by
  have key : ∀ a, ((empty symbols).entries).lookup s = some a → a = ∅ := by
    induction symbols with
    | nil => simp [empty]
    | cons t rest ih =>
      intro a h
      simp only [empty, List.map_cons, List.lookup_cons] at h
      split at h
      · exact (Option.some.inj h).symm
      · exact ih a h
  unfold get
  split
  · next a h => exact key a h
  · rfl

/-- Extending touches the set of one symbol. -/
theorem lookup_extend (f : SetFamily) (s t : Symbol) (members : List Symbol) :
    (f.extend s members).entries.lookup t =
      (f.entries.lookup t).map fun a => if t = s then a.insertAll members else a := by
  obtain ⟨entries⟩ := f
  unfold extend
  split
  · next hmem =>
    cases ha : entries.lookup t with
    | none => rfl
    | some a =>
      by_cases hts : t = s
      · subst hts
        have hget : (SetFamily.mk entries).get t = a := by simp [get, ha]
        rw [hget] at hmem
        have hall : ∀ u ∈ members, u ∈ a := by simpa using hmem
        simp [SymbolSet.insertAll_of_forall_mem hall]
      · simp [hts]
  · next hnew =>
    clear hnew
    induction entries with
    | nil => rfl
    | cons e rest ih =>
      obtain ⟨u, a⟩ := e
      simp only [List.map_cons] at ih ⊢
      by_cases hu : u = s <;> by_cases ht : t = u
      · simp [hu, ht]
      · have hb : (t == s) = false := by simpa [hu] using ht
        simp [hu, List.lookup_cons, hb, ih]
      · simp [hu, ht]
      · have hb : (t == u) = false := by simpa using ht
        simp [hu, List.lookup_cons, hb, ih]

/-- Extending one set leaves the others alone. -/
theorem get_extend_of_ne (f : SetFamily) {s t : Symbol} (h : t ≠ s) (members : List Symbol) :
    (f.extend s members).get t = f.get t := by
  unfold get
  rw [lookup_extend]
  cases f.entries.lookup t <;> simp [h]

/-- The set of a listed symbol gains exactly the given members. -/
theorem get_extend_self {f : SetFamily} {s : Symbol} {a : SymbolSet}
    (h : f.entries.lookup s = some a) (members : List Symbol) :
    (f.extend s members).get s = (f.get s).insertAll members := by
  unfold get
  rw [lookup_extend, h]
  simp

end SetFamily

end LL1
