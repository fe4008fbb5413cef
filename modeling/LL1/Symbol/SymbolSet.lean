/-
# Sets of symbols in insertion order

FIRST and FOLLOW sets and terminal alphabets are sets whose members are listed in the order in
which they were found. `SymbolSet` is a list without repetition, and its view is `toList`.
-/
import LL1.Symbol.Basic

namespace LL1

/-! ## The type -/

/-- A finite set of symbols that remembers the order in which its members were inserted. -/
structure SymbolSet where
  /-- The members, oldest first. -/
  toList : List Symbol
  /-- No member is listed twice. -/
  nodup : toList.Nodup := by decide
  deriving DecidableEq, Repr

namespace SymbolSet

instance : EmptyCollection SymbolSet := ⟨{ toList := [] }⟩

instance : Inhabited SymbolSet := ⟨∅⟩

instance : Membership Symbol SymbolSet where
  mem a s := s ∈ a.toList

instance (a : SymbolSet) (s : Symbol) : Decidable (s ∈ a) :=
  inferInstanceAs (Decidable (s ∈ a.toList))

/-- The number of members. -/
def size (a : SymbolSet) : Nat :=
  a.toList.length

/-! ## Growing a set -/

/-- Adds a symbol at the end, unless it is already a member. -/
def insert (a : SymbolSet) (s : Symbol) : SymbolSet :=
  if h : s ∈ a.toList then a
  else
    { toList := a.toList ++ [s]
      nodup := by
        refine List.nodup_append.2 ⟨a.nodup, by simp, ?_⟩
        intro t ht u hu
        rw [List.mem_singleton] at hu
        subst hu
        intro heq
        exact h (heq ▸ ht) }

/-- Adds the symbols of a list from left to right. -/
def insertAll (a : SymbolSet) (l : List Symbol) : SymbolSet :=
  l.foldl insert a

/-- The set of the symbols of a list, in the order of their first appearance. -/
def ofList (l : List Symbol) : SymbolSet :=
  insertAll ∅ l

/-- The members other than epsilon, in order. -/
def terminals (a : SymbolSet) : List Symbol :=
  withoutEpsilon a.toList

/-- Whether two sets have the same members, in whatever order. -/
def sameMembers (a b : SymbolSet) : Bool :=
  a.toList.all (fun s => b.toList.contains s) && b.toList.all (fun s => a.toList.contains s)

/-! ## Members -/

/-- Membership is membership in the list of members. -/
theorem mem_iff {a : SymbolSet} {s : Symbol} : s ∈ a ↔ s ∈ a.toList := Iff.rfl

/-- The empty set has no members. -/
theorem notMem_empty (s : Symbol) : s ∉ (∅ : SymbolSet) := List.not_mem_nil

/-- Inserting a member changes nothing. -/
theorem insert_of_mem {a : SymbolSet} {s : Symbol} (h : s ∈ a) : a.insert s = a :=
  dif_pos h

/-- Inserting a new symbol puts it at the end. -/
theorem toList_insert_of_notMem {a : SymbolSet} {s : Symbol} (h : s ∉ a) :
    (a.insert s).toList = a.toList ++ [s] := by
  have hs : ¬ s ∈ a.toList := h
  simp [insert, hs]

/-- Inserting adds exactly the inserted symbol. -/
theorem mem_insert {a : SymbolSet} {s t : Symbol} : t ∈ a.insert s ↔ t ∈ a ∨ t = s := by
  by_cases h : s ∈ a
  · rw [insert_of_mem h]
    exact ⟨Or.inl, fun ht => ht.elim id fun heq => heq ▸ h⟩
  · rw [mem_iff, toList_insert_of_notMem h, List.mem_append, List.mem_singleton, mem_iff]

/-- Inserting a list adds exactly its symbols. -/
theorem mem_insertAll {a : SymbolSet} {l : List Symbol} {t : Symbol} :
    t ∈ a.insertAll l ↔ t ∈ a ∨ t ∈ l := by
  induction l generalizing a with
  | nil => simp [insertAll]
  | cons s rest ih =>
    have h := ih (a := a.insert s)
    rw [mem_insert] at h
    rw [List.mem_cons, ← or_assoc]
    exact h

/-- Inserting members changes nothing. -/
theorem insertAll_of_forall_mem {a : SymbolSet} {l : List Symbol} (h : ∀ s ∈ l, s ∈ a) :
    a.insertAll l = a := by
  induction l with
  | nil => rfl
  | cons s rest ih =>
    have hs : a.insert s = a := insert_of_mem (h s List.mem_cons_self)
    have hrest := ih fun t ht => h t (List.mem_cons_of_mem s ht)
    show (a.insert s).insertAll rest = a
    rw [hs, hrest]

/-- The set of a list has the members of the list. -/
theorem mem_ofList {l : List Symbol} {t : Symbol} : t ∈ ofList l ↔ t ∈ l := by
  rw [ofList, mem_insertAll]
  exact ⟨fun h => h.elim (fun h => absurd h (notMem_empty t)) id, Or.inr⟩

end SymbolSet

end LL1
