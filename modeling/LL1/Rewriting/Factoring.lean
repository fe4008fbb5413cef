/-
# Left factoring

Alternatives of one non-terminal that begin with the same symbol cannot be told apart by looking at
one symbol of the input. Factoring pulls what they share to the front: `A -> ab | ac | d` becomes
`A -> aX | d` with `X -> b | c`. Alternatives that begin with the non-terminal itself are left
recursion and are no concern of factoring.
-/
import LL1.Grammar.NonTerminal

namespace LL1

/-! ## Common prefixes -/

/-- The longest common prefix of two words. -/
def commonPrefix : Word → Word → Word
  | s :: v, t :: w => if s = t then s :: commonPrefix v w else []
  | _, _ => []

/-- The longest prefix that all words of a list share. -/
def sharedPrefix : List Word → Word
  | [] => []
  | w :: rest => rest.foldl commonPrefix w

/-- The common prefix begins the first word. -/
theorem commonPrefix_prefix_left (v w : Word) : commonPrefix v w <+: v := by
  induction v generalizing w with
  | nil => simp [commonPrefix]
  | cons s v ih =>
    cases w with
    | nil => simp [commonPrefix]
    | cons t w =>
      unfold commonPrefix
      split
      · exact List.prefix_cons_inj s |>.2 (ih w)
      · exact List.nil_prefix

/-- The common prefix begins the second word. -/
theorem commonPrefix_prefix_right (v w : Word) : commonPrefix v w <+: w := by
  induction v generalizing w with
  | nil => simp [commonPrefix]
  | cons s v ih =>
    cases w with
    | nil => simp [commonPrefix]
    | cons t w =>
      unfold commonPrefix
      split
      · next h =>
        subst h
        exact List.prefix_cons_inj s |>.2 (ih w)
      · exact List.nil_prefix

/-! ## Groups of alternatives -/

/-- Whether two alternatives of `head` begin alike, and not with `head` itself. -/
def beginAlike (head : Symbol) (v w : Word) : Bool :=
  decide (v.head? = w.head?) && decide (v.head? ≠ some head)

/-- Whether two neighbours in a list of alternatives begin alike. -/
def hasNeighboursAlike (head : Symbol) : List Word → Bool
  | v :: w :: rest => beginAlike head v w || hasNeighboursAlike head (w :: rest)
  | _ => false

/-- A list of alternatives, cut around a run of alternatives that begin alike. -/
structure Grouping where
  /-- The alternatives before the run. -/
  before : List Word
  /-- The run: all its members begin with the same symbol. -/
  group : List Word
  /-- The alternatives after the run. -/
  after : List Word
  deriving DecidableEq, Repr

/-- Cuts a list of alternatives around the first run of two or more that begin alike. -/
def findGroup (head : Symbol) : List Word → Option Grouping
  | v :: w :: rest =>
    if beginAlike head v w then
      let alike := fun u : Word => decide (u.head? = v.head?)
      some ⟨[], v :: (w :: rest).takeWhile alike, (w :: rest).dropWhile alike⟩
    else
      (findGroup head (w :: rest)).map fun g => { g with before := v :: g.before }
  | _ => none

/-- There is a group to find exactly when two neighbours begin alike. -/
theorem findGroup_isSome (head : Symbol) (ws : List Word) :
    (findGroup head ws).isSome = hasNeighboursAlike head ws := by
  induction ws with
  | nil => rfl
  | cons v rest ih =>
    cases rest with
    | nil => rfl
    | cons w rest =>
      unfold findGroup hasNeighboursAlike
      split
      · next h => simp [h]
      · next h => simp [h, ih]

/-- Cutting loses nothing and keeps the order. -/
theorem findGroup_append {head : Symbol} {ws : List Word} {g : Grouping}
    (h : findGroup head ws = some g) : g.before ++ g.group ++ g.after = ws := by
  induction ws generalizing g with
  | nil => simp [findGroup] at h
  | cons v rest ih =>
    cases rest with
    | nil => simp [findGroup] at h
    | cons w rest =>
      unfold findGroup at h
      split at h
      · cases h
        simp only [List.nil_append, List.cons_append, List.takeWhile_append_dropWhile]
      · obtain ⟨k, hk, rfl⟩ := Option.map_eq_some_iff.1 h
        simpa using ih hk

/-! ## Factoring a non-terminal -/

/-- A non-terminal about to be factored. -/
structure Factoring where
  /-- The non-terminal. -/
  symbol : Symbol
  /-- Its alternatives that sort before the group. -/
  before : List Word
  /-- What all members of the group begin with. -/
  stem : Word
  /-- What follows the stem in each member of the group. -/
  endings : List Word
  /-- Its alternatives that sort after the group. -/
  after : List Word
  deriving DecidableEq, Repr

namespace Factoring

/-- The word, written with an epsilon if it is empty. -/
def spelled : Word → Word
  | [] => [epsilon]
  | w => w

/-- The factored non-terminal: the group has become one alternative that ends in the fresh symbol. -/
def head (f : Factoring) (fresh : Symbol) : NonTerminal :=
  .ofAlternatives f.symbol (f.before ++ (f.stem ++ [fresh]) :: f.after)

/-- The fresh non-terminal: it derives what followed the stem. -/
def tail (f : Factoring) (fresh : Symbol) : NonTerminal :=
  .ofAlternatives fresh (f.endings.map spelled)

end Factoring

namespace NonTerminal

/-- The non-terminal with its alternatives in ascending order. -/
def sorted (n : NonTerminal) : NonTerminal :=
  { n with alternatives := sortWords n.alternatives }

/-- Whether two alternatives begin with the same symbol, other than the non-terminal itself. -/
def isLeftFactorable (n : NonTerminal) : Bool :=
  hasNeighboursAlike n.symbol (sortWords n.alternatives)

/-- The factoring of the first group of alternatives that begin alike, if there is one. -/
def factoring? (n : NonTerminal) : Option Factoring :=
  (findGroup n.symbol (sortWords n.alternatives)).map fun g =>
    let stem := sharedPrefix g.group
    { symbol := n.symbol
      before := g.before
      stem := stem
      endings := g.group.map fun w => w.drop stem.length
      after := g.after }

/-- There is something to factor exactly when two alternatives begin alike. -/
theorem factoring?_isSome (n : NonTerminal) : n.factoring?.isSome = n.isLeftFactorable := by
  rw [factoring?, Option.isSome_map, findGroup_isSome, isLeftFactorable]

end NonTerminal

end LL1
