/-
# What is remembered about nullability

Whether a rule can derive the empty word is found by evaluating it, and the answers are remembered.
A memo gives a mark to each rule. A mark belongs to its rule, so it lasts as long as the rule does,
whatever happens to the rest of the grammar. A memo also holds answers about whole non-terminals
that came without any change of the marks. Asking again would change nothing either, so these
answers are good until a mark is set or the grammar changes.
-/
import LL1.Grammar.NonTerminal

namespace LL1

/-! ## Marks and memos -/

/-- What is known about the nullability of a rule. -/
inductive Mark where
  /-- Nothing yet. -/
  | unknown
  /-- The rule is being evaluated. -/
  | inProgress
  /-- The rule derives the empty word. -/
  | nullable
  /-- The rule does not derive the empty word. -/
  | notNullable
  deriving DecidableEq, Repr

/-- What is known about the nullability of rules and non-terminals. -/
structure Memo where
  /-- The rules with their marks. A rule that is not listed is unknown. -/
  entries : List (Rule × Mark) := []
  /-- The non-terminals with the answers that go with these marks. -/
  answers : List (NonTerminal × Bool) := []
  deriving DecidableEq, Repr

namespace Memo

/-- The mark of a rule in a list of marks. -/
def markIn (r : Rule) : List (Rule × Mark) → Mark
  | [] => .unknown
  | (q, k) :: rest => if q = r then k else markIn r rest

/-- The mark of a rule. -/
def mark (m : Memo) (r : Rule) : Mark :=
  markIn r m.entries

/-- Replaces the mark of a rule in a list of marks, or adds it at the end. -/
def store (r : Rule) (k : Mark) : List (Rule × Mark) → List (Rule × Mark)
  | [] => [(r, k)]
  | (q, l) :: rest => if q = r then (r, k) :: rest else (q, l) :: store r k rest

/-- Marks a rule. The answers are forgotten. -/
def set (m : Memo) (r : Rule) (k : Mark) : Memo :=
  { entries := store r k m.entries }

/-- The marks alone. -/
def marksOnly (m : Memo) : Memo :=
  { entries := m.entries }

/-- The answer about a non-terminal that goes with the marks, if there is one. -/
def answer? (m : Memo) (n : NonTerminal) : Option Bool :=
  m.answers.lookup n

/-- What is remembered after the question about a non-terminal was answered: the answer, if no mark
has changed in between, and the new marks otherwise. -/
def learn (before after : Memo) (n : NonTerminal) (answer : Bool) : Memo :=
  if after.entries = before.entries then
    { entries := before.entries, answers := (n, answer) :: before.answers }
  else after

/-! ## Marks after an operation -/

/-- A stored mark is found again. -/
theorem markIn_store_self (r : Rule) (k : Mark) (l : List (Rule × Mark)) :
    markIn r (store r k l) = k := by
  induction l with
  | nil => simp [store, markIn]
  | cons e rest ih =>
    obtain ⟨q, m⟩ := e
    by_cases h : q = r
    · simp [store, markIn, h]
    · simp [store, markIn, h, ih]

/-- Storing a mark does not touch the marks of other rules. -/
theorem markIn_store_of_ne {q r : Rule} (h : q ≠ r) (k : Mark) (l : List (Rule × Mark)) :
    markIn q (store r k l) = markIn q l := by
  induction l with
  | nil => simp [store, markIn, h.symm]
  | cons e rest ih =>
    obtain ⟨p, m⟩ := e
    by_cases hp : p = r
    · subst hp
      simp [store, markIn, h.symm]
    · simp [store, markIn, hp, ih]

/-- A rule has the mark it was given. -/
theorem mark_set_self (m : Memo) (r : Rule) (k : Mark) : (m.set r k).mark r = k :=
  markIn_store_self r k m.entries

/-- Marking one rule leaves the marks of the others alone. -/
theorem mark_set_of_ne (m : Memo) {q r : Rule} (h : q ≠ r) (k : Mark) :
    (m.set r k).mark q = m.mark q :=
  markIn_store_of_ne h k m.entries

/-- Forgetting answers does not touch the marks. -/
theorem mark_marksOnly (m : Memo) (r : Rule) : m.marksOnly.mark r = m.mark r := rfl

/-- Learning an answer keeps the marks that came with it. -/
theorem mark_learn (before after : Memo) (n : NonTerminal) (answer : Bool) (r : Rule) :
    (before.learn after n answer).mark r = after.mark r := by
  unfold learn
  split
  · next h => simp [mark, h]
  · rfl

end Memo

end LL1
