/-
# Languages of words

Given a language for every symbol, a word denotes the concatenation of the languages of its
symbols, where epsilon denotes the empty string. A system of non-terminals then has a least
solution: the smallest languages for its non-terminals that contain what their alternatives denote.
-/
import LL1.Grammar.NonTerminal

namespace LL1

/-- A set of strings. -/
abbrev Language := Word → Prop

/-- The strings that a word denotes, given the languages of symbols. -/
inductive Denotes (meaning : Symbol → Language) : Word → Language where
  /-- The empty word denotes the empty string. -/
  | nil : Denotes meaning [] []
  /-- Epsilon adds nothing. -/
  | epsilon {v : Word} {w : Word} (rest : Denotes meaning v w) :
    Denotes meaning (LL1.epsilon :: v) w
  /-- Any other symbol adds a string of its language. -/
  | cons {s : Symbol} {v : Word} {x w : Word} (h : s ≠ LL1.epsilon) (first : meaning s x)
    (rest : Denotes meaning v w) : Denotes meaning (s :: v) (x ++ w)

/-- Whether languages for all symbols agree with given ones outside a system of non-terminals and
contain what the alternatives of the system denote. -/
structure Solves (system : List NonTerminal) (given meaning : Symbol → Language) : Prop where
  /-- Symbols outside the system keep their languages. -/
  outside : ∀ s, (∀ n ∈ system, n.symbol ≠ s) → meaning s = given s
  /-- What an alternative denotes belongs to the language of its non-terminal. -/
  closed : ∀ n ∈ system, ∀ body ∈ n.alternatives, ∀ w,
    Denotes meaning body w → meaning n.symbol w

/-- The strings that belong to the language of a symbol in every solution of the system. -/
def leastMeaning (system : List NonTerminal) (given : Symbol → Language) (s : Symbol) : Language :=
  fun w => ∀ meaning, Solves system given meaning → meaning s w

/-- More strings for the symbols give more strings for a word. -/
theorem Denotes.mono {m m' : Symbol → Language} (h : ∀ s w, m s w → m' s w) {v w : Word}
    (hd : Denotes m v w) : Denotes m' v w := by
  induction hd with
  | nil => exact .nil
  | epsilon _ ih => exact .epsilon ih
  | cons hs first _ ih => exact .cons hs (h _ _ first) ih

end LL1
