/-
# Derivations

A sentential form is a word without epsilons. A step replaces one non-terminal of a form by one of
its alternatives, and a derivation is any number of steps. What a grammar means, and what its sets
should hold, is said in terms of derivations:

* `Generates g s w` : the symbol `s` derives the terminal string `w`;
* `Vanishes g w` : all of `w` can be replaced by nothing;
* `Begins g w t` : a form derived from `w` can begin with `t`;
* `Follows g s t` : `t` can stand right after `s` in a form;
* `Ends g s` : `s` can stand at the end of a form derived from the start symbol.
-/
import LL1.Grammar.Basic

namespace LL1

/-- A word of terminals other than epsilon. -/
def IsTerminalString (w : Word) : Prop :=
  ∀ s ∈ w, isTerminal s = true ∧ s ≠ epsilon

namespace Grammar

/-! ## Steps and derivations -/

/-- One replacement in a form. -/
inductive Step (g : Grammar) : Word → Word → Prop where
  /-- The head of a rule gives way to its right-hand side. -/
  | replace (before after : Word) {r : Rule} (h : r ∈ g.rules) :
    Step g (before ++ r.head :: after) (before ++ withoutEpsilon r.body ++ after)

/-- Any number of replacements. -/
inductive Derives (g : Grammar) : Word → Word → Prop where
  /-- No replacement. -/
  | refl (v : Word) : Derives g v v
  /-- One replacement more. -/
  | snoc {u v w : Word} (h : Derives g u v) (last : Step g v w) : Derives g u w

/-- The first replacement that can be made in a form from the left. -/
inductive LeftStep (g : Grammar) : Rule → Word → Word → Prop where
  /-- Nothing before the head of the rule is declared. -/
  | replace {before : Word} (fixed : ∀ s ∈ before, g.declares s = false) (after : Word) {r : Rule}
    (h : r ∈ g.rules) :
    LeftStep g r (before ++ r.head :: after) (before ++ withoutEpsilon r.body ++ after)

/-- A derivation that replaces from the left, by the rules of a list in turn. -/
inductive LeftDerives (g : Grammar) : List Rule → Word → Word → Prop where
  /-- No replacement. -/
  | refl (v : Word) : LeftDerives g [] v v
  /-- One replacement more. -/
  | snoc {rules : List Rule} {r : Rule} {u v w : Word} (h : LeftDerives g rules u v)
    (last : LeftStep g r v w) : LeftDerives g (rules ++ [r]) u w

/-! ## What a grammar means -/

/-- The symbol derives the terminal string. -/
def Generates (g : Grammar) (s : Symbol) (w : Word) : Prop :=
  g.Derives [s] w ∧ IsTerminalString w

/-- The symbol derives some terminal string. -/
def Productive (g : Grammar) (s : Symbol) : Prop :=
  ∃ w, g.Generates s w

/-- The symbol occurs in some form derived from the start symbol. -/
def Reachable (g : Grammar) (s : Symbol) : Prop :=
  ∃ before after, g.Derives [g.start] (before ++ s :: after)

/-- The symbol derives a form that begins with the symbol itself, by one replacement or more. -/
def LeftRecursive (g : Grammar) (s : Symbol) : Prop :=
  ∃ v rest, g.Step [s] v ∧ g.Derives v (s :: rest)

/-- The word derives the empty word. -/
def Vanishes (g : Grammar) (w : Word) : Prop :=
  g.Derives (withoutEpsilon w) []

/-- A form derived from the word can begin with the symbol. -/
def Begins (g : Grammar) (w : Word) (t : Symbol) : Prop :=
  ∃ rest, g.Derives (withoutEpsilon w) (t :: rest)

/-- Some non-terminal derives a form in which the first symbol stands right before the second. -/
def Follows (g : Grammar) (s t : Symbol) : Prop :=
  ∃ a ∈ g.symbols, ∃ before after, g.Derives [a] (before ++ s :: t :: after)

/-- The start symbol derives a form that ends with the symbol. -/
def Ends (g : Grammar) (s : Symbol) : Prop :=
  ∃ before, g.Derives [g.start] (before ++ [s])

/-! ## Composing derivations -/

/-- A replacement can be made in a larger form. -/
theorem Step.append {g : Grammar} {v w : Word} (h : g.Step v w) (left right : Word) :
    g.Step (left ++ v ++ right) (left ++ w ++ right) := by
  obtain ⟨before, after, hr⟩ := h
  have := Step.replace (left ++ before) (after ++ right) hr
  simpa using this

/-- A derivation can be continued. -/
theorem Derives.trans {g : Grammar} {u v w : Word} (h : g.Derives u v) (k : g.Derives v w) :
    g.Derives u w := by
  induction k with
  | refl => exact h
  | snoc _ last ih => exact ih.snoc last

/-- A derivation can be made in a larger form. -/
theorem Derives.surround {g : Grammar} {v w : Word} (h : g.Derives v w) (left right : Word) :
    g.Derives (left ++ v ++ right) (left ++ w ++ right) := by
  induction h with
  | refl => exact .refl _
  | snoc _ last ih => exact ih.snoc (last.append left right)

/-- Two forms can be derived from side by side. -/
theorem Derives.append {g : Grammar} {v w v' w' : Word} (h : g.Derives v w)
    (h' : g.Derives v' w') : g.Derives (v ++ v') (w ++ w') := by
  have first := h.surround [] v'
  have second := h'.surround w []
  simp only [List.nil_append, List.append_nil] at first second
  exact first.trans second

/-- The head of a rule is replaced by its right-hand side. -/
theorem step_of_mem_rules {g : Grammar} {r : Rule} (h : r ∈ g.rules) :
    g.Step [r.head] (withoutEpsilon r.body) := by
  have := Step.replace [] [] h
  rwa [List.nil_append, List.append_nil] at this

/-- The head of a rule derives its right-hand side. -/
theorem derives_of_mem_rules {g : Grammar} {r : Rule} (h : r ∈ g.rules) :
    g.Derives [r.head] (withoutEpsilon r.body) :=
  (Derives.refl _).snoc (step_of_mem_rules h)

/-- A replacement from the left is a replacement. -/
theorem LeftStep.step {g : Grammar} {r : Rule} {v w : Word} (h : g.LeftStep r v w) :
    g.Step v w := by
  obtain ⟨_, after, hr⟩ := h
  exact .replace _ after hr

/-- A derivation from the left is a derivation. -/
theorem LeftDerives.derives {g : Grammar} {rules : List Rule} {v w : Word}
    (h : g.LeftDerives rules v w) : g.Derives v w := by
  induction h with
  | refl => exact .refl _
  | snoc _ last ih => exact ih.snoc last.step

end Grammar

end LL1
