/-
# FOLLOW sets

FOLLOW of a non-terminal holds the terminals that can stand right after it in a sentential form, and
the end marker if it can stand at the end. The sets grow in passes over the rules, like FIRST sets.
-/
import LL1.Analysis.First

namespace LL1

namespace Grammar

/-! ## FOLLOW of the non-terminals -/

/-- Goes through a right-hand side of `head` and adds to the set of each non-terminal what can stand
after it: FIRST of the rest, and FOLLOW of the head if the rest can vanish. -/
def followWord (g : Grammar) (first : SetFamily) (head : Symbol) : Word → SetState → SetState
  | [], st => st
  | s :: rest, st =>
    if g.declares s then
      match g.firstOfWord first rest st.memo with
      | (found, memo) =>
        let inherited :=
          if epsilon ∈ found ∧ s ≠ head then (st.sets.get head).toList else []
        g.followWord first head rest ⟨st.sets.extend s (found.terminals ++ inherited), memo⟩
    else g.followWord first head rest st

/-- One pass over all rules. -/
def followPass (g : Grammar) (first : SetFamily) (st : SetState) : SetState :=
  g.rules.foldl (fun st r => g.followWord first r.head r.body st) st

/-- Where the passes start: the end marker follows the start symbol. -/
def followSeed (g : Grammar) : SetFamily :=
  (SetFamily.empty g.symbols).extend g.start [endMarker]

/-- The FOLLOW sets of the non-terminals. -/
def followSets (g : Grammar) (first : SetFamily) (memo : Memo) : Settled SetState :=
  untilSettled SetState.sameSets (g.followPass first) g.passLimit ⟨g.followSeed, memo⟩

end Grammar

end LL1
