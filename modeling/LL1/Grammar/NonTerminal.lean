/-
# Non-terminals

A non-terminal is a symbol with its alternatives, in the order in which they were declared. Adding
an alternative twice has no effect.
-/
import LL1.Grammar.Rule

namespace LL1

/-- A non-terminal and the words it may be replaced by. -/
structure NonTerminal where
  /-- The symbol that is being defined. -/
  symbol : Symbol
  /-- The alternatives, in order of declaration. -/
  alternatives : List Word := []
  deriving DecidableEq, Repr

namespace NonTerminal

/-! ## Building -/

/-- Adds an alternative at the end, unless there is an equal one. -/
def add (n : NonTerminal) (body : Word) : NonTerminal :=
  if body.isAmong n.alternatives then n
  else { n with alternatives := n.alternatives ++ [body] }

/-- The non-terminal with the given alternatives, repetitions left out. -/
def ofAlternatives (symbol : Symbol) (bodies : List Word) : NonTerminal :=
  bodies.foldl add { symbol }

/-! ## Reading -/

/-- The rules of the non-terminal. -/
def rules (n : NonTerminal) : List Rule :=
  n.alternatives.map fun body => ⟨n.symbol, body⟩

/-- The rules as text, one per line. -/
def text (n : NonTerminal) : List Char :=
  n.rules.flatMap fun r => r.text ++ ['\n']

/-! ## Alternatives after an addition -/

/-- Adding an alternative does not rename the non-terminal. -/
theorem symbol_add (n : NonTerminal) (body : Word) : (n.add body).symbol = n.symbol := by
  unfold add
  split <;> rfl

/-- Adding an alternative that is there changes nothing. -/
theorem add_of_mem {n : NonTerminal} {body : Word} (h : body ∈ n.alternatives) :
    n.add body = n :=
  if_pos (Word.isAmong_iff.2 h)

/-- A new alternative is put at the end. -/
theorem alternatives_add_of_notMem {n : NonTerminal} {body : Word} (h : body ∉ n.alternatives) :
    (n.add body).alternatives = n.alternatives ++ [body] := by
  simp [add, Word.isAmong_iff, h]

/-- Adding an alternative adds exactly that one. -/
theorem mem_alternatives_add {n : NonTerminal} {body v : Word} :
    v ∈ (n.add body).alternatives ↔ v ∈ n.alternatives ∨ v = body := by
  by_cases h : body ∈ n.alternatives
  · rw [add_of_mem h]
    exact ⟨Or.inl, fun hv => hv.elim id fun heq => heq ▸ h⟩
  · rw [alternatives_add_of_notMem h, List.mem_append, List.mem_singleton]

/-- Folding `add` over a list adds exactly its words. -/
theorem mem_alternatives_foldl_add {n : NonTerminal} {bodies : List Word} {v : Word} :
    v ∈ (bodies.foldl add n).alternatives ↔ v ∈ n.alternatives ∨ v ∈ bodies := by
  induction bodies generalizing n with
  | nil => simp
  | cons body rest ih =>
    rw [List.foldl_cons, ih, mem_alternatives_add, List.mem_cons, or_assoc]

/-- The alternatives are those that were given. -/
theorem mem_ofAlternatives {symbol : Symbol} {bodies : List Word} {v : Word} :
    v ∈ (ofAlternatives symbol bodies).alternatives ↔ v ∈ bodies := by
  rw [ofAlternatives, mem_alternatives_foldl_add]
  exact ⟨fun h => h.elim (fun h => absurd h List.not_mem_nil) id, Or.inr⟩

/-- Adding keeps the alternatives free of repetition. -/
theorem nodup_add {n : NonTerminal} (h : n.alternatives.Nodup) (body : Word) :
    (n.add body).alternatives.Nodup := by
  by_cases hmem : body ∈ n.alternatives
  · rw [add_of_mem hmem]
    exact h
  · rw [alternatives_add_of_notMem hmem]
    refine List.nodup_append.2 ⟨h, by simp, ?_⟩
    intro v hv w hw heq
    rw [List.mem_singleton] at hw
    exact hmem (hw ▸ heq ▸ hv)

/-- No alternative is listed twice. -/
theorem nodup_ofAlternatives (symbol : Symbol) (bodies : List Word) :
    (ofAlternatives symbol bodies).alternatives.Nodup := by
  have key : ∀ (l : List Word) (n : NonTerminal), n.alternatives.Nodup →
      (l.foldl add n).alternatives.Nodup := by
    intro l
    induction l with
    | nil => exact fun _ h => h
    | cons body rest ih => exact fun n h => ih _ (nodup_add h body)
  exact key bodies { symbol } List.nodup_nil

/-- The symbol is the one that was given. -/
theorem symbol_ofAlternatives (symbol : Symbol) (bodies : List Word) :
    (ofAlternatives symbol bodies).symbol = symbol := by
  have key : ∀ (l : List Word) (n : NonTerminal), (l.foldl add n).symbol = n.symbol := by
    intro l
    induction l with
    | nil => exact fun _ => rfl
    | cons body rest ih => exact fun n => (ih _).trans (symbol_add n body)
  exact key bodies { symbol }

end NonTerminal

end LL1
