/-
# Nullability

A rule is nullable if its right-hand side derives the empty word. Rules refer to each other in
cycles, so an evaluation that meets a rule already under evaluation is cut there. A negative answer
that rests on a cut holds for the evaluation at hand only and is not remembered; every other answer
is marked in the memo. Queries therefore take a memo and give back the memo with what they learned.
-/
import LL1.Analysis.Memo
import LL1.Grammar.Basic

namespace LL1

/-! ## Evaluation -/

/-- The answer of an evaluation. -/
structure Evaluation where
  /-- Whether the empty word was derived. -/
  nullable : Bool
  /-- Whether a rule under evaluation was met again. -/
  cut : Bool
  deriving DecidableEq, Repr

/-- The mark that an evaluation leaves on its rule. -/
def Evaluation.mark (e : Evaluation) : Mark :=
  if e.nullable then .nullable else if e.cut then .unknown else .notNullable

/-- Evaluates the alternatives of `head` in turn until one is nullable. Marks are consulted first,
and `evaluate` is asked for the rules that have none. -/
def evaluateAlternatives (evaluate : Rule → Memo → Option (Evaluation × Memo)) (head : Symbol) :
    List Word → (cut : Bool) → Memo → Option (Evaluation × Memo)
  | [], cut, memo => some (⟨false, cut⟩, memo)
  | body :: rest, cut, memo =>
    match memo.mark ⟨head, body⟩ with
    | .nullable => some (⟨true, false⟩, memo)
    | .notNullable => evaluateAlternatives evaluate head rest cut memo
    | .inProgress => evaluateAlternatives evaluate head rest true memo
    | .unknown =>
      match evaluate ⟨head, body⟩ memo with
      | none => none
      | some (e, memo) =>
        if e.nullable then some (e, memo)
        else evaluateAlternatives evaluate head rest (cut || e.cut) memo

namespace Grammar

/-- Evaluates the non-terminals of a word in turn until one is not nullable. -/
def evaluateWord (g : Grammar)
    (evaluate : NonTerminal → Memo → Option (Evaluation × Memo)) :
    Word → (cut : Bool) → Memo → Option (Evaluation × Memo)
  | [], cut, memo => some (⟨true, cut⟩, memo)
  | s :: rest, cut, memo =>
    match g.find? s with
    | none => g.evaluateWord evaluate rest cut memo
    | some n =>
      match evaluate n memo with
      | none => none
      | some (e, memo) =>
        if e.nullable then g.evaluateWord evaluate rest (cut || e.cut) memo
        else some (⟨false, cut || e.cut⟩, memo)

/-- Whether a word holds a symbol, other than epsilon, that the grammar does not define. -/
def hasTerminal (g : Grammar) (w : Word) : Bool :=
  w.any fun s => s != epsilon && !g.declares s

/-- Evaluates a rule, with evaluations of further rules nested inside. The answer is `none` if they
would be nested deeper than `depth`, or if a rule under evaluation would be evaluated again. -/
def evaluate (g : Grammar) : (depth : Nat) → Rule → Memo → Option (Evaluation × Memo)
  | 0, _, _ => none
  | depth + 1, r, memo =>
    if memo.mark r = .inProgress then none
    else if g.hasTerminal r.body then some (⟨false, false⟩, memo.set r .notNullable)
    else
      let evaluateHead := fun (n : NonTerminal) (memo : Memo) =>
        evaluateAlternatives (g.evaluate depth) n.symbol n.alternatives false memo
      match g.evaluateWord evaluateHead r.body false (memo.set r .inProgress) with
      | none => none
      | some (e, memo) => some (e, memo.set r e.mark)

/-! ## Queries -/

/-- The answer of an evaluation, with the memo it leaves behind. -/
def concluded (memo : Memo) : Option (Evaluation × Memo) → Bool × Memo
  | some (e, memo) => (e.nullable, memo)
  | none => (false, memo)

/-- Finds out by evaluation whether a non-terminal derives the empty word. -/
def evaluatedHead (g : Grammar) (n : NonTerminal) (memo : Memo) : Bool × Memo :=
  concluded memo
    (evaluateAlternatives (g.evaluate g.rules.length) n.symbol n.alternatives false memo)

/-- Whether a non-terminal derives the empty word. It is evaluated unless the answer is at hand. -/
def nullableHead (g : Grammar) (n : NonTerminal) (memo : Memo) : Bool × Memo :=
  match memo.answer? n with
  | some answer => (answer, memo)
  | none =>
    match g.evaluatedHead n memo with
    | (answer, after) => (answer, memo.learn after n answer)

/-- Whether the right-hand side of a rule derives the empty word. -/
def nullableRule (g : Grammar) (r : Rule) (memo : Memo) : Bool × Memo :=
  match memo.mark r with
  | .nullable => (true, memo)
  | .notNullable => (false, memo)
  | _ => concluded memo (g.evaluate g.rules.length r memo)

/-- Whether a word derives the empty word. The symbols are looked at from the left until one of them
does not vanish. -/
def nullableWord (g : Grammar) : Word → Memo → Bool × Memo
  | [], memo => (true, memo)
  | s :: rest, memo =>
    match g.find? s with
    | none => if s = epsilon then g.nullableWord rest memo else (false, memo)
    | some n =>
      match g.nullableHead n memo with
      | (true, memo) => g.nullableWord rest memo
      | (false, memo) => (false, memo)

/-- Asks for every non-terminal in order of declaration, and keeps what is learned. -/
def learnNullable (g : Grammar) (memo : Memo) : Memo :=
  g.nonTerminals.foldl (fun memo n => (g.nullableHead n memo).2) memo

end Grammar

end LL1
