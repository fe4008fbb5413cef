/-
# The worklist of the rewriting

The heads of a stored grammar are rewritten on copies of the map and of the list of symbols. The
symbols that are still to be visited wait in a queue. A visit takes a head out of the map, and puts back
what it is rewritten to. A fresh non-terminal enters the map, and the list right behind the symbol it was
split from, and both symbols go to the front of the queue.
-/
import LL1.Store.Basic

namespace LL1

/-! ## One head -/

/-- What a step puts in the place of a head. -/
inductive HeadRewrite where
  /-- One head. -/
  | single (h : Head)
  /-- The head, which now refers to a fresh one, and the fresh one. -/
  | split (head fresh : Head)
  deriving DecidableEq, Repr

/-- Rewrites a head. At most one symbol is drawn. -/
def Head.rewrite (h : Head) (supply : Supply) : Except RewriteFailure HeadRewrite × Supply :=
  match h.plan.carryOut h.symbol supply with
  | (.error e, supply) => (.error e, supply)
  | (.ok (.single n), supply) => (.ok (.single (h.replacedBy n)), supply)
  | (.ok (.split head fresh), supply) =>
    (.ok (.split (.ofNonTerminal head) (.ofNonTerminal fresh)), supply)

/-! ## The worklist -/

/-- The copies on which the heads are rewritten, and what is still to be done. -/
structure Worklist where
  /-- The heads. -/
  heads : HeadMap
  /-- The symbols in order of declaration. -/
  order : List Symbol
  /-- The symbols that are still to be visited. -/
  queue : List Symbol
  /-- The fresh symbols. -/
  supply : Supply
  deriving Repr

namespace Worklist

/-- The worklist of a stored grammar: everything is still to be visited, and the symbols that are not
declared are fresh. -/
def ofStore (s : Store) : Worklist where
  heads := s.heads
  order := s.nonTerminals
  queue := s.nonTerminals
  supply := .outside s.nonTerminals

/-- Where a fresh symbol goes: behind the given symbol, or to the end if that is not declared. -/
def positionBehind (order : List Symbol) (s : Symbol) : Nat :=
  match order.idxOf? s with
  | none => order.length
  | some i => i + 1

/-- Visits a symbol that was taken from the queue. -/
def visit (w : Worklist) (s : Symbol) : Except RewriteFailure Worklist :=
  match w.heads.get? s with
  | none => .ok w
  | some h =>
    let heads := w.heads.erase s
    match h.rewrite w.supply with
    | (.error e, _) => .error e
    | (.ok (.single h), supply) => .ok { w with heads := heads.insert s h, supply }
    | (.ok (.split h fresh), supply) =>
      .ok
        { heads := (heads.insert s h).insert fresh.symbol fresh
          order := w.order.insertIdx (positionBehind w.order s) fresh.symbol
          queue := s :: fresh.symbol :: w.queue
          supply }

/-- How much is still to be done: a fresh symbol that is drawn leads to one more visit. -/
def work (w : Worklist) : Nat :=
  2 * w.supply.length + w.queue.length

/-- A visit leaves no more work than there was without the symbol that is visited. -/
theorem work_visit {w v : Worklist} {s : Symbol} (h : w.visit s = .ok v) : v.work ≤ w.work := by
  unfold visit at h
  cases hget : w.heads.get? s with
  | none =>
    rw [hget] at h
    cases h
    exact Nat.le_refl _
  | some k =>
    rw [hget] at h
    dsimp only [Head.rewrite] at h
    cases hplan : k.plan with
    | settle n dropped =>
      rw [hplan] at h
      cases h
      exact Nat.le_refl _
    | refuse =>
      rw [hplan] at h
      cases h
    | divide d =>
      cases hsupply : w.supply with
      | nil =>
        rw [hplan, hsupply] at h
        cases h
      | cons fresh rest =>
        rw [hplan, hsupply] at h
        cases h
        have hlength : w.supply.length = rest.length + 1 := congrArg List.length hsupply
        show 2 * rest.length + (w.queue.length + 1 + 1) ≤ 2 * w.supply.length + w.queue.length
        omega

/-- Every symbol that is taken from the queue leaves less work. -/
theorem work_lt_of_visit {w v : Worklist} {s : Symbol} {queue : List Symbol}
    (hqueue : w.queue = s :: queue) (h : { w with queue }.visit s = .ok v) : v.work < w.work := by
  refine Nat.lt_of_le_of_lt (work_visit h) ?_
  have hlength : w.queue.length = queue.length + 1 := congrArg List.length hqueue
  show 2 * w.supply.length + queue.length < 2 * w.supply.length + w.queue.length
  omega

/-- Visits the symbols of the queue until it is empty. -/
def run (w : Worklist) : Except RewriteFailure Worklist :=
  match hqueue : w.queue with
  | [] => .ok w
  | s :: queue =>
    match hvisit : visit { w with queue } s with
    | .error e => .error e
    | .ok v =>
      have := work_lt_of_visit hqueue hvisit
      v.run
termination_by w.work

/-- Nothing is left to be done when the queue is empty. -/
theorem run_of_queue_eq_nil {w : Worklist} (h : w.queue = []) : w.run = .ok w := by
  rw [run]
  split
  · rfl
  · next hqueue => rw [h] at hqueue; cases hqueue

/-- The front of the queue is visited first. -/
theorem run_of_queue_eq_cons {w : Worklist} {s : Symbol} {queue : List Symbol}
    (h : w.queue = s :: queue) : w.run = ({ w with queue }.visit s).bind run := by
  rw [run]
  split
  · next hqueue => rw [h] at hqueue; cases hqueue
  · next t rest hqueue =>
    obtain ⟨rfl, rfl⟩ := List.cons.inj (h.symm.trans hqueue)
    split
    · next e hvisit => rw [hvisit]; rfl
    · next v hvisit =>
      show v.run = _
      rw [hvisit]
      rfl

end Worklist

end LL1
