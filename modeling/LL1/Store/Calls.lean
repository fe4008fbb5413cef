/-
# Calls

A call changes a stored grammar and may fail on the way. What it is made of is done step by step on the
stored grammar itself, and a step that fails ends the call and leaves behind what the steps before it
have made. The heads are rewritten on copies that are written back at the end, so nothing has been
changed when the rewriting fails.
-/
import LL1.Store.Worklist

namespace LL1

/-! ## Writing sets into heads -/

/-- Writes the sets of a family into the heads under their symbols. -/
def HeadMap.writeSets (m : HeadMap) (write : SymbolSet → Head → Head) (f : SetFamily) : HeadMap :=
  f.entries.foldl (fun m e => m.modify e.1 (write e.2)) m

/-- The head with another FIRST set. -/
def Head.setFirst (a : SymbolSet) (h : Head) : Head :=
  { h with first := a }

/-- The head with another FOLLOW set. -/
def Head.setFollow (a : SymbolSet) (h : Head) : Head :=
  { h with follow := a }

namespace Store

/-! ## What cannot fail -/

/-- Computes the FIRST sets and writes them into the heads. Old marks are forgotten, and every
non-terminal is asked about once before. -/
def solveFirst (s : Store) : Store :=
  let first := (s.grammar.firstSets (s.grammar.learnNullable {})).state
  { s with heads := s.heads.writeSets Head.setFirst first.sets, memo := first.memo }

/-- Computes the FOLLOW sets from the FIRST sets in the heads and writes them into the heads. -/
def solveFollow (s : Store) : Store :=
  let follow := (s.grammar.followSets s.first s.memo).state
  { s with heads := s.heads.writeSets Head.setFollow follow.sets, memo := follow.memo }

/-- Computes the FIRST and FOLLOW sets. -/
def solve (s : Store) : Store :=
  s.solveFirst.solveFollow

/-- Fills a table from the sets in the heads and keeps it. -/
def keepTable (s : Store) : Store :=
  match s.grammar.predict s.first s.follow s.memo with
  | ⟨prediction, memo⟩ => { s with prediction, memo }

/-! ## Calls -/

/-- Something that is done on a stored grammar, and that may fail. -/
abbrev Call := ExceptT RewriteFailure (StateM Store)

/-- Makes a call: how it ends, and the stored grammar that it leaves behind. -/
def call {α : Type} (s : Store) (c : Call α) : Except RewriteFailure α × Store :=
  (c.run.run s).run

/-- Removes left factoring and immediate left recursion. The copies are written back when all heads are
rewritten, and then the terminals are looked for again. -/
def eliminate : Call Unit := do
  let w ← MonadExcept.ofExcept (Worklist.ofStore (← get)).run
  modify fun s => { s with heads := w.heads, nonTerminals := w.order, memo := s.memo.marksOnly }
  modify refreshTerminals

/-- Prepares the grammar for the recogniser: it is rewritten, its sets are computed and its table is
filled. -/
def process : Call Unit := do
  eliminate
  modify solve
  modify keepTable

variable {s t : Store} {e : RewriteFailure}

/-- A call goes on where its first part left off, unless that part failed. -/
theorem call_bind {α β : Type} (s : Store) (c : Call α) (f : α → Call β) :
    s.call (c >>= f) =
      match s.call c with
      | (.ok a, s) => s.call (f a)
      | (.error e, s) => (.error e, s) := by
  show (ExceptT.bindCont f (s.call c).1 (s.call c).2 : Except RewriteFailure β × Store) = _
  rcases s.call c with ⟨_ | _, _⟩ <;> rfl

/-- A change is made, and does not fail. -/
theorem call_modify (s : Store) (f : Store → Store) : s.call (modify f) = (.ok (), f s) := rfl

/-! ## What a call leaves behind -/

/-- Where the heads cannot be rewritten, nothing is changed. -/
theorem call_eliminate_of_error (h : (Worklist.ofStore s).run = .error e) :
    s.call eliminate = (.error e, s) := by
  show s.call (get >>= fun u => MonadExcept.ofExcept (Worklist.ofStore u).run >>= _) = _
  rw [call_bind]
  show s.call (MonadExcept.ofExcept (Worklist.ofStore s).run >>= _) = _
  rw [call_bind, h]
  rfl

/-- Where the heads are rewritten, they are written back. -/
theorem call_eliminate_of_ok {w : Worklist} (h : (Worklist.ofStore s).run = .ok w) :
    s.call eliminate =
      (.ok (), refreshTerminals
        { s with heads := w.heads, nonTerminals := w.order, memo := s.memo.marksOnly }) := by
  show s.call (get >>= fun u => MonadExcept.ofExcept (Worklist.ofStore u).run >>= _) = _
  rw [call_bind]
  show s.call (MonadExcept.ofExcept (Worklist.ofStore s).run >>= _) = _
  rw [call_bind, h]
  rfl

/-- A rewriting that fails leaves the stored grammar as it was. -/
theorem eliminate_leaves (h : (s.call eliminate).1 = .error e) : (s.call eliminate).2 = s := by
  cases hrun : (Worklist.ofStore s).run with
  | error e' => rw [call_eliminate_of_error hrun]
  | ok w =>
    rw [call_eliminate_of_ok hrun] at h
    cases h

/-- A preparation goes on from the rewritten grammar. -/
theorem call_process (s : Store) :
    s.call process =
      match s.call eliminate with
      | (.ok _, s) => (.ok (), s.solve.keepTable)
      | (.error e, s) => (.error e, s) := by
  rw [process, call_bind]
  rcases s.call eliminate with ⟨_ | _, u⟩
  · rfl
  · show u.call (modify solve >>= fun _ => modify keepTable) = _
    rw [call_bind, call_modify]
    exact call_modify u.solve keepTable

/-- A preparation that fails leaves the stored grammar as it was. -/
theorem process_leaves (h : (s.call process).1 = .error e) : (s.call process).2 = s := by
  rw [call_process] at h ⊢
  rcases hcall : s.call eliminate with ⟨_ | _, u⟩
  · rw [hcall] at h
    have hleft := eliminate_leaves (congrArg Prod.fst hcall)
    rwa [hcall] at hleft
  · rw [hcall] at h
    cases h

end Store

end LL1
