/-
# Passes until nothing changes

FIRST sets, FOLLOW sets and derivation heights are computed by passes over the grammar that are
repeated until a pass changes nothing. The number of passes is counted, the last one included.
-/
namespace LL1

/-! ## Settling -/

/-- A state that a pass leaves unchanged, and the number of passes it took to see that. -/
structure Settled (σ : Type) where
  /-- The state. -/
  state : σ
  /-- The number of passes, counting the one that changed nothing. -/
  passes : Nat

/-- Repeats a pass until it changes nothing, for at most `limit` passes. Beyond the limit the answer
is `none`. -/
def untilSettled? {σ : Type} (unchanged : σ → σ → Bool) (pass : σ → σ) :
    (limit : Nat) → σ → Option (Settled σ)
  | 0, _ => none
  | limit + 1, s =>
    if unchanged s (pass s) then some ⟨pass s, 1⟩
    else
      (untilSettled? unchanged pass limit (pass s)).map fun r => { r with passes := r.passes + 1 }

/-- The settled state, or the state at hand if it does not settle within the limit. -/
def untilSettled {σ : Type} (unchanged : σ → σ → Bool) (pass : σ → σ) (limit : Nat) (s : σ) :
    Settled σ :=
  match untilSettled? unchanged pass limit s with
  | some r => r
  | none => ⟨s, 0⟩

/-- No more passes are made than allowed. -/
theorem passes_le_limit {σ : Type} {unchanged : σ → σ → Bool} {pass : σ → σ} {limit : Nat} {s : σ}
    {r : Settled σ} (h : untilSettled? unchanged pass limit s = some r) : r.passes ≤ limit := by
  induction limit generalizing s r with
  | zero => cases h
  | succ limit ih =>
    unfold untilSettled? at h
    split at h
    · cases h
      exact Nat.le_add_left 1 limit
    · obtain ⟨q, hq, rfl⟩ := Option.map_eq_some_iff.1 h
      exact Nat.succ_le_succ (ih hq)

end LL1
