/-
# Fresh symbols by search

The symbols of a supply can be found without a list of them: all characters are gone through from
the lowest on, the first upper-case one that is not in use is taken, and it is in use from then on.
The next search passes over it and stops at the next symbol of the supply. So a pool that searches
again for every symbol gives away the upper-case characters outside those that were in use at first,
in ascending order and each once, and when they have run out it stays as it is.
-/
import LL1.Proofs.Symbol.Supply

namespace LL1

/-! ## Searching -/

/-- All characters, in ascending order. -/
def allCharacters : List Char :=
  ((List.range 0x110000).filter fun code => decide code.isValidChar).map Char.ofNat

/-- The first upper-case character, from the lowest one on, that is not in use. -/
def searchUnused (used : List Symbol) : Option Symbol :=
  allCharacters.find? fun c => isUppercase c && !used.contains c

/-- No character is left out. -/
theorem mem_allCharacters (c : Char) : c ∈ allCharacters := by
  refine List.mem_map.2 ⟨c.toNat, List.mem_filter.2 ⟨?_, decide_eq_true c.valid⟩, ?_⟩
  · have hvalid : c.toNat.isValidChar := c.valid
    rw [List.mem_range]
    rcases hvalid with h | ⟨-, h⟩ <;> omega
  · exact Char.ofNat_toNat c

/-- The characters come in ascending order. -/
theorem pairwise_allCharacters : allCharacters.Pairwise (· < ·) :=
  pairwise_map_ofNat (fun _ hcode => of_decide_eq_true (List.mem_filter.1 hcode).2)
    (List.pairwise_lt_range.filter _)

/-- Ascending lists with the same members are equal. -/
theorem eq_of_ascending {l l' : List Char} (h : l.Pairwise (· < ·)) (h' : l'.Pairwise (· < ·))
    (hmem : ∀ c, c ∈ l ↔ c ∈ l') : l = l' := by
  have hperm : l.Perm l' := (List.perm_ext_iff_of_nodup (h.imp fun hlt => Char.ne_of_lt hlt)
    (h'.imp fun hlt => Char.ne_of_lt hlt)).2 hmem
  exact hperm.eq_of_pairwise (fun a b _ _ hab hba => absurd hab (Char.lt_asymm hba)) h h'

/-- The symbols of a supply come in ascending order. -/
theorem pairwise_outside (used : List Symbol) : (Supply.outside used).Pairwise (· < ·) :=
  pairwise_uppercaseCharacters.filter _

/-- What the search looks for are the symbols of the supply. -/
theorem filter_allCharacters (used : List Symbol) :
    (allCharacters.filter fun c => isUppercase c && !used.contains c) = Supply.outside used := by
  refine eq_of_ascending (pairwise_allCharacters.filter _) (pairwise_outside used) fun c => ?_
  rw [List.mem_filter, mem_outside, mem_uppercaseCharacters]
  simp [mem_allCharacters]

/-- The search finds what is drawn first from the supply. -/
theorem searchUnused_eq (used : List Symbol) : searchUnused used = freshNonTerminal used := by
  rw [searchUnused, ← List.head?_filter, filter_allCharacters, freshNonTerminal]
  cases Supply.outside used <;> rfl

/-! ## The pool -/

/-- The symbols that are in use or were given away. -/
structure Pool where
  /-- The symbols. -/
  used : List Symbol
  deriving DecidableEq, Repr

namespace Pool

/-- What a pool does with the result of a search: a symbol is given away and counts as used from
then on. If none was found the pool stays as it is. -/
def give (p : Pool) : Option Symbol → Option Symbol × Pool
  | none => (none, p)
  | some s => (some s, ⟨s :: p.used⟩)

/-- Searches for an unused symbol and gives it away. -/
def next (p : Pool) : Option Symbol × Pool :=
  p.give (searchUnused p.used)

/-- The answers of a number of calls in a row, and the pool after them. -/
def nextMany (p : Pool) : (count : Nat) → List (Option Symbol) × Pool
  | 0 => ([], p)
  | count + 1 => (p.next.1 :: (p.next.2.nextMany count).1, (p.next.2.nextMany count).2)

variable {p : Pool}

/-- A symbol that is given away leaves the rest of the supply. -/
theorem next_of_outside_eq_cons {s : Symbol} {rest : Supply}
    (h : Supply.outside p.used = s :: rest) :
    p.next = (some s, ⟨s :: p.used⟩) ∧ Supply.outside (s :: p.used) = rest := by
  constructor
  · rw [next, searchUnused_eq, freshNonTerminal, h, draw_cons, give]
  · have hascending := pairwise_outside p.used
    rw [h, List.pairwise_cons] at hascending
    refine eq_of_ascending (pairwise_outside _) hascending.2 fun c => ?_
    have hmem : c ∈ Supply.outside p.used ↔ c = s ∨ c ∈ rest := by rw [h, List.mem_cons]
    rw [mem_outside] at hmem ⊢
    rw [List.mem_cons, not_or]
    constructor
    · rintro ⟨hc, hne, hunused⟩
      exact (hmem.1 ⟨hc, hunused⟩).resolve_left hne
    · intro hc
      obtain ⟨hupper, hunused⟩ := hmem.2 (Or.inr hc)
      exact ⟨hupper, (Char.ne_of_lt (hascending.1 c hc)).symm, hunused⟩

/-- When the supply has run out, nothing is given away and nothing changes. -/
theorem next_of_outside_eq_nil (h : Supply.outside p.used = []) : p.next = (none, p) := by
  rw [next, searchUnused_eq, freshNonTerminal, h, draw_nil, give]

/-- A number of calls give what is drawn from the supply, and leave what is left of it. -/
theorem nextMany_eq (p : Pool) (count : Nat) :
    (p.nextMany count).1 = (Supply.outside p.used).drawMany count ∧
      Supply.outside (p.nextMany count).2.used = (Supply.outside p.used).drop count := by
  induction count generalizing p with
  | zero => exact ⟨rfl, rfl⟩
  | succ count ih =>
    obtain ⟨hanswers, hleft⟩ := ih p.next.2
    rw [nextMany, Supply.drawMany]
    cases hsupply : Supply.outside p.used with
    | nil =>
      rw [next_of_outside_eq_nil hsupply, hsupply] at hanswers hleft
      rw [next_of_outside_eq_nil hsupply, draw_nil]
      exact ⟨congrArg (none :: ·) hanswers, by rw [hleft, List.drop_nil, List.drop_nil]⟩
    | cons s rest =>
      obtain ⟨hnext, hrest⟩ := next_of_outside_eq_cons hsupply
      rw [hnext, hrest] at hanswers hleft
      rw [hnext, draw_cons]
      exact ⟨congrArg (some s :: ·) hanswers, hleft⟩

end Pool

/-- What is drawn from a supply are its symbols in turn, and nothing more after the last one. -/
theorem drawMany_eq (supply : Supply) (count : Nat) :
    supply.drawMany count =
      (supply.take count).map some ++ List.replicate (count - supply.length) none := by
  induction count generalizing supply with
  | zero => simp [Supply.drawMany]
  | succ count ih =>
    rw [Supply.drawMany]
    cases supply with
    | nil =>
      rw [draw_nil, ih, List.take_nil, List.take_nil]
      rfl
    | cons s rest =>
      rw [draw_cons, ih, List.take_succ_cons, List.length_cons, Nat.succ_sub_succ]
      rfl

namespace Pool

/-- Whatever is in use at first, a number of calls give the lowest upper-case characters that are
not, in ascending order and each once. Draws from the supply give the same. Once all of them are
given away, every call finds nothing and leaves the pool as it is. -/
theorem nextMany_exact (used : List Symbol) (count : Nat) :
    ∃ unused : List Symbol, unused.Pairwise (· < ·) ∧
      (∀ c, c ∈ unused ↔ isUppercase c = true ∧ c ∉ used) ∧
      ((Pool.mk used).nextMany count).1 =
        (unused.take count).map some ++ List.replicate (count - unused.length) none ∧
      (Supply.outside used).drawMany count = ((Pool.mk used).nextMany count).1 ∧
      (unused.length ≤ count →
        ((Pool.mk used).nextMany count).2.next = (none, ((Pool.mk used).nextMany count).2)) := by
  obtain ⟨hanswers, hleft⟩ := nextMany_eq (Pool.mk used) count
  refine ⟨Supply.outside used, pairwise_outside used, fun c => ?_, ?_, hanswers.symm, fun hle => ?_⟩
  · rw [mem_outside, mem_uppercaseCharacters]
  · rw [hanswers, drawMany_eq]
  · apply next_of_outside_eq_nil
    rw [hleft, List.drop_of_length_le hle]

end Pool

end LL1
