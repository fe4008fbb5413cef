/-
# What a division costs

Rewriting can make a grammar longer: unrolling appends the fresh symbol to every alternative, and a
factored ending that is empty is spelled with an epsilon. A non-terminal is therefore weighed by
what can still happen to it. The alternatives that begin like another one are counted once, as they
are still to be factored, and the alternatives of a left recursive non-terminal are counted again,
since after an unrolling all of them can be factored. They are counted more often if there are
epsilons to take away, because this can uncover left recursion. Any division makes two non-terminals
that weigh less than the divided one.
-/
import LL1.Proofs.Rewriting.NormalForm
import Mathlib.Algebra.GroupWithZero.Nat
import Mathlib.Algebra.Order.BigOperators.Group.List
import Mathlib.Algebra.Order.Group.Nat
import Mathlib.Data.List.Nodup

namespace LL1

/-! ## Lengths -/

/-- The number of symbols in some words. -/
def totalLength (ws : List Word) : Nat :=
  (ws.map List.length).sum

section TotalLength

variable {v w : Word} {ws us : List Word}

theorem totalLength_cons : totalLength (w :: ws) = w.length + totalLength ws := by
  rw [totalLength, List.map_cons, List.sum_cons]
  rfl

theorem totalLength_append : totalLength (ws ++ us) = totalLength ws + totalLength us := by
  rw [totalLength, List.map_append, List.sum_append]
  rfl

/-- The order does not matter. -/
theorem totalLength_perm (h : ws.Perm us) : totalLength ws = totalLength us :=
  (h.map List.length).sum_eq

/-- Words that are left out count no longer. -/
theorem totalLength_le_of_sublist (h : ws.Sublist us) : totalLength ws ≤ totalLength us :=
  (h.map List.length).sum_le_sum fun _ _ => Nat.zero_le _

/-- Different words of a list are no longer than the list. -/
theorem totalLength_le_of_subset (hws : ws.Nodup) (h : ws ⊆ us) :
    totalLength ws ≤ totalLength us := by
  obtain ⟨l, hperm, hsublist⟩ := List.subperm_of_subset hws h
  rw [← totalLength_perm hperm]
  exact totalLength_le_of_sublist hsublist

theorem length_le_totalLength (h : w ∈ ws) : w.length ≤ totalLength ws :=
  List.le_sum_of_mem (List.mem_map_of_mem h)

/-- Words that are changed one by one grow as much as each of them. -/
theorem totalLength_map_le {f : Word → Word} {k : Nat} (h : ∀ w ∈ ws, (f w).length ≤ k * w.length) :
    totalLength (ws.map f) ≤ k * totalLength ws := by
  induction ws with
  | nil => exact Nat.zero_le _
  | cons w rest ih =>
    rw [List.forall_mem_cons] at h
    rw [List.map_cons, totalLength_cons, totalLength_cons, Nat.mul_add]
    exact Nat.add_le_add h.1 (ih h.2)

/-- A common stem counts once for each word. -/
theorem totalLength_map_append (ws : List Word) (v : Word) :
    totalLength (ws.map fun w => v ++ w) = ws.length * v.length + totalLength ws := by
  induction ws with
  | nil => rw [List.map_nil, List.length_nil, Nat.zero_mul, Nat.zero_add]
  | cons w rest ih =>
    rw [List.map_cons, totalLength_cons, totalLength_cons, ih, List.length_append, List.length_cons,
      Nat.succ_mul]
    omega

/-- Spelling the empty word takes one symbol. -/
theorem totalLength_map_spelled (ws : List Word) :
    totalLength (ws.map Factoring.spelled) = totalLength ws + ws.count [] := by
  induction ws with
  | nil => rfl
  | cons w rest ih =>
    rw [List.map_cons, totalLength_cons, totalLength_cons, ih, List.count_cons]
    cases w with
    | nil => simp [Factoring.spelled]; omega
    | cons s w => simp [Factoring.spelled]; omega

end TotalLength

/-! ## Weights -/

namespace NonTerminal

/-- The number of symbols in the alternatives. -/
def size (n : NonTerminal) : Nat :=
  totalLength n.alternatives

/-- Whether an alternative begins like another one, and not with the non-terminal itself. -/
def isCrowded (n : NonTerminal) (v : Word) : Bool :=
  n.alternatives.any fun w => decide (w ≠ v) && beginAlike n.symbol v w

/-- The alternatives that are still to be factored. -/
def crowd (n : NonTerminal) : List Word :=
  n.alternatives.filter n.isCrowded

/-- Whether no alternative holds an epsilon. -/
def isEpsilonFree (n : NonTerminal) : Bool :=
  n.alternatives.all fun v => decide (epsilon ∉ v)

/-- How often the alternatives are counted for left recursion. -/
def burden (n : NonTerminal) : Nat :=
  if n.isLeftRecursive then if n.isEpsilonFree then 2 else 6 else 0

/-- The weight of a non-terminal. -/
def weight (n : NonTerminal) : Nat :=
  totalLength n.crowd + n.burden * n.size

variable {n : NonTerminal} {v : Word}

theorem mem_crowd_iff : v ∈ n.crowd ↔
    v ∈ n.alternatives ∧
      ∃ w ∈ n.alternatives, w ≠ v ∧ v.head? = w.head? ∧ v.head? ≠ some n.symbol := by
  simp only [crowd, isCrowded, List.mem_filter, List.any_eq_true, Bool.and_eq_true,
    decide_eq_true_eq, beginAlike_iff]

theorem isEpsilonFree_iff : n.isEpsilonFree = true ↔ ∀ v ∈ n.alternatives, epsilon ∉ v := by
  simp only [isEpsilonFree, List.all_eq_true, decide_eq_true_eq]

/-- A non-terminal is left recursive if an alternative begins with it. -/
theorem isLeftRecursive_iff :
    n.isLeftRecursive = true ↔ ∃ v ∈ n.alternatives, v.head? = some n.symbol := by
  simp only [isLeftRecursive, startsWithSelf, List.any_eq_true, decide_eq_true_eq]

theorem totalLength_crowd_le (n : NonTerminal) : totalLength n.crowd ≤ n.size :=
  totalLength_le_of_sublist List.filter_sublist

/-- Without left recursion only the crowd counts. -/
theorem burden_of_not_isLeftRecursive (h : n.isLeftRecursive = false) : n.burden = 0 := by
  rw [burden, h]
  exact if_neg Bool.false_ne_true

/-- Without left recursion a non-terminal weighs no more than its symbols. -/
theorem weight_le_size (h : n.isLeftRecursive = false) : n.weight ≤ n.size := by
  rw [weight, burden_of_not_isLeftRecursive h, Nat.zero_mul]
  exact n.totalLength_crowd_le

/-- Epsilons are the heaviest burden. -/
theorem burden_le (n : NonTerminal) : n.burden ≤ 6 := by
  unfold burden
  split
  · split <;> omega
  · omega

/-- Without epsilons the burden is lighter. -/
theorem burden_le_of_isEpsilonFree (h : n.isEpsilonFree = true) : n.burden ≤ 2 := by
  rw [burden, h]
  split
  · exact Nat.le_of_eq (if_pos rfl)
  · omega

/-- A non-terminal weighs at most seven times its symbols. -/
theorem weight_le (n : NonTerminal) : n.weight ≤ 7 * n.size := by
  have hcrowd := n.totalLength_crowd_le
  have hburden := Nat.mul_le_mul_right n.size n.burden_le
  unfold weight
  omega

/-- A non-terminal that is recursive, or holds epsilons, only if another one is has no heavier
burden. -/
theorem burden_mono {k : NonTerminal}
    (hrecursive : k.isLeftRecursive = true → n.isLeftRecursive = true)
    (hfree : n.isEpsilonFree = true → k.isEpsilonFree = true) : k.burden ≤ n.burden := by
  cases hk : k.isLeftRecursive with
  | false =>
    rw [burden_of_not_isLeftRecursive hk]
    exact Nat.zero_le _
  | true =>
    unfold burden
    rw [hk, hrecursive hk, if_pos rfl, if_pos rfl]
    cases hn : n.isEpsilonFree with
    | false => split <;> simp
    | true => rw [hfree hn]

/-- Alternatives that are given take no more symbols than they have. -/
theorem size_ofAlternatives_le (s : Symbol) (bodies : List Word) :
    (ofAlternatives s bodies).size ≤ totalLength bodies :=
  totalLength_le_of_subset (nodup_ofAlternatives s bodies) fun _ h => mem_ofAlternatives.1 h

end NonTerminal

end LL1
