/-
# The weight of an unrolling

After an unrolling every alternative may begin like another one, but no epsilon is left. The left
recursion is gone, unless it stood behind an epsilon.
-/
import LL1.Proofs.Rewriting.Weight

namespace LL1

variable {n : NonTerminal} {u : Unrolling} {x : Symbol}

/-- The alternatives are the bases and the left recursive ones. -/
theorem size_eq_bases_add (n : NonTerminal) :
    n.size = totalLength n.baseAlternatives +
      totalLength (n.alternatives.filter n.startsWithSelf) := by
  have hperm := List.filter_append_perm n.startsWithSelf n.alternatives
  rw [NonTerminal.size, ← totalLength_perm hperm, totalLength_append, Nat.add_comm]
  rfl

/-- The unrolled non-terminal is at most twice as long as the bases. -/
theorem size_head_unrolling_le (hne : ∀ v ∈ n.alternatives, v ≠ []) (h : n.recursion = .proper u)
    (x : Symbol) : (u.head x).size ≤ 2 * totalLength n.baseAlternatives := by
  have hsize : (u.head x).size ≤ totalLength (u.bases.map fun w => w ++ [x]) :=
    NonTerminal.size_ofAlternatives_le u.symbol _
  refine hsize.trans ?_
  rw [eq_unrolling_of_recursion h, List.map_map]
  refine totalLength_map_le fun w hw => ?_
  have hpos : 0 < w.length := List.length_pos_iff.2 (hne w (mem_baseAlternatives.1 hw).1)
  have hle : (withoutEpsilon w).length ≤ w.length := List.length_filter_le _ _
  rw [Function.comp_apply, List.length_append, List.length_singleton]
  omega

/-- The fresh non-terminal is as long as the left recursive alternatives, but for the epsilon. -/
theorem size_tail_unrolling_le (h : n.recursion = .proper u) (x : Symbol) :
    (u.tail x).size ≤ totalLength (n.alternatives.filter n.startsWithSelf) + 1 := by
  have hsize : (u.tail x).size ≤ totalLength ((u.repeats.map fun w => w ++ [x]) ++ [[epsilon]]) :=
    NonTerminal.size_ofAlternatives_le x _
  refine hsize.trans ?_
  rw [totalLength_append]
  refine Nat.add_le_add_right ?_ 1
  have hrepeats : u.repeats.Sublist n.continuations := by
    rw [eq_unrolling_of_recursion h]
    exact List.filter_sublist
  refine (totalLength_le_of_sublist (hrepeats.map _)).trans ?_
  rw [NonTerminal.continuations, List.map_map, ← Nat.one_mul (totalLength (List.filter _ _))]
  refine totalLength_map_le fun w hw => ?_
  obtain ⟨rest, rfl⟩ := startsWithSelf_iff.1 (List.mem_filter.1 hw).2
  have hle : (withoutEpsilon rest).length ≤ rest.length := List.length_filter_le _ _
  rw [Function.comp_apply, List.length_append, List.length_singleton, List.length_cons,
    List.tail_cons]
  omega

/-- A repeat is not empty. -/
theorem ne_nil_of_mem_repeats (h : n.recursion = .proper u) {v : Word} (hv : v ∈ u.repeats) :
    v ≠ [] := by
  obtain rfl := eq_unrolling_of_recursion h
  simpa using (List.mem_filter.1 hv).2

/-- Some left recursive alternative goes on behind the non-terminal. -/
theorem two_le_totalLength_of_recursion (h : n.recursion = .proper u) :
    2 ≤ totalLength (n.alternatives.filter n.startsWithSelf) := by
  obtain ⟨v, hv⟩ := List.exists_mem_of_ne_nil _ (ne_nil_of_recursion h).2
  obtain ⟨rest, hrest, rfl⟩ := exists_of_mem_repeats h hv
  have hmem : n.symbol :: rest ∈ n.alternatives.filter n.startsWithSelf :=
    List.mem_filter.2 ⟨hrest, startsWithSelf_iff.2 ⟨rest, rfl⟩⟩
  have hpos : 0 < (withoutEpsilon rest).length :=
    List.length_pos_iff.2 (ne_nil_of_mem_repeats h hv)
  have hle : (withoutEpsilon rest).length ≤ rest.length := List.length_filter_le _ _
  have htotal := length_le_totalLength hmem
  rw [List.length_cons] at htotal
  omega

/-- No epsilon is left in an unrolled non-terminal. -/
theorem isEpsilonFree_head_unrolling (h : n.recursion = .proper u) (hx : x ≠ epsilon) :
    (u.head x).isEpsilonFree = true := by
  rw [NonTerminal.isEpsilonFree_iff]
  intro v hv
  obtain ⟨w, hw, rfl⟩ := mem_alternatives_head_unrolling.1 hv
  obtain ⟨body, -, rfl⟩ := exists_of_mem_bases h hw
  rw [List.mem_append, List.mem_singleton]
  exact fun hmem => hmem.elim (fun hs => (mem_withoutEpsilon.1 hs).2 rfl) fun heq => hx heq.symm

/-- If there are no epsilons to take away then no left recursion is uncovered. -/
theorem isLeftRecursive_head_unrolling (h : n.recursion = .proper u) (hx : n.symbol ≠ x)
    (hfree : n.isEpsilonFree = true) : (u.head x).isLeftRecursive = false := by
  rw [← Bool.not_eq_true, NonTerminal.isLeftRecursive_iff]
  rintro ⟨v, hv, hself⟩
  rw [symbol_head_unrolling h] at hself
  obtain ⟨w, hw, rfl⟩ := mem_alternatives_head_unrolling.1 hv
  rw [eq_unrolling_of_recursion h] at hw
  obtain ⟨body, hbody, rfl⟩ := List.mem_map.1 hw
  obtain ⟨hmem, hbase⟩ := mem_baseAlternatives.1 hbody
  rw [withoutEpsilon_eq_self (NonTerminal.isEpsilonFree_iff.1 hfree body hmem)] at hself
  cases body with
  | nil => exact hx (Option.some.inj hself).symm
  | cons s rest =>
    obtain rfl := Option.some.inj hself
    rw [startsWithSelf_iff.2 ⟨rest, rfl⟩] at hbase
    cases hbase

/-- The repeats do not begin with the fresh symbol. -/
theorem isLeftRecursive_tail_unrolling (h : n.recursion = .proper u) (hx : x ≠ epsilon)
    (hunused : ∀ v ∈ n.alternatives, x ∉ v) : (u.tail x).isLeftRecursive = false := by
  rw [← Bool.not_eq_true, NonTerminal.isLeftRecursive_iff]
  rintro ⟨v, hv, hself⟩
  rw [symbol_tail_unrolling] at hself
  rcases mem_alternatives_tail_unrolling.1 hv with ⟨w, hw, rfl⟩ | rfl
  · have hne := ne_nil_of_mem_repeats h hw
    obtain ⟨rest, hrest, rfl⟩ := exists_of_mem_repeats h hw
    rw [List.head?_append_of_ne_nil _ hne] at hself
    have hmem := (mem_withoutEpsilon.1 (List.mem_of_head? hself)).1
    exact hunused _ hrest (List.mem_cons_of_mem _ hmem)
  · exact hx (Option.some.inj hself).symm

/-- What is unrolled is left recursive. -/
theorem isLeftRecursive_of_recursion (h : n.recursion = .proper u) : n.isLeftRecursive = true := by
  rw [← Bool.not_eq_false, ← NonTerminal.recursion_eq_absent_iff, h]
  exact Recursion.noConfusion

/-- What is unrolled weighs something. -/
theorem weight_pos_of_recursion (h : n.recursion = .proper u) : 0 < n.weight := by
  have htwo := two_le_totalLength_of_recursion h
  have hsize := size_eq_bases_add n
  have hburden : 1 ≤ n.burden := by
    rw [NonTerminal.burden, isLeftRecursive_of_recursion h, if_pos rfl]
    split <;> omega
  have hpos := Nat.mul_le_mul hburden (Nat.le_refl n.size)
  unfold NonTerminal.weight
  omega

/-- The two non-terminals of an unrolling weigh less than the one that is unrolled. -/
theorem weight_unrolling_lt (hne : ∀ v ∈ n.alternatives, v ≠ []) (h : n.recursion = .proper u)
    (hx : x ≠ epsilon) (hsymbol : n.symbol ≠ x) (hunused : ∀ v ∈ n.alternatives, x ∉ v) :
    (u.head x).weight + (u.tail x).weight < n.weight := by
  have htail := (NonTerminal.weight_le_size (isLeftRecursive_tail_unrolling h hx hunused)).trans
    (size_tail_unrolling_le h x)
  have hhead := size_head_unrolling_le hne h x
  have htwo := two_le_totalLength_of_recursion h
  have hrecursive := isLeftRecursive_of_recursion h
  have hweight : n.burden * n.size ≤ n.weight := Nat.le_add_left _ _
  rw [size_eq_bases_add] at hweight
  cases hfree : n.isEpsilonFree with
  | true =>
    have hburden : n.burden = 2 := by
      rw [NonTerminal.burden, hrecursive, hfree]
      rfl
    have hlight := NonTerminal.weight_le_size (isLeftRecursive_head_unrolling h hsymbol hfree)
    rw [hburden] at hweight
    omega
  | false =>
    have hburden : n.burden = 6 := by
      rw [NonTerminal.burden, hrecursive, hfree]
      rfl
    have hcrowd := (u.head x).totalLength_crowd_le
    have hlight := Nat.mul_le_mul_right (u.head x).size
      (NonTerminal.burden_le_of_isEpsilonFree (isEpsilonFree_head_unrolling h hx))
    rw [hburden] at hweight
    rw [NonTerminal.weight]
    omega

end LL1
