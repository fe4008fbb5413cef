/-
# The weight of a factoring

The alternatives are in order when a group is looked for, so the group holds all alternatives that
begin alike, and what takes its place begins like no other alternative. The group leaves the crowd,
and its endings are shorter than its members.
-/
import LL1.Proofs.Rewriting.Weight
import Mathlib.Data.List.TakeWhile

namespace LL1

/-! ## Groups in order -/

section Groups

variable {head s : Symbol} {v w : Word} {ws : List Word} {g : Grouping}

/-- In an ordered list, what is left when the words that begin like a lower one are dropped begins
otherwise. -/
theorem head?_ne_of_mem_dropWhile (hv : ∀ u ∈ ws, notAfter v u = true)
    (hws : ws.Pairwise fun u w => notAfter u w = true)
    (hw : w ∈ ws.dropWhile fun u => decide (u.head? = v.head?)) : w.head? ≠ v.head? := by
  induction ws with
  | nil => cases hw
  | cons x rest ih =>
    obtain ⟨hx, hrest⟩ := List.pairwise_cons.1 hws
    rw [List.forall_mem_cons] at hv
    rw [List.dropWhile_cons] at hw
    split at hw
    · exact ih hv.2 hrest hw
    · next hne =>
      rw [decide_eq_true_eq] at hne
      rcases List.mem_cons.1 hw with rfl | hw
      · exact hne
      · exact fun heq => hne (head?_eq_of_notAfter hv.1 (hx w hw) heq.symm).symm

/-- In an ordered list a group holds two words or more, and exactly those that begin like its first
one, which do not begin with the non-terminal itself. -/
theorem exists_of_findGroup (hws : ws.Pairwise fun u w => notAfter u w = true)
    (h : findGroup head ws = some g) :
    ∃ v w rest, g.group = v :: w :: rest ∧ v.head? ≠ some head ∧
      (∀ u ∈ g.group, u.head? = v.head?) ∧ ∀ u ∈ g.before ++ g.after, u.head? ≠ v.head? := by
  induction ws generalizing g with
  | nil => simp [findGroup] at h
  | cons v rest ih =>
    obtain ⟨hv, hrest⟩ := List.pairwise_cons.1 hws
    cases rest with
    | nil => simp [findGroup] at h
    | cons w rest =>
      unfold findGroup at h
      split at h
      · next halike =>
        obtain ⟨hsame, hhead⟩ := beginAlike_iff.1 halike
        cases h
        have hgroup : (w :: rest).takeWhile (fun u => decide (u.head? = v.head?)) =
            w :: rest.takeWhile fun u => decide (u.head? = v.head?) :=
          List.takeWhile_cons_of_pos (decide_eq_true hsame.symm)
        refine ⟨v, w, _, congrArg (List.cons v) hgroup, hhead, ?_,
          fun u => head?_ne_of_mem_dropWhile hv hrest⟩
        rw [List.forall_mem_cons]
        refine ⟨rfl, fun u hu => ?_⟩
        have hlike := List.mem_takeWhile_imp hu
        exact of_decide_eq_true hlike
      · next halike =>
        obtain ⟨k, hk, rfl⟩ := Option.map_eq_some_iff.1 h
        obtain ⟨c, d, more, hgroup, hc, hmembers, hothers⟩ := ih hrest hk
        refine ⟨c, d, more, hgroup, hc, hmembers, ?_⟩
        rw [List.cons_append, List.forall_mem_cons]
        refine ⟨fun hvc => halike ?_, hothers⟩
        -- what stands between the two begins alike, too
        have hvw : v.head? = w.head? := by
          have hmem : c ∈ w :: rest := by
            rw [← findGroup_append hk, hgroup]
            simp
          rcases List.mem_cons.1 hmem with rfl | hmem
          · exact hvc
          · exact head?_eq_of_notAfter (hv w List.mem_cons_self)
              ((List.pairwise_cons.1 hrest).1 c hmem) hvc
        exact beginAlike_iff.2 ⟨hvw, hvc ▸ hc⟩

/-- Words that begin with the same symbol share it. -/
theorem head?_sharedPrefix (hne : ws ≠ []) (h : ∀ w ∈ ws, w.head? = some s) :
    (sharedPrefix ws).head? = some s := by
  have key : ∀ (rest : List Word) (u : Word), u.head? = some s → (∀ w ∈ rest, w.head? = some s) →
      (rest.foldl commonPrefix u).head? = some s := by
    intro rest
    induction rest with
    | nil => exact fun u hu _ => hu
    | cons w rest ih =>
      intro u hu hrest
      rw [List.forall_mem_cons] at hrest
      refine ih (commonPrefix u w) ?_ hrest.2
      obtain ⟨u, rfl⟩ := List.head?_eq_some_iff.1 hu
      obtain ⟨w, rfl⟩ := List.head?_eq_some_iff.1 hrest.1
      rw [commonPrefix, if_pos rfl]
      rfl
  cases ws with
  | nil => exact absurd rfl hne
  | cons w rest =>
    rw [List.forall_mem_cons] at h
    exact key rest w h.1 h.2

end Groups

/-! ## Factorings -/

namespace Factoring

/-- The alternatives that a factoring brings together. -/
def members (f : Factoring) : List Word :=
  f.endings.map fun e => f.stem ++ e

/-- How a factoring cuts the alternatives of a non-terminal. -/
structure Cuts (f : Factoring) (n : NonTerminal) : Prop where
  /-- It is named after the non-terminal. -/
  symbol : f.symbol = n.symbol
  /-- No alternative is lost. -/
  perm : (f.before ++ f.members ++ f.after).Perm n.alternatives
  /-- Two alternatives are brought together, or more. -/
  two_le : 2 ≤ f.endings.length
  /-- They do not begin with the non-terminal itself. -/
  stem : ∃ s, f.stem.head? = some s ∧ s ≠ n.symbol
  /-- No other alternative begins like them. -/
  apart : ∀ v ∈ f.before ++ f.after, v.head? ≠ f.stem.head?

end Factoring

variable {n : NonTerminal} {f : Factoring} {x : Symbol}

/-- Two different words that begin alike begin with some symbol. -/
theorem exists_head?_of_ne {v w : Word} (hne : v ≠ w) (hsame : v.head? = w.head?) :
    ∃ s, v.head? = some s := by
  cases v with
  | cons s v => exact ⟨s, rfl⟩
  | nil => exact absurd (List.head?_eq_none_iff.1 hsame.symm).symm hne

/-- The members of the group that is found are the stem with the endings. -/
theorem members_of_group (head : Symbol) (g : Grouping) :
    Factoring.members ⟨head, g.before, sharedPrefix g.group,
      g.group.map fun w => w.drop (sharedPrefix g.group).length, g.after⟩ = g.group := by
  rw [Factoring.members, List.map_map]
  refine (List.map_congr_left fun w hw => ?_).trans (List.map_id _)
  exact List.prefix_iff_eq_append.1 (sharedPrefix_begins hw)

/-- The factoring of a non-terminal cuts its alternatives, if none of them is listed twice. -/
theorem cuts_of_factoring? (hn : n.alternatives.Nodup) (h : n.factoring? = some f) : f.Cuts n := by
  obtain ⟨g, hg, rfl⟩ := exists_grouping_of_factoring? h
  obtain ⟨v, w, rest, hgroup, hv, hmembers, hothers⟩ :=
    exists_of_findGroup (sortWords_pairwise n.alternatives) hg
  have hperm : (g.before ++ g.group ++ g.after).Perm n.alternatives := by
    rw [findGroup_append hg]
    exact sortWords_perm n.alternatives
  have hnodup : (v :: w :: rest).Nodup := by
    rw [← hgroup]
    exact (List.nodup_append.1 (List.nodup_append.1 (hperm.nodup_iff.2 hn)).1).2.1
  have hvw : v ≠ w := fun heq => (List.nodup_cons.1 hnodup).1 (heq ▸ List.mem_cons_self)
  obtain ⟨s, hs⟩ := exists_head?_of_ne hvw (hmembers w (by simp [hgroup])).symm
  have hstem : (sharedPrefix g.group).head? = some s := by
    refine head?_sharedPrefix (group_ne_nil_of_findGroup hg) fun u hu => ?_
    rw [hmembers u hu, hs]
  refine ⟨rfl, ?_, ?_, ⟨s, hstem, fun heq => hv (heq ▸ hs)⟩, fun u hu => ?_⟩
  · rw [members_of_group]
    exact hperm
  · rw [List.length_map, hgroup]
    exact Nat.le_add_left 2 rest.length
  · rw [hstem, ← hs]
    exact hothers u hu

namespace Factoring

/-- The alternatives of the factored non-terminal. -/
theorem mem_head_cases {v : Word} (h : v ∈ (f.head x).alternatives) :
    v ∈ f.before ++ f.after ∨ v = f.stem ++ [x] := by
  rw [List.mem_append]
  rcases mem_alternatives_head_factoring.1 h with hb | heq | ha
  · exact Or.inl (Or.inl hb)
  · exact Or.inr heq
  · exact Or.inl (Or.inr ha)

namespace Cuts

theorem mem_alternatives_iff (h : f.Cuts n) {v : Word} :
    v ∈ n.alternatives ↔ v ∈ f.before ++ f.after ∨ v ∈ f.members := by
  rw [← h.perm.mem_iff]
  simp only [List.mem_append]
  exact or_right_comm

/-- The group is not empty. -/
theorem exists_mem_members (h : f.Cuts n) : ∃ e, f.stem ++ e ∈ f.members := by
  obtain ⟨e, he⟩ := List.exists_mem_of_length_pos (Nat.lt_of_lt_of_le Nat.zero_lt_two h.two_le)
  exact ⟨e, List.mem_map_of_mem he⟩

/-- The stem is not empty. -/
theorem one_le_length_stem (h : f.Cuts n) : 1 ≤ f.stem.length := by
  obtain ⟨s, hs, -⟩ := h.stem
  obtain ⟨v, hv⟩ := List.head?_eq_some_iff.1 hs
  rw [hv]
  exact Nat.le_add_left 1 v.length

/-- What begins with the stem begins like it. -/
theorem head?_stem_append (h : f.Cuts n) (v : Word) : (f.stem ++ v).head? = f.stem.head? := by
  obtain ⟨s, hs, -⟩ := h.stem
  rw [List.head?_append, hs, Option.some_or]

/-- The members of the group begin with the stem. -/
theorem head?_of_mem_members (h : f.Cuts n) {v : Word} (hv : v ∈ f.members) :
    v.head? = f.stem.head? := by
  obtain ⟨e, -, rfl⟩ := List.mem_map.1 hv
  exact h.head?_stem_append e

/-- The lengths of the alternatives, inside the group and outside. -/
theorem size_eq (h : f.Cuts n) :
    n.size = totalLength (f.before ++ f.after) + totalLength f.members := by
  rw [NonTerminal.size, ← totalLength_perm h.perm, totalLength_append, totalLength_append,
    totalLength_append]
  omega

/-- In the group the stem is written once for each ending. -/
theorem totalLength_members (f : Factoring) :
    totalLength f.members = f.endings.length * f.stem.length + totalLength f.endings :=
  totalLength_map_append f.endings f.stem

/-- The stem with a fresh symbol is shorter than the group. -/
theorem length_stem_lt (h : f.Cuts n) : f.stem.length + 1 ≤ totalLength f.members := by
  have hstem := h.one_le_length_stem
  have htwo := Nat.mul_le_mul_right f.stem.length h.two_le
  rw [totalLength_members]
  omega

/-- No member of the group is listed twice or stands outside the group. -/
theorem nodup (h : f.Cuts n) (hn : n.alternatives.Nodup) :
    f.members.Nodup ∧ List.Disjoint (f.before ++ f.after) f.members := by
  have hall := h.perm.nodup_iff.2 hn
  refine ⟨(List.nodup_append.1 (List.nodup_append.1 hall).1).2.1, fun v hv hmember => ?_⟩
  exact h.apart v hv (h.head?_of_mem_members hmember)

/-- The fresh non-terminal is shorter than the group. -/
theorem size_tail_lt (h : f.Cuts n) (hn : n.alternatives.Nodup) (x : Symbol) :
    (f.tail x).size + 1 ≤ totalLength f.members := by
  have hendings : f.endings.Nodup := List.Nodup.of_map _ (h.nodup hn).1
  have hempty := List.nodup_iff_count_le_one.1 hendings []
  have hstem := h.one_le_length_stem
  have htwo := Nat.mul_le_mul h.two_le hstem
  have hsize : (f.tail x).size ≤ totalLength (f.endings.map spelled) :=
    NonTerminal.size_ofAlternatives_le x _
  rw [totalLength_map_spelled] at hsize
  rw [totalLength_members]
  omega

/-- The factored non-terminal is not longer than it was. -/
theorem size_head_le (h : f.Cuts n) (x : Symbol) : (f.head x).size ≤ n.size := by
  have hstem := h.length_stem_lt
  have hsize : (f.head x).size ≤ totalLength (f.before ++ (f.stem ++ [x]) :: f.after) :=
    NonTerminal.size_ofAlternatives_le f.symbol _
  rw [totalLength_append, totalLength_cons, List.length_append, List.length_singleton] at hsize
  rw [h.size_eq, totalLength_append]
  omega

/-- The members of the group begin like each other. -/
theorem mem_crowd_of_mem_members (h : f.Cuts n) (hn : n.alternatives.Nodup) {v : Word}
    (hv : v ∈ f.members) : v ∈ n.crowd := by
  obtain ⟨s, hs, hne⟩ := h.stem
  have hsingle : f.members ≠ [v] := by
    intro heq
    have hlength := congrArg List.length heq
    rw [members, List.length_map, List.length_singleton] at hlength
    have htwo := h.two_le
    omega
  obtain ⟨w, hw, hwv⟩ := (((h.nodup hn).1.ne_singleton_iff v).1 hsingle).resolve_left
    (List.ne_nil_of_mem hv)
  refine NonTerminal.mem_crowd_iff.2 ⟨h.mem_alternatives_iff.2 (Or.inr hv), w,
    h.mem_alternatives_iff.2 (Or.inr hw), hwv, ?_, ?_⟩
  · rw [h.head?_of_mem_members hv, h.head?_of_mem_members hw]
  · rw [h.head?_of_mem_members hv, hs]
    exact fun heq => hne (Option.some.inj heq)

/-- An alternative of the factored non-terminal that begins like another one did so before, and is
not in the group. -/
theorem mem_crowd_of_mem_crowd_head (h : f.Cuts n) {v : Word} (hv : v ∈ (f.head x).crowd) :
    v ∈ n.crowd ∧ v ∈ f.before ++ f.after := by
  have hsymbol : (f.head x).symbol = n.symbol :=
    (NonTerminal.symbol_ofAlternatives _ _).trans h.symbol
  have hstem := h.head?_stem_append [x]
  obtain ⟨hmem, w, hw, hne, hsame, hself⟩ := NonTerminal.mem_crowd_iff.1 hv
  rw [hsymbol] at hself
  rcases mem_head_cases hmem with hv | rfl
  · rcases mem_head_cases hw with hw | rfl
    · exact ⟨NonTerminal.mem_crowd_iff.2 ⟨h.mem_alternatives_iff.2 (Or.inl hv), w,
        h.mem_alternatives_iff.2 (Or.inl hw), hne, hsame, hself⟩, hv⟩
    · exact absurd (hsame.trans hstem) (h.apart v hv)
  · rcases mem_head_cases hw with hw | rfl
    · exact absurd (hsame.symm.trans hstem) (h.apart w hw)
    · exact absurd rfl hne

/-- Factoring takes the group out of the crowd. -/
theorem totalLength_crowd_head (h : f.Cuts n) (hn : n.alternatives.Nodup) (x : Symbol) :
    totalLength (f.head x).crowd + totalLength f.members ≤ totalLength n.crowd := by
  have hcrowd : ((f.head x).crowd ++ f.members).Nodup := by
    have hhead : (f.head x).crowd.Nodup := (NonTerminal.nodup_ofAlternatives _ _).filter _
    refine List.nodup_append'.2 ⟨hhead, (h.nodup hn).1, fun v hv hmember => ?_⟩
    exact (h.nodup hn).2 (h.mem_crowd_of_mem_crowd_head hv).2 hmember
  rw [← totalLength_append]
  refine totalLength_le_of_subset hcrowd fun v hv => ?_
  rcases List.mem_append.1 hv with hv | hv
  · exact (h.mem_crowd_of_mem_crowd_head hv).1
  · exact h.mem_crowd_of_mem_members hn hv

/-- What is factored weighs something. -/
theorem weight_pos (h : f.Cuts n) (hn : n.alternatives.Nodup) : 0 < n.weight := by
  have hcrowd : totalLength f.members ≤ totalLength n.crowd :=
    totalLength_le_of_subset (h.nodup hn).1 fun _ hv => h.mem_crowd_of_mem_members hn hv
  have hstem := h.length_stem_lt
  unfold NonTerminal.weight
  omega

/-- Factoring brings no left recursion. -/
theorem isLeftRecursive_of_head (h : f.Cuts n) (hrecursive : (f.head x).isLeftRecursive = true) :
    n.isLeftRecursive = true := by
  obtain ⟨s, hs, hne⟩ := h.stem
  obtain ⟨v, hv, hself⟩ := NonTerminal.isLeftRecursive_iff.1 hrecursive
  rw [head, NonTerminal.symbol_ofAlternatives, h.symbol] at hself
  rcases mem_head_cases hv with hv | rfl
  · exact NonTerminal.isLeftRecursive_iff.2 ⟨v, h.mem_alternatives_iff.2 (Or.inl hv), hself⟩
  · rw [h.head?_stem_append, hs] at hself
    exact absurd (Option.some.inj hself) hne

/-- Factoring brings no epsilon into the factored non-terminal. -/
theorem isEpsilonFree_head (h : f.Cuts n) (hx : x ≠ epsilon) (hfree : n.isEpsilonFree = true) :
    (f.head x).isEpsilonFree = true := by
  rw [NonTerminal.isEpsilonFree_iff] at hfree ⊢
  obtain ⟨e, hmember⟩ := h.exists_mem_members
  have hstem := hfree _ (h.mem_alternatives_iff.2 (Or.inr hmember))
  intro v hv
  rcases mem_head_cases hv with hv | rfl
  · exact hfree v (h.mem_alternatives_iff.2 (Or.inl hv))
  · rw [List.mem_append, List.mem_singleton]
    exact fun hmem => hmem.elim (fun hs => hstem (List.mem_append_left e hs)) fun heq => hx heq.symm

/-- The endings do not begin with the fresh symbol. -/
theorem isLeftRecursive_tail (h : f.Cuts n) (hx : x ≠ epsilon)
    (hunused : ∀ v ∈ n.alternatives, x ∉ v) : (f.tail x).isLeftRecursive = false := by
  rw [← Bool.not_eq_true, NonTerminal.isLeftRecursive_iff]
  rintro ⟨v, hv, hself⟩
  rw [symbol_tail_factoring] at hself
  obtain ⟨e, he, rfl⟩ := mem_alternatives_tail_factoring.1 hv
  rcases mem_spelled (List.mem_of_head? hself) with heq | hmem
  · exact hx heq
  · exact hunused _ (h.mem_alternatives_iff.2 (Or.inr (List.mem_map_of_mem he)))
      (List.mem_append_right _ hmem)

/-- The two non-terminals of a factoring weigh less than the one that is factored. -/
theorem weight_lt (h : f.Cuts n) (hn : n.alternatives.Nodup) (hx : x ≠ epsilon)
    (hunused : ∀ v ∈ n.alternatives, x ∉ v) :
    (f.head x).weight + (f.tail x).weight < n.weight := by
  have hcrowd := h.totalLength_crowd_head hn x
  have hsize := h.size_tail_lt hn x
  have htail := NonTerminal.weight_le_size (h.isLeftRecursive_tail hx hunused)
  have hburden : (f.head x).burden * (f.head x).size ≤ n.burden * n.size :=
    Nat.mul_le_mul (NonTerminal.burden_mono h.isLeftRecursive_of_head (h.isEpsilonFree_head hx))
      (h.size_head_le x)
  rw [NonTerminal.weight, NonTerminal.weight.eq_def n]
  omega

end Cuts

end Factoring

end LL1
