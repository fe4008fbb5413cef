/-
# What rewriting arrives at

A non-terminal is settled when no two of its alternatives begin alike and none begins with the
non-terminal itself. Dropping idle recursion cannot bring two alternatives together: alternatives
that begin alike are neighbours in dictionary order, and whatever stands between two of them begins
in the same way. So everything in a rewritten grammar is settled, and apart from that a rewriting
only inserts fresh symbols behind the ones that were there.
-/
import LL1.Proofs.Rewriting.Elimination

namespace LL1

/-! ## Alternatives that begin alike -/

section Alike

variable {head : Symbol} {u v w : Word} {ws : List Word}

/-- What stands in a dictionary between two words with the same first symbol begins with it, too. -/
theorem head?_eq_of_notAfter (huv : notAfter u v = true) (hvw : notAfter v w = true)
    (h : u.head? = w.head?) : u.head? = v.head? := by
  cases u with
  | nil =>
    cases w with
    | nil =>
      cases v with
      | nil => rfl
      | cons t v => cases hvw
    | cons r w => cases h
  | cons s u =>
    cases v with
    | nil => cases huv
    | cons t v =>
      cases w with
      | nil => cases h
      | cons r w =>
        obtain rfl := Option.some.inj h
        simp only [notAfter] at huv hvw
        grind

theorem beginAlike_iff :
    beginAlike head v w = true ↔ v.head? = w.head? ∧ v.head? ≠ some head := by
  simp [beginAlike]

/-- Neighbours that begin alike are still neighbours behind another word. -/
theorem hasNeighboursAlike_cons (h : hasNeighboursAlike head ws = true) :
    hasNeighboursAlike head (v :: ws) = true := by
  cases ws with
  | nil => cases h
  | cons w rest => exact Bool.or_eq_true_iff.2 (Or.inr h)

/-- If a word of an ordered list begins like the first one, the first one begins like its neighbour.
-/
theorem hasNeighboursAlike_of_mem_tail (hs : (v :: ws).Pairwise fun u w => notAfter u w = true)
    (hw : w ∈ ws) (h : beginAlike head v w = true) : hasNeighboursAlike head (v :: ws) = true := by
  cases ws with
  | nil => cases hw
  | cons x rest =>
    apply Bool.or_eq_true_iff.2 ∘ Or.inl
    rcases List.mem_cons.1 hw with rfl | hrest
    · exact h
    · obtain ⟨hv, hx⟩ := List.pairwise_cons.1 hs
      obtain ⟨hsame, hhead⟩ := beginAlike_iff.1 h
      have hvx := hv x List.mem_cons_self
      have hxw := (List.pairwise_cons.1 hx).1 w hrest
      exact beginAlike_iff.2 ⟨head?_eq_of_notAfter hvx hxw hsame, hhead⟩

/-- An ordered list with two words that begin alike has two such neighbours. -/
theorem hasNeighboursAlike_of_mem (hs : ws.Pairwise fun u w => notAfter u w = true) (hv : v ∈ ws)
    (hw : w ∈ ws) (hne : v ≠ w) (h : beginAlike head v w = true) :
    hasNeighboursAlike head ws = true := by
  induction hs with
  | nil => cases hv
  | @cons x rest hx hrest ih =>
    have hordered := List.pairwise_cons.2 ⟨hx, hrest⟩
    rcases List.mem_cons.1 hv with rfl | hvrest
    · have hwrest := (List.mem_cons.1 hw).resolve_left hne.symm
      exact hasNeighboursAlike_of_mem_tail hordered hwrest h
    · rcases List.mem_cons.1 hw with rfl | hwrest
      · obtain ⟨hsame, hhead⟩ := beginAlike_iff.1 h
        exact hasNeighboursAlike_of_mem_tail hordered hvrest
          (beginAlike_iff.2 ⟨hsame.symm, hsame ▸ hhead⟩)
      · exact hasNeighboursAlike_cons (ih hvrest hwrest)

/-- Neighbours that begin alike in a list without repetition are two words of it. -/
theorem exists_of_hasNeighboursAlike (hws : ws.Nodup) (h : hasNeighboursAlike head ws = true) :
    ∃ v ∈ ws, ∃ w ∈ ws, v ≠ w ∧ beginAlike head v w = true := by
  induction ws with
  | nil => cases h
  | cons v rest ih =>
    obtain ⟨hv, hrest⟩ := List.nodup_cons.1 hws
    cases rest with
    | nil => cases h
    | cons w rest =>
      rcases Bool.or_eq_true_iff.1 h with halike | h
      · refine ⟨v, by simp, w, by simp, ?_, halike⟩
        rintro rfl
        exact hv List.mem_cons_self
      · obtain ⟨x, hx, y, hy, hxy⟩ := ih hrest h
        exact ⟨x, List.mem_cons_of_mem v hx, y, List.mem_cons_of_mem v hy, hxy⟩

end Alike

namespace NonTerminal

variable {n k : NonTerminal} {dropped : Nat}

/-- Two alternatives that begin alike can be factored. -/
theorem isLeftFactorable_of_mem {v w : Word} (hv : v ∈ n.alternatives) (hw : w ∈ n.alternatives)
    (hne : v ≠ w) (h : beginAlike n.symbol v w = true) : n.isLeftFactorable = true :=
  hasNeighboursAlike_of_mem (sortWords_pairwise n.alternatives)
    ((sortWords_perm _).mem_iff.2 hv) ((sortWords_perm _).mem_iff.2 hw) hne h

/-- What can be factored has two alternatives that begin alike. -/
theorem exists_of_isLeftFactorable (hn : n.alternatives.Nodup) (h : n.isLeftFactorable = true) :
    ∃ v ∈ n.alternatives, ∃ w ∈ n.alternatives, v ≠ w ∧ beginAlike n.symbol v w = true := by
  have hsorted : (sortWords n.alternatives).Nodup := (sortWords_perm _).nodup_iff.2 hn
  obtain ⟨v, hv, w, hw, hvw⟩ := exists_of_hasNeighboursAlike hsorted h
  exact ⟨v, (sortWords_perm _).mem_iff.1 hv, w, (sortWords_perm _).mem_iff.1 hw, hvw⟩

/-! ## Settled non-terminals -/

/-- Whether there is nothing left to rewrite: no two alternatives begin alike, and none begins with
the non-terminal itself. -/
structure Settled (n : NonTerminal) : Prop where
  /-- There is nothing to factor. -/
  notFactorable : n.isLeftFactorable = false
  /-- There is no left recursion. -/
  notRecursive : n.isLeftRecursive = false

/-- The base alternatives alone are not left recursive. -/
theorem isLeftRecursive_bases (n : NonTerminal) :
    (ofAlternatives n.symbol n.baseAlternatives).isLeftRecursive = false := by
  refine List.any_eq_false.2 fun body hbody => ?_
  have hbase := (mem_baseAlternatives.1 (mem_ofAlternatives.1 hbody)).2
  rw [startsWithSelf, symbol_ofAlternatives]
  exact Bool.eq_false_iff.1 hbase

/-- Leaving out left recursive alternatives brings no two alternatives together. -/
theorem isLeftFactorable_bases (h : n.isLeftFactorable = false) :
    (ofAlternatives n.symbol n.baseAlternatives).isLeftFactorable = false := by
  rw [← Bool.not_eq_true]
  intro hbases
  obtain ⟨v, hv, w, hw, hne, halike⟩ :=
    exists_of_isLeftFactorable (nodup_ofAlternatives _ _) hbases
  rw [mem_ofAlternatives, mem_baseAlternatives] at hv hw
  rw [symbol_ofAlternatives] at halike
  rw [isLeftFactorable_of_mem hv.1 hw.1 hne halike] at h
  cases h

/-- Whatever a non-terminal is settled with is settled. -/
theorem settled_of_settle (h : n.plan = .settle k dropped) : k.Settled := by
  obtain ⟨hfactorable, ⟨hrecursive, rfl⟩ | hidle⟩ := settle_cases h
  · exact ⟨hfactorable, hrecursive⟩
  · obtain ⟨rfl, -, -⟩ := eq_of_recursion_idle hidle
    exact ⟨isLeftFactorable_bases hfactorable, isLeftRecursive_bases n⟩

end NonTerminal

/-! ## Runs -/

/-- A run puts nothing into its result that is not settled. -/
theorem settled_of_run {supply : Supply} {pending out : List NonTerminal}
    (h : (Elimination.run supply pending).result = .ok out) : ∀ k ∈ out, k.Settled := by
  induction supply, pending using Elimination.run.induct generalizing out with
  | case1 supply =>
    rw [Elimination.run] at h
    cases h
    exact fun k hk => absurd hk List.not_mem_nil
  | case2 supply n rest ih =>
    rw [Elimination.run.eq_def] at h
    cases hplan : n.plan with
    | refuse =>
      simp only [hplan, Elimination.report] at h
      cases h
    | settle k dropped =>
      simp only [hplan, Elimination.report] at h ih
      obtain ⟨tail, htail, rfl⟩ := result_push_eq_ok h
      exact List.forall_mem_cons.2 ⟨NonTerminal.settled_of_settle hplan, ih htail⟩
    | divide d =>
      cases supply with
      | nil =>
        simp only [hplan, Elimination.report] at h
        cases h
      | cons x supply =>
        simp only [hplan, Elimination.report] at h ih
        exact ih h

/-- A run leaves settled non-terminals as they are. -/
theorem run_of_settled (supply : Supply) {pending : List NonTerminal}
    (h : ∀ n ∈ pending, n.Settled) : (Elimination.run supply pending).result = .ok pending := by
  induction pending with
  | nil => rw [Elimination.run]
  | cons n rest ih =>
    rw [List.forall_mem_cons] at h
    have hplan := NonTerminal.plan_eq_settle_self h.1.notFactorable h.1.notRecursive
    rw [Elimination.run.eq_def]
    simp only [hplan, Elimination.report, Elimination.push, ih h.2, Except.map]

namespace NonTerminal

variable {n k : NonTerminal} {fresh : List Symbol} {ns : List NonTerminal}

/-- What takes the place of a non-terminal bears its name, and then the fresh ones. -/
theorem RewritesTo.symbols (h : n.RewritesTo fresh ns) :
    ns.map NonTerminal.symbol = n.symbol :: fresh := by
  cases h with
  | @settle k dropped h =>
    obtain ⟨-, ⟨-, rfl⟩ | hidle⟩ := settle_cases h
    · rfl
    · obtain ⟨rfl, -, -⟩ := eq_of_recursion_idle hidle
      rw [List.map_singleton, symbol_ofAlternatives]
  | divide x h =>
    rw [List.map_cons, List.map_singleton]
    rcases divide_cases h with ⟨f, hf, rfl⟩ | ⟨u, hu, rfl⟩
    · exact congrArg₂ _ (symbol_head_factoring hf x) (congrArg (· :: []) (symbol_tail_factoring f x))
    · exact congrArg₂ _ (symbol_head_unrolling hu x) (congrArg (· :: []) (symbol_tail_unrolling u x))

/-- A settled non-terminal takes its own place. -/
theorem RewritesTo.eq_of_settled (h : n.RewritesTo fresh ns) (hn : n.Settled) : ns = [n] := by
  have hplan := plan_eq_settle_self hn.notFactorable hn.notRecursive
  cases h with
  | settle h =>
    rw [hplan] at h
    cases h
    rfl
  | divide x h =>
    rw [hplan] at h
    cases h

end NonTerminal

/-! ## Order and fresh symbols -/

/-- What holds of the symbols of a grammar at every moment of its rewriting: those declared at first
are still there in the same order, the first one in front, and those that were added are upper case,
not declared at first, and all different, as are those that may still be added. -/
structure Grammar.ExtendedTo (g : Grammar) (supply : Supply) (ns : List NonTerminal) : Prop where
  /-- The order is kept. -/
  sublist : g.symbols.Sublist (ns.map NonTerminal.symbol)
  /-- The first symbol stays the first. -/
  first : (ns.map NonTerminal.symbol).head? = g.symbols.head?
  /-- What was added is new. -/
  added : ∃ added, (ns.map NonTerminal.symbol).Perm (g.symbols ++ added) ∧
    (added ++ supply).Nodup ∧ ∀ s ∈ added ++ supply, isUppercase s = true ∧ s ∉ g.symbols

namespace Grammar

variable {g g' : Grammar}

/-- At first nothing was added. -/
theorem extendedTo_self (g : Grammar) : g.ExtendedTo g.supply g.nonTerminals where
  sublist := List.Sublist.refl _
  first := rfl
  added := by
    refine ⟨[], ?_, nodup_outside g.symbols, fun s hs => ?_⟩
    · rw [List.append_nil]
      exact List.Perm.refl _
    · exact ⟨isUppercase_of_mem_outside hs, (mem_outside.1 hs).2⟩

/-- A step inserts fresh symbols behind the one it rewrites. -/
theorem ExtendedTo.step {fresh supply : Supply} {n : NonTerminal} {before ns after : List NonTerminal}
    (hn : n.RewritesTo fresh ns) (h : g.ExtendedTo (fresh ++ supply) (before ++ n :: after)) :
    g.ExtendedTo supply (before ++ ns ++ after) := by
  have hold : (before ++ n :: after).map NonTerminal.symbol =
      before.map NonTerminal.symbol ++ n.symbol :: after.map NonTerminal.symbol := by
    rw [List.map_append, List.map_cons]
  have hnew : (before ++ ns ++ after).map NonTerminal.symbol =
      before.map NonTerminal.symbol ++ n.symbol :: (fresh ++ after.map NonTerminal.symbol) := by
    rw [List.map_append, List.map_append, hn.symbols, List.append_assoc, List.cons_append]
  obtain ⟨hsublist, hfirst, added, hperm, hnodup, hadded⟩ := h
  rw [hold] at hsublist hfirst hperm
  refine ⟨?_, ?_, added ++ fresh, ?_, ?_, ?_⟩
  · rw [hnew]
    exact hsublist.trans
      (((List.sublist_append_right fresh _).cons_cons n.symbol).append_left _)
  · rw [hnew, ← hfirst]
    cases before <;> rfl
  · rw [hnew, ← List.append_assoc]
    refine List.Perm.trans ?_ (hperm.append_right fresh)
    rw [List.append_assoc, List.cons_append]
    exact (List.perm_append_comm.cons n.symbol).append_left _
  · rw [List.append_assoc]
    exact hnodup
  · rw [List.append_assoc]
    exact hadded

/-- The symbols of a rewritten grammar are the old ones and fresh ones among them. -/
theorem extendedTo_of_eliminate (h : g.eliminate = .ok g') :
    ∃ supply, g.ExtendedTo supply g'.nonTerminals :=
  invariant_of_run (I := g.ExtendedTo) (fun _ _ _ _ _ _ hn hI => hI.step hn) [] (run_of_eliminate h)
    g.extendedTo_self

/-- A settled non-terminal stays as it is. -/
theorem mem_of_eliminate {n : NonTerminal} (hn : n.Settled) (hmem : n ∈ g.nonTerminals)
    (h : g.eliminate = .ok g') : n ∈ g'.nonTerminals := by
  have hstep : ∀ (fresh supply : Supply) (k : NonTerminal) (before ns after : List NonTerminal),
      k.RewritesTo fresh ns → n ∈ before ++ k :: after → n ∈ before ++ ns ++ after := by
    intro fresh supply k before ns after hk hI
    rw [List.mem_append, List.mem_append]
    rcases List.mem_append.1 hI with hbefore | hI
    · exact Or.inl (Or.inl hbefore)
    · rcases List.mem_cons.1 hI with rfl | hafter
      · rw [hk.eq_of_settled hn]
        exact Or.inl (Or.inr List.mem_cons_self)
      · exact Or.inr hafter
  obtain ⟨-, hout⟩ := invariant_of_run (I := fun _ ns => n ∈ ns) hstep [] (run_of_eliminate h) hmem
  exact hout

/-- A grammar of settled non-terminals is rewritten into itself. -/
theorem eliminate_of_settled (h : ∀ n ∈ g.nonTerminals, n.Settled) : g.eliminate = .ok g := by
  rw [eliminate, elimination, run_of_settled g.supply h]
  rfl

/-- A rewritten grammar is rewritten into itself. -/
theorem eliminate_of_eliminate (h : g.eliminate = .ok g') : g'.eliminate = .ok g' :=
  eliminate_of_settled (settled_of_run (run_of_eliminate h))

/-! ## The result -/

/-- Rewriting a loaded grammar leaves nothing to rewrite: no two alternatives of a non-terminal
begin alike, and none begins with the non-terminal itself. The non-terminals that were declared are
still declared, in the same order and with the same one in front, and those that were added are
upper case, not declared before and all different. A non-terminal that was settled is found as it
was. -/
theorem eliminate_settles {lines : List (List Char)} (hload : ofLines lines = .ok g)
    (h : g.eliminate = .ok g') :
    (∀ n ∈ g'.nonTerminals, n.Settled) ∧
    (g.symbols.Sublist g'.symbols ∧ g'.symbols.head? = g.symbols.head?) ∧
    (∃ added, g'.symbols.Perm (g.symbols ++ added) ∧ added.Nodup ∧
      ∀ s ∈ added, isUppercase s = true ∧ s ∉ g.symbols) ∧
    ∀ n ∈ g.nonTerminals, n.Settled → g'.find? n.symbol = some n := by
  have hg' := wellFormed_of_eliminate (wellFormed_of_ofLines hload) h
  obtain ⟨supply, hsublist, hfirst, added, hperm, hnodup, hadded⟩ := extendedTo_of_eliminate h
  refine ⟨settled_of_run (run_of_eliminate h), ⟨hsublist, hfirst⟩, ?_, fun n hn hsettled => ?_⟩
  · exact ⟨added, hperm, (List.nodup_append.1 hnodup).1,
      fun s hs => hadded s (List.mem_append_left supply hs)⟩
  · exact hg'.find?_of_mem (mem_of_eliminate hsettled hn h)

/-- `S->ab | ac | Sd` is factored and then unrolled, the idle recursion of `T->T | c | b` is
dropped, and `U->b | a` is settled. -/
theorem eliminate_settles_of_both_vices :
    ∃ g g' : Grammar, ofLines ["S->ab".toList, "S->ac".toList, "S->Sd".toList, "T->T".toList,
        "T->c".toList, "T->b".toList, "U->b".toList, "U->a".toList] = .ok g ∧
      g.eliminate = .ok g' ∧ g.symbols = ['S', 'T', 'U'] ∧ g'.symbols = ['S', 'B', 'A', 'T', 'U'] ∧
      (∀ n ∈ g'.nonTerminals, n.Settled) ∧
      (g.symbols.Sublist g'.symbols ∧ g'.symbols.head? = g.symbols.head?) ∧
      (∃ added, g'.symbols.Perm (g.symbols ++ added) ∧ added.Nodup ∧
        ∀ s ∈ added, isUppercase s = true ∧ s ∉ g.symbols) ∧
      g'.find? 'U' = some ⟨'U', [['b'], ['a']]⟩ := by
  have hload : ofLines ["S->ab".toList, "S->ac".toList, "S->Sd".toList, "T->T".toList,
      "T->c".toList, "T->b".toList, "U->b".toList, "U->a".toList] =
        .ok ⟨[⟨'S', [['a', 'b'], ['a', 'c'], ['S', 'd']]⟩, ⟨'T', [['T'], ['c'], ['b']]⟩,
          ⟨'U', [['b'], ['a']]⟩]⟩ := rfl
  have h : (Grammar.mk [⟨'S', [['a', 'b'], ['a', 'c'], ['S', 'd']]⟩, ⟨'T', [['T'], ['c'], ['b']]⟩,
      ⟨'U', [['b'], ['a']]⟩]).eliminate =
        .ok ⟨[⟨'S', [['a', 'A', 'B']]⟩, ⟨'B', [['d', 'B'], ['&']]⟩, ⟨'A', [['b'], ['c']]⟩,
          ⟨'T', [['c'], ['b']]⟩, ⟨'U', [['b'], ['a']]⟩]⟩ :=
    eq_ok_of_toOption (by decide +kernel)
  have hsettled : (NonTerminal.mk 'U' [['b'], ['a']]).Settled := ⟨by decide, by decide⟩
  obtain ⟨hall, horder, hadded, hkept⟩ := eliminate_settles hload h
  exact ⟨_, _, hload, h, rfl, rfl, hall, horder, hadded, hkept _ (by simp) hsettled⟩

end Grammar

end LL1
