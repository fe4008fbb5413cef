/-
# The worklist rewrites the grammar

The visits of the worklist are the turns of the rewriting of the grammar: the map, the order and the
queue of a worklist hold the non-terminals that are done with and those that are pending, in the order of
declaration. A fresh symbol is not declared, so nothing is overwritten by it, and it enters the order
behind the symbol that was visited. A head that was changed mentions a symbol that the old grammar does
not declare, so it cannot be mistaken for a head that kept its sets.
-/
import LL1.Proofs.Rewriting.Elimination
import LL1.Store.Worklist

namespace LL1

/-! ## Replacing an entry -/

section Lists

variable {before after : List NonTerminal} {n k fresh : NonTerminal} {m : HeadMap}
  {head : NonTerminal → Head} {s x : Symbol}

/-- What is found in a list around a non-terminal is that non-terminal or found in the rest. -/
theorem find?_append_cons (hbefore : n.symbol ∉ before.map NonTerminal.symbol) (a : Symbol) :
    (Grammar.mk (before ++ n :: after)).find? a =
      if a = n.symbol then some n else (Grammar.mk (before ++ after)).find? a := by
  unfold Grammar.find?
  rw [List.find?_append, List.find?_cons]
  by_cases ha : a = n.symbol
  · have hnone : before.find? (fun k => k.symbol == a) = none := by
      rw [List.find?_eq_none]
      intro k hk heq
      exact hbefore (List.mem_map.2 ⟨k, hk, (beq_iff_eq.1 heq).trans ha⟩)
    rw [if_pos ha, beq_iff_eq.2 ha.symm, hnone]
    rfl
  · rw [if_neg ha, beq_false_of_ne (Ne.symm ha), ← List.find?_append]

/-- The symbol of a non-terminal is not among those before it and not among those after it. -/
theorem notMem_of_nodup (h : (Grammar.mk (before ++ n :: after)).symbols.Nodup) :
    n.symbol ∉ before.map NonTerminal.symbol := by
  rw [Grammar.symbols, List.map_append, List.map_cons] at h
  intro hmem
  exact (List.nodup_append.1 h).2.2 _ hmem _ List.mem_cons_self rfl

/-- A map that holds a list of non-terminals holds it with one of them replaced if that one is taken out
and the other one is put under the same symbol. -/
theorem get?_replaced (hnodup : (Grammar.mk (before ++ n :: after)).symbols.Nodup)
    (hm : ∀ a, m.get? a = ((Grammar.mk (before ++ n :: after)).find? a).map head)
    (hk : k.symbol = n.symbol) (a : Symbol) :
    ((m.erase n.symbol).insert n.symbol (head k)).get? a =
      ((Grammar.mk (before ++ k :: after)).find? a).map head := by
  have hbefore := notMem_of_nodup hnodup
  rw [HeadMap.get?_insert, HeadMap.get?_erase, hm, find?_append_cons hbefore,
    find?_append_cons (hk ▸ hbefore), hk]
  by_cases ha : a = n.symbol
  · rw [if_pos ha, if_pos ha]
    rfl
  · rw [if_neg ha, if_neg ha, if_neg ha, if_neg ha]

/-- A non-terminal under a symbol that is not declared is put behind another one. -/
theorem get?_inserted (hm : ∀ a, m.get? a = ((Grammar.mk (before ++ k :: after)).find? a).map head)
    (hnodup : (Grammar.mk (before ++ k :: after)).symbols.Nodup)
    (hfresh : fresh.symbol ∉ (Grammar.mk (before ++ k :: after)).symbols) (a : Symbol) :
    (m.insert fresh.symbol (head fresh)).get? a =
      ((Grammar.mk (before ++ k :: fresh :: after)).find? a).map head := by
  have hbefore := notMem_of_nodup hnodup
  rw [Grammar.symbols, List.map_append, List.map_cons, List.mem_append, List.mem_cons, not_or,
    not_or] at hfresh
  obtain ⟨hfresh, hne, -⟩ := hfresh
  rw [HeadMap.get?_insert, hm, find?_append_cons hbefore, find?_append_cons hbefore,
    find?_append_cons hfresh]
  by_cases ha : a = fresh.symbol
  · rw [if_pos ha, if_neg fun heq => hne (ha.symm.trans heq), if_pos ha]
    rfl
  · rw [if_neg ha, if_neg ha]

/-- The place behind a symbol is the one after those before it. -/
theorem positionBehind_append {l r : List Symbol} (hs : s ∉ l) :
    Worklist.positionBehind (l ++ s :: r) s = l.length + 1 := by
  have hindex : (l ++ s :: r).idxOf? s = some l.length := by
    induction l with
    | nil => rw [List.nil_append, List.idxOf?_cons, if_pos BEq.rfl, List.length_nil]
    | cons u l ih =>
      rw [List.mem_cons, not_or] at hs
      rw [List.cons_append, List.idxOf?_cons, if_neg (by simpa using Ne.symm hs.1), ih hs.2]
      rfl
  rw [Worklist.positionBehind, hindex]

/-- What is inserted after a symbol stands behind it. -/
theorem insertIdx_append_cons (l r : List Symbol) :
    (l ++ s :: r).insertIdx (l.length + 1) x = l ++ s :: x :: r := by
  induction l with
  | nil => rfl
  | cons u l ih => rw [List.cons_append, List.length_cons, List.insertIdx_succ_cons, ih]; rfl

end Lists

/-! ## Heads with and without sets -/

/-- The head of a non-terminal with the sets that are known for it. -/
def Workspace.headOf (w : Workspace) (n : NonTerminal) : Head where
  toNonTerminal := n
  first := w.first.get n.symbol
  follow := w.follow.get n.symbol

/-- The head of a non-terminal when the grammar has changed: it keeps the sets if it is the old one. -/
def Workspace.carriedHead (w : Workspace) (n : NonTerminal) : Head :=
  if w.grammar.find? n.symbol = some n then w.headOf n else .ofNonTerminal n

/-- Whether a non-terminal cannot belong to a grammar since it bears or mentions an upper-case symbol
that is not declared there. -/
def Grammar.Foreign (g : Grammar) (n : NonTerminal) : Prop :=
  n.symbol ∉ g.symbols ∨ ∃ x ∉ g.symbols, isUppercase x = true ∧ n.Mentions x

section Carried

variable {w : Workspace} {n k : NonTerminal} {x : Symbol} {d : Division}

/-- A non-terminal that belongs to the old grammar keeps its sets. -/
theorem carriedHead_of_find? (h : w.grammar.find? n.symbol = some n) : w.carriedHead n = w.headOf n :=
  if_pos h

/-- The head of a non-terminal holds that non-terminal. -/
theorem toNonTerminal_carriedHead (w : Workspace) (n : NonTerminal) :
    (w.carriedHead n).toNonTerminal = n := by
  unfold Workspace.carriedHead
  split <;> rfl

/-- A non-terminal that is foreign to the old grammar has no sets. -/
theorem carriedHead_of_foreign (hg : w.grammar.WellFormed) (h : w.grammar.Foreign n) :
    w.carriedHead n = .ofNonTerminal n := by
  refine if_neg fun hfind => ?_
  have hmem := Grammar.mem_of_find?_eq_some hfind
  rcases h with hsymbol | ⟨x, hx, hup, body, hbody, hxb⟩
  · exact hsymbol (List.mem_map_of_mem hmem)
  · exact hx ((hg.each n hmem).defined body hbody x hxb hup)

/-- A divided non-terminal mentions the fresh symbol. -/
theorem mentions_head_of_divide (h : n.plan = .divide d) (x : Symbol) : (d.head x).Mentions x := by
  rcases divide_cases h with ⟨f, -, rfl⟩ | ⟨u, hu, rfl⟩
  · exact ⟨f.stem ++ [x], NonTerminal.mem_ofAlternatives.2 (by simp), by simp⟩
  · obtain ⟨b, hb⟩ := List.exists_mem_of_ne_nil _ (bases_ne_nil_of_recursion hu)
    exact ⟨b ++ [x], mem_alternatives_head_unrolling.2 ⟨b, hb, rfl⟩, by simp⟩

/-- What is settled is put back with the sets that it carries: nothing is changed, or a non-terminal of
the old grammar loses alternatives, or a foreign non-terminal does and stays foreign. -/
theorem replacedBy_carriedHead (hg : w.grammar.WellFormed)
    (hn : w.grammar.find? n.symbol = some n ∨ w.grammar.Foreign n) (hr : n.RefinedBy [] [k]) :
    (w.carriedHead n).replacedBy k = w.carriedHead k := by
  have hsymbol : k.symbol = n.symbol := (List.cons.inj hr.symbols).1
  unfold Head.replacedBy
  rw [toNonTerminal_carriedHead]
  split
  · next hk => rw [hk]
  · next hk =>
    rcases hn with hfind | hforeign
    · -- the old grammar has one non-terminal under the symbol
      refine (if_neg fun hfind' => hk ?_).symm
      rw [hsymbol, hfind] at hfind'
      exact (Option.some.inj hfind').symm
    · refine (carriedHead_of_foreign hg ?_).symm
      rcases hforeign with hundeclared | ⟨x, hx, hup, hmentions⟩
      · exact Or.inl (hsymbol ▸ hundeclared)
      · rcases hr.kept x hmentions with rfl | rfl | ⟨j, hj, hmentions⟩
        · exact absurd hup (by decide)
        · exact Or.inl (hsymbol ▸ hx)
        · exact Or.inr ⟨x, hx, hup, List.mem_singleton.1 hj ▸ hmentions⟩

end Carried

/-! ## What a worklist holds -/

namespace Worklist

/-- What a worklist holds while a grammar is rewritten. -/
structure Holds (l : Worklist) (head : NonTerminal → Head) (supply : Supply)
    (done pending : List NonTerminal) : Prop where
  /-- Under each symbol there is the head of the non-terminal that bears it. -/
  heads : ∀ a, l.heads.get? a = ((Grammar.mk (done ++ pending)).find? a).map head
  /-- All symbols are in order. -/
  order : l.order = (Grammar.mk (done ++ pending)).symbols
  /-- The pending symbols are still to be visited. -/
  queue : l.queue = pending.map NonTerminal.symbol
  /-- The fresh symbols are those of the supply. -/
  supply : l.supply = supply

variable {l : Worklist} {w : Workspace} {supply : Supply} {done rest pending : List NonTerminal}
  {n k : NonTerminal} {d : Division} {dropped : Nat} {x : Symbol}

/-- The symbol at the front of the queue is visited with the head of its non-terminal. -/
theorem Holds.visit_eq (h : l.Holds w.carriedHead supply done (n :: rest))
    (hnodup : (Grammar.mk (done ++ n :: rest)).symbols.Nodup) :
    l.run = (match n.plan.carryOut n.symbol supply with
      | (.error e, _) => .error e
      | (.ok (.single k), supply) =>
        run
          { l with
            heads := (l.heads.erase n.symbol).insert n.symbol ((w.carriedHead n).replacedBy k)
            queue := rest.map NonTerminal.symbol
            supply }
      | (.ok (.split k fresh), supply) =>
        run
          { heads := ((l.heads.erase n.symbol).insert n.symbol (.ofNonTerminal k)).insert
              fresh.symbol (.ofNonTerminal fresh)
            order := l.order.insertIdx (positionBehind l.order n.symbol) fresh.symbol
            queue := n.symbol :: fresh.symbol :: rest.map NonTerminal.symbol
            supply }) := by
  have hget : l.heads.get? n.symbol = some (w.carriedHead n) := by
    rw [h.heads, find?_append_cons (notMem_of_nodup hnodup), if_pos rfl]
    rfl
  rw [run_of_queue_eq_cons h.queue, visit]
  dsimp only
  rw [hget]
  dsimp only [Head.rewrite]
  rw [toNonTerminal_carriedHead, h.supply]
  rcases n.plan.carryOut n.symbol supply with ⟨_ | _ | _, _⟩ <;> rfl

/-- A non-terminal that is settled is done with. -/
theorem Holds.settle (h : l.Holds w.carriedHead supply done (n :: rest)) (hg : w.grammar.WellFormed)
    (hnodup : (Grammar.mk (done ++ n :: rest)).symbols.Nodup)
    (hn : w.grammar.find? n.symbol = some n ∨ w.grammar.Foreign n) (hr : n.RefinedBy [] [k])
    (hplan : n.plan = .settle k dropped) :
    ∃ l' : Worklist, l.run = l'.run ∧ l'.Holds w.carriedHead supply (done ++ [k]) rest := by
  have hk : k.symbol = n.symbol := (List.cons.inj hr.symbols).1
  refine ⟨_, (h.visit_eq hnodup).trans (by rw [hplan]; rfl), ?_, ?_, rfl, rfl⟩
  · intro a
    rw [List.append_assoc, List.singleton_append, replacedBy_carriedHead hg hn hr]
    exact get?_replaced hnodup h.heads hk a
  · rw [h.order, List.append_assoc, List.singleton_append]
    simp only [Grammar.symbols, List.map_append, List.map_cons, hk]

/-- A non-terminal that is divided is pending together with the fresh one. -/
theorem Holds.divide (h : l.Holds w.carriedHead (x :: supply) done (n :: rest))
    (hg : w.grammar.WellFormed) (hnodup : (Grammar.mk (done ++ n :: rest)).symbols.Nodup)
    (hx : x ∉ (Grammar.mk (done ++ n :: rest)).symbols) (hr : n.RefinedBy [x] [d.head x, d.tail x])
    (hforeign : w.grammar.Foreign (d.head x) ∧ w.grammar.Foreign (d.tail x))
    (hplan : n.plan = .divide d) :
    ∃ l' : Worklist, l.run = l'.run ∧
      l'.Holds w.carriedHead supply done (d.head x :: d.tail x :: rest) := by
  obtain ⟨hhead, htail⟩ : (d.head x).symbol = n.symbol ∧ (d.tail x).symbol = x := by
    obtain ⟨hhead, htail⟩ := List.cons.inj hr.symbols
    exact ⟨hhead, (List.cons.inj htail).1⟩
  have hsymbols : (Grammar.mk (done ++ d.head x :: rest)).symbols =
      (Grammar.mk (done ++ n :: rest)).symbols := by
    simp only [Grammar.symbols, List.map_append, List.map_cons, hhead]
  refine ⟨_, (h.visit_eq hnodup).trans (by rw [hplan]; rfl), ?_, ?_, ?_, rfl⟩
  · intro a
    rw [← carriedHead_of_foreign hg hforeign.1, ← carriedHead_of_foreign hg hforeign.2]
    refine get?_inserted (get?_replaced hnodup h.heads hhead) (hsymbols ▸ hnodup) ?_ a
    rw [hsymbols, htail]
    exact hx
  · -- the fresh symbol stands right behind the one that is visited
    have hbefore := notMem_of_nodup hnodup
    rw [h.order]
    simp only [Grammar.symbols, List.map_append, List.map_cons, hhead, htail]
    rw [positionBehind_append hbefore, insertIdx_append_cons]
  · rw [List.map_cons, List.map_cons, hhead]

/-- A worklist ends as the rewriting of its non-terminals does, and it holds what comes out of it. -/
theorem Holds.run (h : l.Holds w.carriedHead supply done pending) (hg : w.grammar.WellFormed)
    (hr : w.grammar.RewrittenTo supply (done ++ pending))
    (hp : ∀ n ∈ pending, w.grammar.find? n.symbol = some n ∨ w.grammar.Foreign n) :
    (∀ e, (Elimination.run supply pending).result = .error e → l.run = .error e) ∧
      ∀ out, (Elimination.run supply pending).result = .ok out →
        ∃ l' supply', l.run = .ok l' ∧ l'.Holds w.carriedHead supply' (done ++ out) [] := by
  induction supply, pending using Elimination.run.induct generalizing l done with
  | case1 supply =>
    rw [Elimination.run]
    refine ⟨fun e he => (by cases he), fun out hout => ?_⟩
    cases hout
    rw [List.append_nil]
    exact ⟨l, supply, run_of_queue_eq_nil h.queue, h⟩
  | case2 supply n rest ih =>
    rw [List.forall_mem_cons] at hp
    have hnodup := hr.wellFormed.nodup
    have hn := hr.wellFormed.each n (by simp)
    rw [Elimination.run.eq_def]
    cases hplan : n.plan with
    | refuse =>
      simp only [hplan, Elimination.report]
      refine ⟨fun e he => ?_, fun out hout => (by cases hout)⟩
      cases he
      rw [h.visit_eq hnodup, hplan]
      rfl
    | settle k dropped =>
      simp only [hplan, Elimination.report] at ih ⊢
      have hstep : w.grammar.RewrittenTo supply (done ++ [k] ++ rest) :=
        Grammar.RewrittenTo.step (.settle hplan) hr
      have hrefined := refinedBy_of_settle hn (ne_epsilon_of_isUppercase hn.uppercase) hplan
      obtain ⟨l', hrun, hl'⟩ := h.settle hg hnodup hp.1 hrefined hplan
      obtain ⟨herror, hok⟩ := ih hl' hstep hp.2
      rw [hrun]
      refine ⟨fun e he => herror e (result_push_eq_error he), fun out hout => ?_⟩
      obtain ⟨more, hmore, rfl⟩ := result_push_eq_ok hout
      rw [← List.singleton_append, ← List.append_assoc]
      exact hok more hmore
    | divide d =>
      cases supply with
      | nil =>
        simp only [hplan, Elimination.report]
        refine ⟨fun e he => ?_, fun out hout => (by cases hout)⟩
        cases he
        rw [h.visit_eq hnodup, hplan]
        rfl
      | cons x supply =>
        simp only [hplan, Elimination.report] at ih ⊢
        have hx := hr.unused x List.mem_cons_self
        have hup := hr.uppercase x List.mem_cons_self
        have hnew : x ∉ w.grammar.symbols := fun hmem => hx (hr.declared x hmem)
        have hstep : w.grammar.RewrittenTo supply (done ++ [d.head x, d.tail x] ++ rest) :=
          Grammar.RewrittenTo.step (.divide x hplan) hr
        rw [List.append_assoc] at hstep
        have hrefined := refinedBy_of_divide hn (ne_epsilon_of_isUppercase hn.uppercase) hplan
          (ne_epsilon_of_isUppercase hup)
        have htail : (d.tail x).symbol = x := (List.cons.inj (List.cons.inj hrefined.symbols).2).1
        have hforeign : w.grammar.Foreign (d.head x) ∧ w.grammar.Foreign (d.tail x) :=
          ⟨Or.inr ⟨x, hnew, hup, mentions_head_of_divide hplan x⟩, Or.inl (by rwa [htail])⟩
        obtain ⟨l', hrun, hl'⟩ := h.divide hg hnodup hx hrefined hforeign hplan
        rw [hrun]
        exact ih hl' hstep
          (List.forall_mem_cons.2 ⟨Or.inr hforeign.1, List.forall_mem_cons.2 ⟨Or.inr hforeign.2, hp.2⟩⟩)

end Worklist

end LL1
