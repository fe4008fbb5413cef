/-
# Grammars without conflicts are unambiguous

Two derivation trees of one string are gone through side by side, depth first. As long as they are
the same, both continue the same form, so at a node the rest of the string calls for the rule of the
one and for the rule of the other. A table that predicts every rule where it should predicts both,
and it predicts one rule at most. So trees that differ leave a conflict behind.
-/
import LL1.Proofs.Language.Tree
import LL1.Proofs.Workspace.Processed

namespace LL1

namespace Grammar

open SentenceTree

variable {g : Grammar} {t : Table} {s : Symbol} {read v u body body' : Word} {n k : Nat}
  {children children' ts us : List SentenceTree}

/-! ## Trees side by side -/

/-- What can still be read as the rest of a string decides which rule is applied to the next
non-terminal of a form. -/
theorem Predictive.body_eq (hg : g.WellFormed) (hp : g.Predictive t)
    (hform : g.Derives [g.start] (read ++ withoutEpsilon (s :: v)))
    (hr : ⟨s, body⟩ ∈ g.rules) (hrest : g.Yields n (body ++ v) u)
    (hr' : ⟨s, body'⟩ ∈ g.rules) (hrest' : g.Yields k (body' ++ v) u) : body = body' := by
  have hs : g.declares s = true := declares_of_mem_rules hr
  have hexpects : g.Expects read (s :: v) u (n + 1) := ⟨hform, .expand hr hrest⟩
  have hpredicts := hp _ hr _ (hexpects.next hg hs hrest)
  exact hpredicts.unique (hp _ hr' _ (hexpects.next hg hs hrest'))

/-- Two nodes for the next non-terminal of a form have children with the same roots, if the trees
behind them have the same roots and the sentences are the same. -/
theorem Predictive.map_root_eq (hg : g.WellFormed) (hp : g.Predictive t)
    (hts : ∀ x ∈ node s children :: ts, g.HasTree x)
    (hus : ∀ x ∈ node s children' :: us, g.HasTree x) (hroots : us.map root = ts.map root)
    (hsentences : sentences (children' ++ us) = sentences (children ++ ts))
    (hform : g.Derives [g.start] (read ++ withoutEpsilon (s :: ts.map root))) :
    children'.map root = children.map root := by
  rw [List.forall_mem_cons] at hts hus
  obtain ⟨hr, hchildren⟩ := hts.1.cases_node
  obtain ⟨hr', hchildren'⟩ := hus.1.cases_node
  obtain ⟨n, hn⟩ := exists_yields_of_hasTree (List.forall_mem_append.2 ⟨hchildren, hts.2⟩)
  obtain ⟨k, hk⟩ := exists_yields_of_hasTree (List.forall_mem_append.2 ⟨hchildren', hus.2⟩)
  rw [List.map_append] at hn hk
  rw [hroots, hsentences] at hk
  exact (hp.body_eq hg hform hr hn hr' hk).symm

/-- Derivation trees with the same roots and the same sentence are the same, if their roots end a
form derived from the start symbol and the table predicts every rule where it should. -/
theorem Predictive.eq_of_sentences_eq (hg : g.WellFormed) (hp : g.Predictive t)
    (hts : ∀ x ∈ ts, g.HasTree x) (hus : ∀ x ∈ us, g.HasTree x)
    (hroots : us.map root = ts.map root) (hsentences : sentences us = sentences ts)
    (hform : g.Derives [g.start] (read ++ withoutEpsilon (ts.map root))) : us = ts := by
  induction ts using forest_induction generalizing us read with
  | nil => exact List.map_eq_nil_iff.1 hroots
  | leaf s rest ih =>
    rw [List.map_cons, root] at hroots hform
    obtain ⟨x, us, rfl, rfl, hrest⟩ := List.map_eq_cons_iff.1 hroots
    rw [List.forall_mem_cons] at hts hus
    have hx : x = .leaf x.root := hus.1.eq_leaf hts.1.declares_leaf
    -- both leaves are passed over
    rw [sentences_cons, sentences_cons, ← hx] at hsentences
    rw [← List.singleton_append (x := x.root), withoutEpsilon_append, ← List.append_assoc] at hform
    rw [← hx, ih hts.2 hus.2 hrest (List.append_cancel_left hsentences) hform]
  | node s children rest ih =>
    rw [List.map_cons, root] at hroots hform
    obtain ⟨x, us, rfl, rfl, hrest⟩ := List.map_eq_cons_iff.1 hroots
    obtain ⟨hr, hchildren⟩ := (hts _ List.mem_cons_self).cases_node
    obtain ⟨children', hx⟩ := (hus x List.mem_cons_self).eq_node (declares_of_mem_rules hr)
    rw [hx] at hus hsentences ⊢
    obtain ⟨-, hchildren'⟩ := (hus _ List.mem_cons_self).cases_node
    rw [sentences_node_cons, sentences_node_cons] at hsentences
    -- the rest of the string calls for the rules of both nodes
    have hbody := hp.map_root_eq hg hts hus hrest hsentences hform
    rw [List.forall_mem_cons] at hts hus
    have hlength : children'.length = children.length := by
      simpa using congrArg List.length hbody
    have hroots' : (children' ++ us).map root = (children ++ rest).map root := by
      rw [List.map_append, List.map_append, hbody, hrest]
    have hform' := hform.snoc_rule (hg.ne_epsilon_of_declares (declares_of_mem_rules hr)) hr
    rw [← List.map_append] at hform'
    have heq := ih (List.forall_mem_append.2 ⟨hchildren, hts.2⟩)
      (List.forall_mem_append.2 ⟨hchildren', hus.2⟩) hroots' hsentences hform'
    obtain ⟨rfl, rfl⟩ := List.append_inj heq hlength
    rfl

/-- A grammar is not ambiguous if a table predicts every rule where it should. -/
theorem Predictive.not_ambiguous (hg : g.WellFormed) (hp : g.Predictive t) : ¬ g.Ambiguous := by
  rintro ⟨x, y, hne, hx, hy, hroot, hroot', hsentence, -⟩
  have hform : g.Derives [g.start] ([] ++ withoutEpsilon ([y].map root)) := by
    rw [List.map_singleton, hroot',
      withoutEpsilon_cons_of_ne (hg.ne_epsilon_of_declares hg.declares_start)]
    exact .refl _
  have heq : [x] = [y] := hp.eq_of_sentences_eq hg (List.forall_mem_singleton.2 hy)
    (List.forall_mem_singleton.2 hx) (by rw [List.map_singleton, List.map_singleton, hroot, hroot'])
    (by rw [sentences_cons, sentences_cons, hsentence]) hform
  exact hne (List.singleton_inj.1 heq)

end Grammar

namespace Workspace

variable {w u : Workspace}

/-! ## Ambiguity is reported -/

/-- If an ambiguous grammar was solved, filling its table meets a conflict, whatever was asked in
between. So a grammar whose table is filled without conflicts is unambiguous. -/
theorem conflicts_ne_nil_of_ambiguous (hw : w.Reached) (hu : w.solve.Queried u)
    (h : u.grammar.Ambiguous) : u.predict.1.conflicts ≠ [] := by
  have hsolved := (solved_solve hw.wellFormed).queried hu
  intro hconflicts
  have hpredictive := hsolved.prepared.predictive hconflicts
  exact hpredictive.not_ambiguous hsolved.wellFormed h

/-- `S->S | a` is solved and asked about FIRST of `SS`. Its only sentence `a` has a tree for each
number of times that `S` is replaced by itself. -/
theorem conflicts_ne_nil_of_ambiguous_cycle :
    ∃ w u : Workspace, w.Reached ∧ w.solve.Queried u ∧ u.grammar = ⟨[⟨'S', [['S'], ['a']]⟩]⟩ ∧
      u.grammar.Ambiguous ∧ u.predict.1.conflicts ≠ [] := by
  have hload : Grammar.ofLines ["S->S".toList, "S->a".toList] =
      .ok ⟨[⟨'S', [['S'], ['a']]⟩]⟩ := rfl
  have hreached := Reached.lines hload
  have hqueried : (ofGrammar ⟨[⟨'S', [['S'], ['a']]⟩]⟩).solve.Queried
      ((ofGrammar ⟨[⟨'S', [['S'], ['a']]⟩]⟩).solve.firstOfWord ['S', 'S']).2 :=
    .snoc .refl (.firstOfWord _)
  have hlow : (Grammar.mk [⟨'S', [['S'], ['a']]⟩]).HasTree (.node 'S' [.leaf 'a']) :=
    .node (by decide) (List.forall_mem_singleton.2 (.leaf (by decide)))
  have hhigh : (Grammar.mk [⟨'S', [['S'], ['a']]⟩]).HasTree (.node 'S' [.node 'S' [.leaf 'a']]) :=
    .node (by decide) (List.forall_mem_singleton.2 hlow)
  have hambiguous : (Grammar.mk [⟨'S', [['S'], ['a']]⟩]).Ambiguous := by
    refine ⟨_, _, ?_, hlow, hhigh, rfl, rfl, rfl, ?_⟩
    · intro h
      cases h
    · show ∀ s ∈ ['a'], isTerminal s = true
      exact List.forall_mem_singleton.2 (by decide +kernel)
  exact ⟨_, _, hreached, hqueried, rfl, hambiguous,
    conflicts_ne_nil_of_ambiguous hreached hqueried hambiguous⟩

end Workspace

end LL1
