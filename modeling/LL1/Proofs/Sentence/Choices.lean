/-
# Choosing a tree

A tree that grows asks for one choice at each of its nodes, depth first and from left to right. Every
derivation tree can be chosen that way: as long as the depth is free, no alternative that occurs in it is
left out, and the choices for the children of a node follow the choice at the node in turn.
-/
import LL1.Proofs.Sentence.Growth

namespace LL1

/-! ## Choices in a row -/

/-- A choice among a number of candidates. -/
structure Choice where
  /-- The number of candidates. -/
  count : Nat
  /-- The index that is chosen. -/
  index : Fin count

/-- From the first state on, the chooser makes the choices in a row if it is asked for them, and it is in
the second state afterwards. -/
inductive Chooser.Makes {σ : Type} (chooser : Chooser σ) : List Choice → σ → σ → Prop where
  /-- No choice. -/
  | nil (st : σ) : Makes chooser [] st st
  /-- One choice before the others. -/
  | cons {c : Choice} {choices : List Choice} {st st₁ st₂ : σ}
    (first : chooser.pick st c.count c.index.pos = (c.index, st₁))
    (rest : Makes chooser choices st₁ st₂) : Makes chooser (c :: choices) st st₂

/-- Choices in a row are made one part after the other. -/
theorem Chooser.Makes.of_append {σ : Type} {chooser : Chooser σ} {cs ds : List Choice} {st st' : σ}
    (h : chooser.Makes (cs ++ ds) st st') : ∃ mid, chooser.Makes cs st mid ∧ chooser.Makes ds mid st' := by
  induction cs generalizing st with
  | nil => exact ⟨st, .nil st, h⟩
  | cons c cs ih =>
    cases h with
    | cons first rest =>
      obtain ⟨mid, hcs, hds⟩ := ih rest
      exact ⟨mid, .cons first hcs, hds⟩

namespace Grammar

open SentenceTree

variable {g : Grammar} {h : Heights} {t : SentenceTree} {children : List SentenceTree}
  {maxDepth depth room : Nat}

/-- Whether there may be as many candidates as in the choice: some non-terminal has alternatives
enough. -/
def Offers (g : Grammar) (c : Choice) : Prop :=
  ∃ n ∈ g.nonTerminals, c.count ≤ n.alternatives.length

/-! ## Trees that are chosen -/

/-- Whoever makes the choices grows the tree from its root, and all choices are used up. -/
def GrownBy (g : Grammar) (h : Heights) (maxDepth room depth : Nat) (choices : List Choice)
    (t : SentenceTree) : Prop :=
  ∀ (σ : Type) (chooser : Chooser σ) (st st' : σ), chooser.Makes choices st st' →
    g.growTree h chooser maxDepth room depth t.root st = (.ok t, st')

/-- Whoever makes the choices grows the trees from their roots, and all choices are used up. -/
def AllGrownBy (g : Grammar) (h : Heights) (maxDepth room depth : Nat) (choices : List Choice)
    (ts : List SentenceTree) : Prop :=
  ∀ (σ : Type) (chooser : Chooser σ) (st st' : σ), chooser.Makes choices st st' →
    growWord (g.growTree h chooser maxDepth room depth) (ts.map root) st = (.ok ts, st')

/-- A leaf for a terminal takes no choice. -/
theorem AllGrownBy.leaf {choices : List Choice} {s : Symbol} (hs : isTerminal s = true)
    (hrest : g.AllGrownBy h maxDepth room depth choices children) :
    g.AllGrownBy h maxDepth room depth choices (.leaf s :: children) := by
  intro σ chooser st st' hmakes
  rw [List.map_cons, root, growWord, if_pos hs, hrest σ chooser st st' hmakes]

/-- The choices for a tree come before those for the trees behind it. -/
theorem AllGrownBy.cons {choices more : List Choice} (hs : isTerminal t.root = false)
    (hfirst : g.GrownBy h maxDepth room depth choices t)
    (hrest : g.AllGrownBy h maxDepth room depth more children) :
    g.AllGrownBy h maxDepth room depth (choices ++ more) (t :: children) := by
  intro σ chooser st st' hmakes
  obtain ⟨mid, hchoices, hmore⟩ := hmakes.of_append
  rw [List.map_cons, growWord, hs, if_neg Bool.false_ne_true, hfirst σ chooser st mid hchoices]
  simp only [hrest σ chooser mid st' hmore]

/-- The choice at a node comes before those for its children. -/
theorem GrownBy.node {n : NonTerminal} {choices : List Choice} (hfind : g.find? n.symbol = some n)
    {i : Fin (g.choices h maxDepth depth n).length}
    (hi : (g.choices h maxDepth depth n).get i = children.map root)
    (hbelow : g.AllGrownBy h maxDepth room (depth + 1) choices children) :
    g.GrownBy h maxDepth (room + 1) depth (⟨_, i⟩ :: choices) (.node n.symbol children) := by
  intro σ chooser st st' hmakes
  cases hmakes with
  | @cons _ _ _ st₁ _ first rest =>
    have hchildren := hbelow σ chooser st₁ st' rest
    rw [← hi] at hchildren
    rw [root, growTree, hfind]
    simp only [i.pos, dite_true, first, hchildren]

/-- If each of some trees can be chosen, they can be chosen one after the other. -/
theorem exists_allGrownBy (hleaf : ∀ t ∈ children, isTerminal t.root = true → t = .leaf t.root)
    (hgrown : ∀ t ∈ children, isTerminal t.root = false →
      ∃ choices, (∀ c ∈ choices, g.Offers c) ∧ g.GrownBy h maxDepth room depth choices t) :
    ∃ choices, (∀ c ∈ choices, g.Offers c) ∧ g.AllGrownBy h maxDepth room depth choices children := by
  induction children with
  | nil =>
    refine ⟨[], fun c hc => absurd hc List.not_mem_nil, fun σ chooser st st' hmakes => ?_⟩
    cases hmakes
    rfl
  | cons t children ih =>
    rw [List.forall_mem_cons] at hleaf hgrown
    obtain ⟨more, hoffers, hmore⟩ := ih hleaf.2 hgrown.2
    cases hs : isTerminal t.root with
    | true =>
      rw [hleaf.1 hs]
      exact ⟨more, hoffers, hmore.leaf hs⟩
    | false =>
      obtain ⟨choices, hoffers', hchoices⟩ := hgrown.1 hs
      exact ⟨choices ++ more, List.forall_mem_append.2 ⟨hoffers', hoffers⟩, .cons hs hchoices hmore⟩

/-- Before the greatest free depth, every alternative of a derivation tree may be chosen. -/
theorem Exact.mem_choices (hg : g.WellFormed) (hh : g.Exact h) {n : NonTerminal}
    (hn : n ∈ g.nonTerminals) (ht : g.HasTree (.node n.symbol children)) (hdepth : depth < maxDepth) :
    children.map root ∈ g.choices h maxDepth depth n := by
  obtain ⟨hr, hbelow⟩ := ht.cases_node
  have hwithin : ∀ u ∈ children.map root, g.declares u = true →
      h.Within g.nonTerminals.length u := by
    intro u hu hd
    obtain ⟨t, ht, rfl⟩ := List.mem_map.1 hu
    have htree : g.TreeWithin t.height t.root := ⟨t, hbelow t ht, rfl, Nat.le_refl _⟩
    exact (hh _ _).2 ⟨hd, htree.within_length⟩
  obtain ⟨b, -, hb⟩ := exists_bodyHeight_le_iff.2 ⟨_, rfl, hwithin⟩
  exact mem_choices_iff.2 ⟨(hg.mem_alternatives_iff hn).2 hr, b, hb, Or.inl hdepth⟩

/-- Every derivation tree of a non-terminal can be chosen, if its depth is free and there is room for it.
-/
theorem Exact.exists_grownBy (hg : g.WellFormed) (hh : g.Exact h) (ht : g.HasTree t)
    (hd : g.declares t.root = true) (hdepth : depth + t.height ≤ maxDepth) (hroom : t.height ≤ room) :
    ∃ choices, (∀ c ∈ choices, g.Offers c) ∧ g.GrownBy h maxDepth room depth choices t := by
  induction room generalizing t depth with
  | zero =>
    obtain ⟨children, heq⟩ := ht.eq_node hd
    rw [heq, height] at hroom
    exact absurd hroom (Nat.not_succ_le_zero _)
  | succ room ih =>
    obtain ⟨children, heq⟩ := ht.eq_node hd
    obtain ⟨n, hn, hsymbol⟩ := List.mem_map.1 (declares_iff.1 hd)
    rw [← hsymbol] at heq
    subst heq
    rw [height] at hdepth hroom
    have hbelow := ht.cases_node.2
    have hheights := heights_le_iff.1 (Nat.le_refl (SentenceTree.heights children))
    have hchosen : ∀ u ∈ children, isTerminal u.root = false → ∃ choices,
        (∀ c ∈ choices, g.Offers c) ∧ g.GrownBy h maxDepth room (depth + 1) choices u := by
      intro u hu hs
      have hdu : g.declares u.root = true := hg.declares_of_mem_body ht.cases_node.1
        (List.mem_map_of_mem hu) (isTerminal_eq_false_iff.1 hs)
      have hheight := hheights u hu
      exact ih (hbelow u hu) hdu (by omega) (by omega)
    obtain ⟨choices, hoffers, hchoices⟩ := exists_allGrownBy
      (fun u hu hs => (hbelow u hu).eq_leaf (hg.declares_eq_false hs)) hchosen
    obtain ⟨i, hi⟩ := List.get_of_mem (hh.mem_choices hg hn ht (by omega : depth < maxDepth))
    refine ⟨⟨_, i⟩ :: choices, List.forall_mem_cons.2 ⟨⟨n, hn, ?_⟩, hoffers⟩,
      .node (hg.find?_of_mem hn) hi hchoices⟩
    exact List.length_filter_le _ _

end Grammar

end LL1
