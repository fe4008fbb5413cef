/-
# Grammars kept in other grammars

A grammar is kept in another one if its symbols are declared there and generate the same strings. Words
over its symbols then vanish in both grammars or in none, and if all non-terminals are productive then
the same terminals begin them.
-/
import LL1.Proofs.Analysis.Sentences

namespace LL1

namespace Grammar

/-- Whether the symbols of a grammar are declared in another one and generate the same strings there. -/
structure KeptIn (g g' : Grammar) : Prop where
  /-- The declared symbols are still declared. -/
  declared : ∀ s ∈ g.symbols, s ∈ g'.symbols
  /-- The declared symbols generate the same strings. -/
  generates : ∀ s ∈ g.symbols, ∀ w, g'.Generates s w ↔ g.Generates s w

variable {g g' : Grammar} {s t : Symbol} {w : Word}

/-! ## Vanishing -/

/-- A non-terminal vanishes if it generates the empty string. -/
theorem vanishes_iff_generates_nil (hs : s ≠ epsilon) : g.Vanishes [s] ↔ g.Generates s [] := by
  unfold Vanishes Generates
  rw [withoutEpsilon_cons_of_ne hs]
  exact (and_iff_left fun u hu => absurd hu List.not_mem_nil).symm

/-- A symbol of a grammar that is kept vanishes in both grammars or in none. -/
theorem KeptIn.vanishes_singleton (h : g.KeptIn g') (hg : g.WellFormed) (hg' : g'.WellFormed)
    (hs : isUppercase s = true → g.declares s = true) : g'.Vanishes [s] ↔ g.Vanishes [s] := by
  cases hup : isUppercase s with
  | true =>
    have hd := hs hup
    have hne := hg.ne_epsilon_of_declares hd
    rw [vanishes_iff_generates_nil hne, vanishes_iff_generates_nil hne,
      h.generates s (declares_iff.1 hd)]
  | false =>
    -- a terminal is declared in neither grammar
    have ht : isTerminal s = true := isTerminal_iff.2 hup
    by_cases heps : s = epsilon
    · subst heps
      exact iff_of_true vanishes_epsilon vanishes_epsilon
    · exact iff_of_false (not_vanishes_of_undeclared heps (hg'.declares_eq_false ht))
        (not_vanishes_of_undeclared heps (hg.declares_eq_false ht))

/-- A word over the symbols of a grammar that is kept vanishes in both grammars or in none. -/
theorem KeptIn.vanishes (h : g.KeptIn g') (hg : g.WellFormed) (hg' : g'.WellFormed)
    (hw : ∀ s ∈ w, isUppercase s = true → g.declares s = true) : g'.Vanishes w ↔ g.Vanishes w := by
  rw [vanishes_iff_forall, vanishes_iff_forall (g := g)]
  exact forall₂_congr fun s hs => h.vanishes_singleton hg hg' (hw s hs)

/-! ## FIRST -/

/-- Nothing begins a terminal but the terminal itself. -/
theorem inFirst_iff_of_isTerminal (hg : g.WellFormed) (hs : isTerminal s = true) (hne : t ≠ epsilon) :
    g.InFirst [s] t ↔ t = s := by
  have hd := hg.declares_eq_false hs
  constructor
  · intro h
    obtain ⟨-, -, rest, hrest⟩ := h.resolve_right fun h => hne h.1
    have heq := hrest.eq_of_undeclared fun u hu => by
      rw [List.mem_singleton.1 (mem_withoutEpsilon.1 hu).1]
      exact hd
    have hmem : t ∈ withoutEpsilon [s] := heq ▸ List.mem_cons_self
    exact List.mem_singleton.1 (mem_withoutEpsilon.1 hmem).1
  · rintro rfl
    refine Or.inl ⟨hne, hd, [], ?_⟩
    rw [withoutEpsilon_cons_of_ne hne]
    exact .refl _

/-- The same terminals begin a symbol of a grammar that is kept, if all non-terminals of both grammars
are productive. -/
theorem KeptIn.inFirst_singleton (h : g.KeptIn g') (hg : g.WellFormed) (hg' : g'.WellFormed)
    (hprod : ∀ s ∈ g.symbols, g.Productive s) (hprod' : ∀ s ∈ g'.symbols, g'.Productive s)
    (hs : isUppercase s = true → g.declares s = true) (hne : t ≠ epsilon) :
    g'.InFirst [s] t ↔ g.InFirst [s] t := by
  cases hup : isUppercase s with
  | true =>
    -- FIRST of a non-terminal holds the first symbols of its sentences
    have key : ∀ k : Grammar, k.WellFormed → (∀ s ∈ k.symbols, k.Productive s) → k.declares s = true →
        (k.InFirst [s] t ↔ ∃ rest, k.Generates s (t :: rest)) := by
      intro k hk hkprod hd
      rw [inFirst_singleton_iff hk hd, exists_generates_cons_iff hk hkprod hd]
      exact or_iff_left fun h => hne h.1
    have hd := declares_iff.1 (hs hup)
    rw [key g hg hprod (hs hup), key g' hg' hprod' (declares_iff.2 (h.declared s hd))]
    exact exists_congr fun rest => h.generates s hd (t :: rest)
  | false =>
    have ht : isTerminal s = true := isTerminal_iff.2 hup
    rw [inFirst_iff_of_isTerminal hg ht hne, inFirst_iff_of_isTerminal hg' ht hne]

/-- The same terminals begin a word over the symbols of a grammar that is kept, if all non-terminals of
both grammars are productive. -/
theorem KeptIn.inFirst (h : g.KeptIn g') (hg : g.WellFormed) (hg' : g'.WellFormed)
    (hprod : ∀ s ∈ g.symbols, g.Productive s) (hprod' : ∀ s ∈ g'.symbols, g'.Productive s)
    (hw : ∀ s ∈ w, isUppercase s = true → g.declares s = true) (hne : t ≠ epsilon) :
    g'.InFirst w t ↔ g.InFirst w t := by
  induction w with
  | nil => exact iff_of_false (not_inFirst_nil hg' hne) (not_inFirst_nil hg hne)
  | cons s w ih =>
    rw [List.forall_mem_cons] at hw
    rw [← List.singleton_append, inFirst_append hg hne, inFirst_append hg' hne,
      h.inFirst_singleton hg hg' hprod hprod' hw.1 hne, h.vanishes_singleton hg hg' hw.1, ih hw.2]

end Grammar

end LL1
