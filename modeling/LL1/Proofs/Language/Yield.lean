/-
# Words that yield strings

A word yields a string if its symbols are gone through from the left: epsilon yields nothing, a symbol
that is not declared yields itself, and a non-terminal gives way to one of its right-hand sides. The
number of replacements is counted. This is how a stack yields the input that is read from it.
-/
import LL1.Proofs.Language.Derivation

namespace LL1

namespace Grammar

/-- A word yields a string, after so many replacements. -/
inductive Yields (g : Grammar) : Nat → Word → Word → Prop where
  /-- The empty word yields the empty string. -/
  | nil : Yields g 0 [] []
  /-- Epsilon yields nothing. -/
  | epsilon {n : Nat} {v u : Word} (rest : Yields g n v u) : Yields g n (LL1.epsilon :: v) u
  /-- A symbol that is not declared yields itself. -/
  | symbol {n : Nat} {s : Symbol} {v u : Word} (hne : s ≠ LL1.epsilon) (hs : g.declares s = false)
    (rest : Yields g n v u) : Yields g n (s :: v) (s :: u)
  /-- A non-terminal gives way to a right-hand side. -/
  | expand {n : Nat} {s : Symbol} {body v u : Word} (hr : ⟨s, body⟩ ∈ g.rules)
    (rest : Yields g n (body ++ v) u) : Yields g (n + 1) (s :: v) u

variable {g : Grammar} {n k : Nat} {v w x y u : Word}

/-! ## Composing and splitting -/

/-- Words that yield strings yield them side by side. -/
theorem Yields.append (hv : g.Yields n v x) (hw : g.Yields k w y) :
    g.Yields (n + k) (v ++ w) (x ++ y) := by
  induction hv with
  | nil => rwa [Nat.zero_add]
  | epsilon _ ih => exact .epsilon ih
  | symbol hne hs _ ih => exact .symbol hne hs ih
  | expand hr _ ih =>
    rw [Nat.add_right_comm]
    rw [List.append_assoc] at ih
    exact .expand hr ih

/-- What a concatenation yields, its parts yield. -/
theorem Yields.of_append (h : g.Yields n (v ++ w) u) :
    ∃ i j x y, n = i + j ∧ u = x ++ y ∧ g.Yields i v x ∧ g.Yields j w y := by
  have hnil : ∀ {n u}, g.Yields n w u →
      ∃ i j x y, n = i + j ∧ u = x ++ y ∧ g.Yields i [] x ∧ g.Yields j w y :=
    fun {n u} h => ⟨0, n, [], u, (Nat.zero_add n).symm, rfl, .nil, h⟩
  generalize hz : v ++ w = z at h
  induction h generalizing v with
  | nil =>
    obtain ⟨rfl, rfl⟩ := List.append_eq_nil_iff.1 hz
    exact hnil .nil
  | @epsilon n z u rest ih =>
    cases v with
    | nil =>
      obtain rfl : w = _ := hz
      exact hnil (.epsilon rest)
    | cons r v =>
      rw [List.cons_append] at hz
      obtain ⟨rfl, rfl⟩ := List.cons.inj hz
      obtain ⟨i, j, x, y, hn, hu, hx, hy⟩ := ih rfl
      exact ⟨i, j, x, y, hn, hu, .epsilon hx, hy⟩
  | @symbol n s z u hne hs rest ih =>
    cases v with
    | nil =>
      obtain rfl : w = _ := hz
      exact hnil (.symbol hne hs rest)
    | cons r v =>
      rw [List.cons_append] at hz
      obtain ⟨rfl, rfl⟩ := List.cons.inj hz
      obtain ⟨i, j, x, y, hn, hu, hx, hy⟩ := ih rfl
      exact ⟨i, j, r :: x, y, hn, congrArg (r :: ·) hu, .symbol hne hs hx, hy⟩
  | @expand n s body z u hr rest ih =>
    cases v with
    | nil =>
      obtain rfl : w = _ := hz
      exact hnil (.expand hr rest)
    | cons r v =>
      rw [List.cons_append] at hz
      obtain ⟨rfl, rfl⟩ := List.cons.inj hz
      rw [← List.append_assoc] at ih
      obtain ⟨i, j, x, y, rfl, hu, hx, hy⟩ := ih rfl
      exact ⟨i + 1, j, x, y, Nat.add_right_comm i j 1, hu, .expand hr hx, hy⟩

/-! ## Yields and derivations -/

/-- A word derives what it yields. -/
theorem Yields.derives (hg : g.declares LL1.epsilon = false) (h : g.Yields n v u) :
    g.Derives (withoutEpsilon v) u := by
  induction h with
  | nil => exact .refl []
  | epsilon _ ih => rwa [withoutEpsilon_cons_epsilon]
  | @symbol n s v u hne _ _ ih =>
    rw [withoutEpsilon_cons_of_ne hne]
    exact (Derives.refl [s]).append ih
  | @expand n s body v u hr _ ih =>
    have hne : s ≠ LL1.epsilon := by
      rintro rfl
      rw [declares_of_mem_rules hr] at hg
      cases hg
    rw [withoutEpsilon_cons_of_ne hne]
    rw [withoutEpsilon_append] at ih
    exact ((derives_of_mem_rules hr).append (.refl (withoutEpsilon v))).trans ih

/-- A string that is yielded holds neither epsilons nor non-terminals. -/
theorem Yields.mem (h : g.Yields n v u) : ∀ s ∈ u, s ≠ LL1.epsilon ∧ g.declares s = false := by
  induction h with
  | nil => exact fun s hs => absurd hs List.not_mem_nil
  | epsilon _ ih => exact ih
  | symbol hne hs _ ih => exact List.forall_mem_cons.2 ⟨⟨hne, hs⟩, ih⟩
  | expand _ _ ih => exact ih

/-- A string without epsilons and non-terminals yields itself. -/
theorem yields_self (h : ∀ s ∈ u, s ≠ LL1.epsilon ∧ g.declares s = false) : g.Yields 0 u u := by
  induction u with
  | nil => exact .nil
  | cons s u ih =>
    rw [List.forall_mem_cons] at h
    exact .symbol h.1.1 h.1.2 (ih h.2)

/-- Epsilons can be put back into a word. -/
theorem yields_of_withoutEpsilon (h : g.Yields n (withoutEpsilon v) u) : g.Yields n v u := by
  induction v generalizing n u with
  | nil => exact h
  | cons s v ih =>
    by_cases hs : s = LL1.epsilon
    · subst hs
      rw [withoutEpsilon_cons_epsilon] at h
      exact .epsilon (ih h)
    · rw [withoutEpsilon_cons_of_ne hs] at h
      obtain ⟨i, j, x, y, rfl, rfl, hx, hy⟩ := Yields.of_append (v := [s]) h
      exact hx.append (v := [s]) (ih hy)

/-- A form yields the strings that it derives. -/
theorem exists_yields_of_derives (h : g.Derives v u)
    (hu : ∀ s ∈ u, s ≠ LL1.epsilon ∧ g.declares s = false) : ∃ n, g.Yields n v u := by
  refine h.backward (P := fun v => ∃ n, g.Yields n v u) ?_ ⟨0, yields_self hu⟩
  rintro v w hstep ⟨n, hn⟩
  obtain ⟨before, after, r, hr, rfl, rfl⟩ := hstep.exists_rule
  -- the right-hand side that was put in yields its part of the string
  obtain ⟨i, j, x, y, -, rfl, hx, hafter⟩ := hn.of_append
  obtain ⟨i, j', x, z, -, rfl, hbefore, hbody⟩ := hx.of_append
  have hhead : g.Yields (j' + j + 1) (r.head :: after) (z ++ y) :=
    .expand hr ((yields_of_withoutEpsilon hbody).append hafter)
  rw [List.append_assoc]
  exact ⟨_, hbefore.append hhead⟩

end Grammar

end LL1
