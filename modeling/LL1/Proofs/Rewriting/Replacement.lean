/-
# Replacing a non-terminal

A rewriting step takes one non-terminal out of a system and puts one or two in its place, the second
under a fresh symbol. The step is sound if the least meanings of all other symbols, and of the
non-terminal itself, stay the same whatever surrounds it. A solution of one system becomes a
solution of the other when the fresh symbol is given a suitable language, because nothing else in
the system mentions it.
-/
import LL1.Proofs.Language.Meaning
import Mathlib.Logic.Function.Basic

namespace LL1

/-! ## Fresh symbols -/

/-- Whether no non-terminal of the system bears the symbol or mentions it. -/
def Unused (x : Symbol) (system : List NonTerminal) : Prop :=
  ∀ k ∈ system, k.symbol ≠ x ∧ ∀ body ∈ k.alternatives, x ∉ body

/-- What a word denotes does not depend on the language of a symbol that it does not mention. -/
theorem denotes_update_iff {m : Symbol → Language} {x : Symbol} {l : Language} {v : Word}
    (hx : x ∉ v) {w : Word} : Denotes (Function.update m x l) v w ↔ Denotes m v w := by
  have hsame : ∀ s ∈ v, s ≠ epsilon → Function.update m x l s = m s := by
    intro s hs _
    have hsx : s ≠ x := by
      rintro rfl
      exact hx hs
    exact Function.update_of_ne hsx l m
  exact ⟨Denotes.congr hsame, Denotes.congr fun s hs hne => (hsame s hs hne).symm⟩

/-! ## Replacements -/

/-- Whether the non-terminals of a list can take the place of `n`: in every system in which `n` is
the only one of its name and the fresh symbols are unused, all other symbols keep their least
meanings. -/
def NonTerminal.ReplaceableBy (n : NonTerminal) (fresh : List Symbol) (ns : List NonTerminal) :
    Prop :=
  ∀ (before after : List NonTerminal) (given : Symbol → Language),
    (∀ k ∈ before ++ after, k.symbol ≠ n.symbol) →
    (∀ x ∈ fresh, Unused x (before ++ n :: after)) →
    ∀ s, s ∉ fresh →
      leastMeaning (before ++ n :: after) given s = leastMeaning (before ++ ns ++ after) given s

variable {before after : List NonTerminal} {given m : Symbol → Language} {n k head tail : NonTerminal}
  {x : Symbol} {l : Language}

/-- A solution of a system is a solution of the system with another non-terminal of the same name,
if that one is closed as well. -/
theorem Solves.replace (hm : Solves (before ++ n :: after) given m) (hsymbol : k.symbol = n.symbol)
    (hclosed : ∀ body ∈ k.alternatives, ∀ w, Denotes m body w → m n.symbol w) :
    Solves (before ++ [k] ++ after) given m := by
  refine ⟨fun s hs => hm.outside s ?_, ?_⟩
  · intro j hj
    simp only [List.mem_append, List.mem_cons, List.not_mem_nil, or_false] at hj hs
    rcases hj with hj | rfl | hj
    · exact hs j (Or.inl (Or.inl hj))
    · exact hsymbol ▸ hs k (Or.inl (Or.inr rfl))
    · exact hs j (Or.inr hj)
  · intro j hj body hbody w hw
    simp only [List.mem_append, List.mem_cons, List.not_mem_nil, or_false] at hj
    rcases hj with (hj | rfl) | hj
    · exact hm.closed j (by simp [hj]) body hbody w hw
    · exact hsymbol ▸ hclosed body hbody w hw
    · exact hm.closed j (by simp [hj]) body hbody w hw

/-- A solution becomes a solution of the divided system when the fresh symbol is given a language
that makes both parts closed. -/
theorem Solves.divide (hm : Solves (before ++ n :: after) given m)
    (hx : Unused x (before ++ n :: after)) (hhead : head.symbol = n.symbol) (htail : tail.symbol = x)
    (hclosed : ∀ body ∈ head.alternatives, ∀ w,
      Denotes (Function.update m x l) body w → m n.symbol w)
    (hfresh : ∀ body ∈ tail.alternatives, ∀ w, Denotes (Function.update m x l) body w → l w) :
    Solves (before ++ [head, tail] ++ after) given (Function.update m x l) := by
  -- the alternatives of the surrounding non-terminals do not notice the new language
  have hother : ∀ j ∈ before ++ n :: after, ∀ body ∈ j.alternatives, ∀ w,
      Denotes (Function.update m x l) body w → Function.update m x l j.symbol w := by
    intro j hj body hbody w hw
    rw [Function.update_of_ne (hx j hj).1]
    exact hm.closed j hj body hbody w ((denotes_update_iff ((hx j hj).2 body hbody)).1 hw)
  refine ⟨?_, ?_⟩
  · intro s hs
    simp only [List.mem_append, List.mem_cons, List.not_mem_nil, or_false] at hs
    have hsx : s ≠ x := by
      rintro rfl
      exact hs tail (by simp) htail
    rw [Function.update_of_ne hsx]
    refine hm.outside s fun j hj => ?_
    simp only [List.mem_append, List.mem_cons] at hj
    rcases hj with hj | rfl | hj
    · exact hs j (by simp [hj])
    · exact hhead ▸ hs head (by simp)
    · exact hs j (by simp [hj])
  · intro j hj body hbody w hw
    simp only [List.mem_append, List.mem_cons, List.not_mem_nil, or_false] at hj
    rcases hj with (hj | rfl | rfl) | hj
    · exact hother j (by simp [hj]) body hbody w hw
    · rw [hhead, Function.update_of_ne (hx n (by simp)).1]
      exact hclosed body hbody w hw
    · rw [htail, Function.update_self]
      exact hfresh body hbody w hw
    · exact hother j (by simp [hj]) body hbody w hw

/-- A solution of the divided system becomes a solution of the system with one non-terminal, if that
one is closed, when the fresh symbol is given back its language. -/
theorem Solves.merge (hm : Solves (before ++ [head, tail] ++ after) given m)
    (hx : Unused x (before ++ n :: after)) (hhead : head.symbol = n.symbol) (htail : tail.symbol = x)
    (hclosed : ∀ body ∈ n.alternatives, ∀ w, Denotes m body w → m n.symbol w) :
    Solves (before ++ n :: after) given (Function.update m x (given x)) := by
  refine ⟨?_, ?_⟩
  · intro s hs
    by_cases hsx : s = x
    · rw [hsx, Function.update_self]
    · rw [Function.update_of_ne hsx]
      refine hm.outside s fun j hj => ?_
      simp only [List.mem_append, List.mem_cons, List.not_mem_nil, or_false] at hj
      rcases hj with (hj | rfl | rfl) | hj
      · exact hs j (by simp [hj])
      · exact hhead ▸ hs n (by simp)
      · exact fun heq => hsx (heq ▸ htail)
      · exact hs j (by simp [hj])
  · intro j hj body hbody w hw
    rw [Function.update_of_ne (hx j hj).1]
    rw [denotes_update_iff ((hx j hj).2 body hbody)] at hw
    simp only [List.mem_append, List.mem_cons] at hj
    rcases hj with hj | rfl | hj
    · exact hm.closed j (by simp [hj]) body hbody w hw
    · exact hclosed body hbody w hw
    · exact hm.closed j (by simp [hj]) body hbody w hw

/-- In a divided system the two parts are the only non-terminals of their names. -/
theorem eq_of_mem_divided (hother : ∀ k ∈ before ++ after, k.symbol ≠ n.symbol)
    (hx : Unused x (before ++ n :: after)) (hhead : head.symbol = n.symbol) (htail : tail.symbol = x)
    (hk : k ∈ before ++ [head, tail] ++ after) :
    (k.symbol = n.symbol → k = head) ∧ (k.symbol = x → k = tail) := by
  have hnx : n.symbol ≠ x := (hx n (by simp)).1
  simp only [List.mem_append, List.mem_cons, List.not_mem_nil, or_false] at hk
  rcases hk with (hk | rfl | rfl) | hk
  · have hne := hother k (List.mem_append_left _ hk)
    exact ⟨fun heq => absurd heq hne, fun heq => absurd heq (hx k (by simp [hk])).1⟩
  · exact ⟨fun _ => rfl, fun heq => absurd (hhead.symm.trans heq) hnx⟩
  · exact ⟨fun heq => absurd (heq.symm.trans htail) hnx, fun _ => rfl⟩
  · have hne := hother k (List.mem_append_right _ hk)
    exact ⟨fun heq => absurd heq hne, fun heq => absurd heq (hx k (by simp [hk])).1⟩

end LL1
