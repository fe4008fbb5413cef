/-
# Least meanings and derivations

The least solution of a system of non-terminals is itself a solution, every string of a non-terminal
comes from one of its alternatives, and what is closed under the alternatives holds of all strings.
The strings that a symbol of a grammar generates are those of the least solution of its
non-terminals, so a rewriting keeps the language of a grammar if it keeps least solutions.
-/
import LL1.Language.Meaning
import LL1.Proofs.Grammar.WellFormed

namespace LL1

variable {m m' : Symbol → Language} {given : Symbol → Language} {system : List NonTerminal}

/-! ## What words denote -/

/-- Only the languages of the symbols in a word matter for what it denotes. -/
theorem Denotes.congr {v w : Word} (h : ∀ s ∈ v, s ≠ LL1.epsilon → m s = m' s) (hd : Denotes m v w) :
    Denotes m' v w := by
  induction hd with
  | nil => exact .nil
  | epsilon _ ih => exact .epsilon (ih fun s hs => h s (List.mem_cons_of_mem _ hs))
  | cons hs first _ ih =>
    rw [h _ List.mem_cons_self hs] at first
    exact .cons hs first (ih fun s hs => h s (List.mem_cons_of_mem _ hs))

/-- The empty word denotes the empty string only. -/
theorem denotes_nil_iff {w : Word} : Denotes m [] w ↔ w = [] := by
  constructor
  · intro h
    cases h
    rfl
  · rintro rfl
    exact .nil

/-- An epsilon in front makes no difference. -/
theorem denotes_cons_epsilon_iff {v w : Word} : Denotes m (epsilon :: v) w ↔ Denotes m v w := by
  constructor
  · intro h
    cases h with
    | epsilon rest => exact rest
    | cons hs => exact absurd rfl hs
  · exact .epsilon

/-- Any other symbol in front contributes a string of its language. -/
theorem denotes_cons_iff {s : Symbol} (hs : s ≠ epsilon) {v w : Word} :
    Denotes m (s :: v) w ↔ ∃ x y, w = x ++ y ∧ m s x ∧ Denotes m v y := by
  constructor
  · intro h
    cases h with
    | epsilon => exact absurd rfl hs
    | cons _ first rest => exact ⟨_, _, rfl, first, rest⟩
  · rintro ⟨x, y, rfl, hx, hy⟩
    exact .cons hs hx hy

/-- A single symbol denotes its language. -/
theorem denotes_singleton_iff {s : Symbol} (hs : s ≠ epsilon) {w : Word} :
    Denotes m [s] w ↔ m s w := by
  rw [denotes_cons_iff hs]
  constructor
  · rintro ⟨x, y, rfl, hx, hy⟩
    rw [denotes_nil_iff] at hy
    rwa [hy, List.append_nil]
  · exact fun h => ⟨w, [], (List.append_nil w).symm, h, .nil⟩

/-- A concatenation denotes the concatenations of what its parts denote. -/
theorem denotes_append_iff {u v w : Word} :
    Denotes m (u ++ v) w ↔ ∃ x y, w = x ++ y ∧ Denotes m u x ∧ Denotes m v y := by
  induction u generalizing w with
  | nil =>
    constructor
    · exact fun h => ⟨[], w, rfl, .nil, h⟩
    · rintro ⟨x, y, rfl, hx, hy⟩
      rw [denotes_nil_iff] at hx
      rwa [hx]
  | cons s u ih =>
    rw [List.cons_append]
    by_cases hs : s = epsilon
    · subst hs
      simp only [denotes_cons_epsilon_iff, ih]
    · simp only [denotes_cons_iff hs, ih]
      constructor
      · rintro ⟨x, y, rfl, hx, y₁, y₂, rfl, h₁, h₂⟩
        exact ⟨x ++ y₁, y₂, by simp, ⟨x, y₁, rfl, hx, h₁⟩, h₂⟩
      · rintro ⟨x, y, rfl, ⟨x₁, x₂, rfl, h₁, h₂⟩, hy⟩
        exact ⟨x₁, x₂ ++ y, by simp, h₁, x₂, y, rfl, h₂, hy⟩

/-- Epsilons make no difference to what a word denotes. -/
theorem denotes_withoutEpsilon_iff {v w : Word} :
    Denotes m (withoutEpsilon v) w ↔ Denotes m v w := by
  induction v generalizing w with
  | nil => exact Iff.rfl
  | cons s v ih =>
    by_cases hs : s = epsilon
    · subst hs
      rw [withoutEpsilon_cons_epsilon, denotes_cons_epsilon_iff, ih]
    · rw [withoutEpsilon_cons_of_ne hs, denotes_cons_iff hs, denotes_cons_iff hs]
      simp only [ih]

/-! ## Least solutions -/

/-- The least meaning is part of every solution. -/
theorem Solves.of_leastMeaning (h : Solves system given m) {s : Symbol} {w : Word}
    (hw : leastMeaning system given s w) : m s w :=
  hw m h

/-- Symbols outside the system mean what is given. -/
theorem leastMeaning_of_outside {s : Symbol} (hs : ∀ n ∈ system, n.symbol ≠ s) :
    leastMeaning system given s = given s := by
  funext w
  refine propext ⟨fun hw => ?_, fun hw m hm => ?_⟩
  · -- the solution in which every symbol of the system derives every string
    have hall : Solves system given
        (fun t x => (∀ n ∈ system, n.symbol ≠ t) → given t x) := by
      refine ⟨fun t ht => funext fun x => propext ⟨fun h => h ht, fun h _ => h⟩, ?_⟩
      intro n hn body hbody x hx hout
      exact absurd rfl (hout n hn)
    exact hall.of_leastMeaning hw hs
  · rw [hm.outside s hs]
    exact hw

/-- The least meaning is a solution. -/
theorem solves_leastMeaning (system : List NonTerminal) (given : Symbol → Language) :
    Solves system given (leastMeaning system given) := by
  refine ⟨fun s hs => leastMeaning_of_outside hs, ?_⟩
  intro n hn body hbody w hw m hm
  exact hm.closed n hn body hbody w (hw.mono fun s x hx => hm.of_leastMeaning hx)

/-- What holds of the given strings and is passed on by the alternatives holds of all strings of the
least meaning. -/
theorem leastMeaning_induction {P : Symbol → Language}
    (outside : ∀ s, (∀ n ∈ system, n.symbol ≠ s) → ∀ w, given s w → P s w)
    (closed : ∀ n ∈ system, ∀ body ∈ n.alternatives, ∀ w,
      Denotes (fun s x => leastMeaning system given s x ∧ P s x) body w → P n.symbol w)
    {s : Symbol} {w : Word} (hw : leastMeaning system given s w) : P s w := by
  have hsolves : Solves system given (fun s x => leastMeaning system given s x ∧ P s x) := by
    refine ⟨fun s hs => ?_, fun n hn body hbody x hx => ⟨?_, closed n hn body hbody x hx⟩⟩
    · funext x
      rw [leastMeaning_of_outside hs]
      exact propext ⟨And.left, fun h => ⟨h, outside s hs x h⟩⟩
    · exact (solves_leastMeaning system given).closed n hn body hbody x
        (hx.mono fun _ _ h => h.1)
  exact (hsolves.of_leastMeaning hw).2

/-- A string of a symbol of the system comes from an alternative of the symbol. -/
theorem exists_alternative_of_leastMeaning {n : NonTerminal} (hn : n ∈ system) {w : Word}
    (hw : leastMeaning system given n.symbol w) :
    ∃ k ∈ system, k.symbol = n.symbol ∧ ∃ body ∈ k.alternatives,
      Denotes (leastMeaning system given) body w := by
  have key : ∀ s x, leastMeaning system given s x → (∃ k ∈ system, k.symbol = s) →
      ∃ k ∈ system, k.symbol = s ∧ ∃ body ∈ k.alternatives,
        Denotes (leastMeaning system given) body x := by
    intro s x hx
    refine leastMeaning_induction (P := fun s x => (∃ k ∈ system, k.symbol = s) →
      ∃ k ∈ system, k.symbol = s ∧ ∃ body ∈ k.alternatives,
        Denotes (leastMeaning system given) body x) ?_ ?_ hx
    · rintro t ht _ _ ⟨k, hk, hkt⟩
      exact absurd hkt (ht k hk)
    · intro k hk body hbody y hy _
      exact ⟨k, hk, rfl, body, hbody, hy.mono fun _ _ h => h.1⟩
  exact key _ w hw ⟨n, hn, rfl⟩

/-- One least meaning is part of another one if every solution of the second system has a solution of
the first below it. -/
theorem leastMeaning_mono_of_solutions {system' : List NonTerminal} {given' : Symbol → Language}
    {s : Symbol} (h : ∀ m', Solves system' given' m' →
      ∃ m, Solves system given m ∧ ∀ w, m s w → m' s w) {w : Word}
    (hw : leastMeaning system given s w) : leastMeaning system' given' s w := by
  intro m' hm'
  obtain ⟨m, hm, hle⟩ := h m' hm'
  exact hle w (hm.of_leastMeaning hw)

/-! ## The language of a grammar -/

/-- What symbols mean by themselves: a terminal means itself, and any other symbol means nothing. -/
def literalMeaning : Symbol → Language :=
  fun s w => w = [s] ∧ isTerminal s = true ∧ s ≠ epsilon

/-- A terminal string denotes itself, whatever terminals are combined with. -/
theorem denotes_terminalString (hm : ∀ s, isTerminal s = true → s ≠ epsilon → m s [s]) {w : Word}
    (hw : IsTerminalString w) : Denotes m w w := by
  induction w with
  | nil => exact .nil
  | cons s w ih =>
    obtain ⟨ht, hne⟩ := hw s List.mem_cons_self
    exact .cons (x := [s]) hne (hm s ht hne) (ih fun t ht => hw t (List.mem_cons_of_mem s ht))

namespace Grammar

variable {g : Grammar}

/-- A word derives what it denotes, if its symbols generate the strings of their languages. -/
theorem derives_of_denotes {v w : Word} (h : Denotes g.Generates v w) :
    g.Derives (withoutEpsilon v) w ∧ IsTerminalString w := by
  induction h with
  | nil => exact ⟨.refl [], fun s hs => absurd hs List.not_mem_nil⟩
  | epsilon _ ih => rwa [withoutEpsilon_cons_epsilon]
  | cons hs first _ ih =>
    refine ⟨?_, ?_⟩
    · rw [withoutEpsilon_cons_of_ne hs]
      exact first.1.append ih.1
    · intro t ht
      exact (List.mem_append.1 ht).elim (first.2 t) (ih.2 t)

/-- A solution passes what a form denotes back along a replacement. -/
theorem Step.denotes (hg : g.WellFormed) (hm : Solves g.nonTerminals given m) {v w x : Word}
    (h : g.Step v w) (hw : Denotes m w x) : Denotes m v x := by
  obtain ⟨before, after, r, hr, rfl, rfl⟩ := h.exists_rule
  obtain ⟨n, hn, hsymbol, hbody⟩ := mem_rules.1 hr
  have hne : r.head ≠ epsilon := hg.ne_epsilon_of_declares (declares_of_mem_rules hr)
  simp only [denotes_append_iff, denotes_withoutEpsilon_iff] at hw
  obtain ⟨xy, z, rfl, ⟨x, y, rfl, hx, hy⟩, hz⟩ := hw
  refine denotes_append_iff.2 ⟨x, y ++ z, by simp, hx, .cons hne ?_ hz⟩
  exact hsymbol ▸ hm.closed n hn r.body hbody y hy

/-- A symbol that no non-terminal bears is not declared. -/
theorem declares_eq_false_of_forall_ne {s : Symbol} (h : ∀ n ∈ g.nonTerminals, n.symbol ≠ s) :
    g.declares s = false := by
  cases hd : g.declares s with
  | false => rfl
  | true =>
    obtain ⟨n, hn, hs⟩ := List.mem_map.1 (declares_iff.1 hd)
    exact absurd hs (h n hn)

/-- What the symbols generate is a solution of the non-terminals. -/
theorem solves_generates (hg : g.WellFormed) :
    Solves g.nonTerminals literalMeaning g.Generates := by
  refine ⟨fun s hs => funext fun w => propext ?_, ?_⟩
  · have hd := declares_eq_false_of_forall_ne hs
    constructor
    · rintro ⟨hderives, hterminal⟩
      obtain rfl := hderives.eq_of_undeclared (by simpa using hd)
      exact ⟨rfl, hterminal s List.mem_cons_self⟩
    · rintro ⟨rfl, hs⟩
      exact ⟨.refl _, by simpa [IsTerminalString] using hs⟩
  · intro n hn body hbody w hw
    obtain ⟨hderives, hterminal⟩ := derives_of_denotes hw
    have hr : Rule.mk n.symbol body ∈ g.rules := (hg.mem_alternatives_iff hn).1 hbody
    exact ⟨(derives_of_mem_rules hr).trans hderives, hterminal⟩

/-- The strings that a symbol generates are those of the least solution of the non-terminals. -/
theorem generates_iff_leastMeaning (hg : g.WellFormed) {s : Symbol} (hs : s ≠ epsilon) {w : Word} :
    g.Generates s w ↔ leastMeaning g.nonTerminals literalMeaning s w := by
  constructor
  · rintro ⟨hderives, hterminal⟩ m hm
    have hliteral : ∀ t, isTerminal t = true → t ≠ epsilon → m t [t] := by
      intro t ht hne
      rw [hm.outside t]
      · exact ⟨rfl, ht, hne⟩
      · intro n hn heq
        have hup := (hg.each n hn).uppercase
        rw [heq, ← isTerminal_eq_false_iff, ht] at hup
        cases hup
    have hdenotes : Denotes m [s] w :=
      hderives.backward (fun v v' hstep hv' => hstep.denotes hg hm hv')
        (denotes_terminalString hliteral hterminal)
    exact (denotes_singleton_iff hs).1 hdenotes
  · exact fun h => (solves_generates hg).of_leastMeaning h

end Grammar

end LL1
