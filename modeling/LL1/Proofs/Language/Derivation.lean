/-
# Taking derivations apart

A derivation from a concatenation splits into derivations from its parts, and a derivation from a
single non-terminal starts with one of its rules. Both are read off the last replacement that is
made. The second half is about words that can vanish: a word vanishes exactly when each of its
symbols does, and a non-terminal vanishes exactly when one of its right-hand sides does.
-/
import LL1.Language.Derivation

namespace LL1

/-! ## Lists -/

/-- Fewer members of a list pass a stricter test if one of them fails it that passed before. -/
theorem countP_lt_countP {α : Type} {p q : α → Bool} {l : List α} {a : α}
    (h : ∀ x, p x = true → q x = true) (ha : a ∈ l) (hp : p a = false) (hq : q a = true) :
    l.countP p < l.countP q := by
  obtain ⟨before, after, rfl⟩ := List.append_of_mem ha
  have hbefore : before.countP p ≤ before.countP q := List.countP_mono_left fun x _ => h x
  have hafter : after.countP p ≤ after.countP q := List.countP_mono_left fun x _ => h x
  rw [List.countP_append, List.countP_append, List.countP_cons_of_pos hq,
    List.countP_cons_of_neg (by rw [hp]; exact Bool.false_ne_true)]
  omega

/-- A symbol of a concatenation stands in its first part or in its second part. -/
theorem append_eq_append_cons {v w before after : Word} {s : Symbol}
    (h : v ++ w = before ++ s :: after) :
    (∃ rest, v = before ++ s :: rest ∧ after = rest ++ w) ∨
      ∃ skipped, before = v ++ skipped ∧ w = skipped ++ s :: after := by
  rcases List.append_eq_append_iff.1 h with ⟨skipped, rfl, hw⟩ | ⟨rest, rfl, hrest⟩
  · exact Or.inr ⟨skipped, rfl, hw⟩
  · cases rest with
    | nil =>
      rw [List.nil_append] at hrest
      exact Or.inr ⟨[], by simp, hrest.symm⟩
    | cons u rest =>
      obtain ⟨rfl, rfl⟩ := List.cons.inj hrest
      exact Or.inl ⟨rest, rfl, rfl⟩

/-! ## Words without epsilons -/

/-- The symbols that remain are those other than epsilon. -/
theorem mem_withoutEpsilon {s : Symbol} {w : Word} :
    s ∈ withoutEpsilon w ↔ s ∈ w ∧ s ≠ epsilon := by
  simp [withoutEpsilon]

/-- A word without epsilons stays as it is. -/
theorem withoutEpsilon_eq_self {w : Word} (h : epsilon ∉ w) : withoutEpsilon w = w := by
  apply List.filter_eq_self.2
  intro s hs
  have hne : s ≠ epsilon := fun heq => h (heq ▸ hs)
  simpa using hne

/-- Erasing twice is erasing once. -/
theorem withoutEpsilon_idem (w : Word) :
    withoutEpsilon (withoutEpsilon w) = withoutEpsilon w :=
  withoutEpsilon_eq_self (epsilon_notMem_withoutEpsilon w)

/-- An epsilon in front is erased. -/
theorem withoutEpsilon_cons_epsilon (w : Word) :
    withoutEpsilon (epsilon :: w) = withoutEpsilon w := by
  simp [withoutEpsilon]

/-- Any other symbol in front stays. -/
theorem withoutEpsilon_cons_of_ne {s : Symbol} (h : s ≠ epsilon) (w : Word) :
    withoutEpsilon (s :: w) = s :: withoutEpsilon w := by
  simp [withoutEpsilon, h]

namespace Grammar

variable {g : Grammar}

/-! ## The first and the last replacement -/

/-- The head of a rule is declared. -/
theorem declares_of_mem_rules {r : Rule} (h : r ∈ g.rules) : g.declares r.head = true := by
  obtain ⟨n, hn, hsymbol, -⟩ := mem_rules.1 h
  exact declares_iff.2 (List.mem_map.2 ⟨n, hn, hsymbol⟩)

/-- The head of a rule is not among symbols that are not declared. -/
theorem head_notMem_of_undeclared {r : Rule} {v : Word} (hr : r ∈ g.rules)
    (hv : ∀ s ∈ v, g.declares s = false) : r.head ∉ v := by
  intro hmem
  have hfalse := hv _ hmem
  rw [declares_of_mem_rules hr] at hfalse
  cases hfalse

/-- A replacement splits its form around the head of a rule. -/
theorem Step.exists_rule {v w : Word} (h : g.Step v w) :
    ∃ before after r, r ∈ g.rules ∧ v = before ++ r.head :: after ∧
      w = before ++ withoutEpsilon r.body ++ after := by
  obtain @⟨before, after, r, hr⟩ := h
  exact ⟨before, after, r, hr, rfl, rfl⟩

/-- A replacement in a single symbol applies one of its rules. -/
theorem Step.of_singleton {s : Symbol} {w : Word} (h : g.Step [s] w) :
    ∃ r ∈ g.rules, r.head = s ∧ w = withoutEpsilon r.body := by
  obtain ⟨before, after, r, hr, hv, rfl⟩ := h.exists_rule
  obtain ⟨rfl, hs⟩ := List.append_eq_singleton_iff.1 hv.symm |>.resolve_right (by simp)
  obtain ⟨rfl, rfl⟩ := List.cons.inj hs
  exact ⟨r, hr, rfl, by simp⟩

/-- A rule can be applied to the symbol that stands behind the first part of a form. -/
theorem Derives.snoc_rule {u read v body : Word} {s : Symbol}
    (h : g.Derives u (read ++ withoutEpsilon (s :: v))) (hs : s ≠ epsilon)
    (hr : ⟨s, body⟩ ∈ g.rules) : g.Derives u (read ++ withoutEpsilon (body ++ v)) := by
  rw [withoutEpsilon_cons_of_ne hs] at h
  rw [withoutEpsilon_append, ← List.append_assoc]
  exact h.snoc (.replace read (withoutEpsilon v) hr)

/-- What every replacement passes from the new form back to the old one, a derivation passes from
its last form back to its first one. -/
theorem Derives.backward {P : Word → Prop} (step : ∀ v w, g.Step v w → P w → P v) {v w : Word}
    (h : g.Derives v w) (hw : P w) : P v := by
  induction h with
  | refl => exact hw
  | snoc _ last ih => exact ih (step _ _ last hw)

/-- What holds of all symbols of a form, and of all symbols that rules bring in, holds of all
symbols of the forms that are derived. -/
theorem Derives.forall_mem {P : Symbol → Prop}
    (rules : ∀ r ∈ g.rules, ∀ s ∈ withoutEpsilon r.body, P s) {v w : Word} (h : g.Derives v w)
    (hv : ∀ s ∈ v, P s) : ∀ s ∈ w, P s := by
  induction h with
  | refl => exact hv
  | snoc _ last ih =>
    obtain ⟨before, after, hr⟩ := last
    intro s hs
    simp only [List.mem_append, List.mem_cons] at ih hs
    rcases hs with (hs | hs) | hs
    · exact ih s (Or.inl hs)
    · exact rules _ hr s hs
    · exact ih s (Or.inr (Or.inr hs))

/-- A derivation from a concatenation consists of derivations from both parts. -/
theorem Derives.of_append {v w x : Word} (h : g.Derives (v ++ w) x) :
    ∃ y z, x = y ++ z ∧ g.Derives v y ∧ g.Derives w z := by
  induction h with
  | refl => exact ⟨v, w, rfl, .refl v, .refl w⟩
  | snoc _ last ih =>
    obtain ⟨y, z, hyz, hv, hw⟩ := ih
    obtain ⟨before, after, r, hr, rfl, rfl⟩ := last.exists_rule
    -- the replaced symbol is in the part derived from `v` or in the one derived from `w`
    rcases append_eq_append_cons hyz.symm with ⟨rest, rfl, rfl⟩ | ⟨skipped, rfl, rfl⟩
    · refine ⟨before ++ withoutEpsilon r.body ++ rest, z, by simp, hv.snoc ?_, hw⟩
      exact .replace before rest hr
    · refine ⟨y, skipped ++ withoutEpsilon r.body ++ after, by simp, hv, hw.snoc ?_⟩
      exact .replace skipped after hr

/-- A form without declared symbols derives itself only. -/
theorem Derives.eq_of_undeclared {v w : Word} (h : g.Derives v w)
    (hv : ∀ s ∈ v, g.declares s = false) : w = v := by
  induction h with
  | refl => rfl
  | snoc _ last ih =>
    obtain rfl := ih
    obtain ⟨before, after, hr⟩ := last
    exact absurd (by simp) (head_notMem_of_undeclared hr hv)

/-- A derivation from a single symbol is empty, or it starts with a rule of the symbol. -/
theorem Derives.cases_head {s : Symbol} {w : Word} (h : g.Derives [s] w) :
    w = [s] ∨ ∃ r ∈ g.rules, r.head = s ∧ g.Derives (withoutEpsilon r.body) w := by
  induction h with
  | refl => exact Or.inl rfl
  | snoc _ last ih =>
    rcases ih with rfl | ⟨r, hr, hs, hd⟩
    · obtain ⟨r, hr, hs, rfl⟩ := last.of_singleton
      exact Or.inr ⟨r, hr, hs, .refl _⟩
    · exact Or.inr ⟨r, hr, hs, hd.snoc last⟩

/-! ## Replacing from the left -/

/-- A rule that is applied from the left leads to one form at most. -/
theorem LeftStep.unique {r : Rule} {u v w : Word} (hv : g.LeftStep r u v) (hw : g.LeftStep r u w) :
    v = w := by
  generalize hu : u = x at hw
  obtain @⟨before, hfixed, after, _, hr⟩ := hv
  obtain @⟨before', hfixed', after', _, -⟩ := hw
  -- both replace the first occurrence of the head
  rcases append_eq_append_cons hu with ⟨rest, rfl, -⟩ | ⟨skipped, rfl, hafter⟩
  · exact absurd (by simp) (head_notMem_of_undeclared hr hfixed)
  · cases skipped with
    | nil =>
      obtain ⟨-, rfl⟩ := List.cons.inj hafter
      rw [List.append_nil]
    | cons s skipped =>
      obtain ⟨rfl, -⟩ := List.cons.inj hafter
      exact absurd (by simp) (head_notMem_of_undeclared hr hfixed')

/-- Rules that are applied from the left lead to one form at most. -/
theorem LeftDerives.unique {rules : List Rule} {u v w : Word} (hv : g.LeftDerives rules u v)
    (hw : g.LeftDerives rules u w) : v = w := by
  generalize hall : rules = all at hw
  induction hv generalizing all w with
  | refl =>
    cases hw with
    | refl => rfl
    | snoc => exact absurd hall (by simp)
  | snoc _ last ih =>
    cases hw with
    | refl => exact absurd hall (by simp)
    | snoc hbefore last' =>
      obtain ⟨hrules, hr⟩ := List.append_inj' hall rfl
      obtain rfl := List.singleton_inj.1 hr
      rw [← ih _ hrules hbefore] at last'
      exact last.unique last'

/-! ## Vanishing -/

/-- The empty word vanishes. -/
theorem vanishes_nil : g.Vanishes [] := .refl []

/-- A concatenation vanishes exactly when both parts do. -/
theorem vanishes_append {v w : Word} :
    g.Vanishes (v ++ w) ↔ g.Vanishes v ∧ g.Vanishes w := by
  unfold Vanishes
  rw [withoutEpsilon_append]
  constructor
  · intro h
    obtain ⟨y, z, hnil, hv, hw⟩ := h.of_append
    obtain ⟨rfl, rfl⟩ := List.append_eq_nil_iff.1 hnil.symm
    exact ⟨hv, hw⟩
  · rintro ⟨hv, hw⟩
    exact hv.append hw

/-- A word vanishes exactly when its first symbol and the rest do. -/
theorem vanishes_cons {s : Symbol} {w : Word} :
    g.Vanishes (s :: w) ↔ g.Vanishes [s] ∧ g.Vanishes w :=
  vanishes_append (v := [s])

/-- Epsilon vanishes. -/
theorem vanishes_epsilon : g.Vanishes [epsilon] := .refl []

/-- Epsilons make no difference to vanishing. -/
theorem vanishes_withoutEpsilon {w : Word} : g.Vanishes (withoutEpsilon w) ↔ g.Vanishes w := by
  unfold Vanishes
  rw [withoutEpsilon_idem]

/-- A word vanishes exactly when all its symbols do. -/
theorem vanishes_iff_forall {w : Word} : g.Vanishes w ↔ ∀ s ∈ w, g.Vanishes [s] := by
  induction w with
  | nil => simp [vanishes_nil]
  | cons s rest ih => rw [vanishes_cons, ih, List.forall_mem_cons]

/-- The head of a rule vanishes if the right-hand side does. -/
theorem vanishes_of_mem_rules {r : Rule} (h : r ∈ g.rules) (hbody : g.Vanishes r.body) :
    g.Vanishes [r.head] := by
  by_cases hs : r.head = epsilon
  · rw [hs]
    exact vanishes_epsilon
  · have hd := (derives_of_mem_rules h).trans hbody
    rwa [← withoutEpsilon_eq_self (w := [r.head]) (by simpa using Ne.symm hs)] at hd

/-- A symbol other than epsilon vanishes exactly when one of its right-hand sides does. -/
theorem vanishes_singleton_iff {s : Symbol} (hs : s ≠ epsilon) :
    g.Vanishes [s] ↔ ∃ r ∈ g.rules, r.head = s ∧ g.Vanishes r.body := by
  constructor
  · intro h
    unfold Vanishes at h
    rw [withoutEpsilon_cons_of_ne hs] at h
    rcases h.cases_head with hnil | hrule
    · cases hnil
    · exact hrule
  · rintro ⟨r, hr, rfl, hbody⟩
    exact vanishes_of_mem_rules hr hbody

/-- A symbol that is not declared vanishes only if it is epsilon. -/
theorem not_vanishes_of_undeclared {s : Symbol} (hs : s ≠ epsilon) (h : g.declares s = false) :
    ¬ g.Vanishes [s] := by
  rw [vanishes_singleton_iff hs]
  rintro ⟨r, hr, rfl, -⟩
  rw [declares_of_mem_rules hr] at h
  cases h

end Grammar

end LL1
