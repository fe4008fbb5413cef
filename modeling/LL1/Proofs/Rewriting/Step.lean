/-
# What a step puts in the place of a non-terminal

Whatever the plan for a non-terminal is, the non-terminals that take its place have alternatives of
the same kind, mention no symbol that was not mentioned before except the fresh one, lose no terminal,
and leave the least meanings of the surrounding system alone.
-/
import LL1.Proofs.Rewriting.Factoring
import LL1.Proofs.Rewriting.Unrolling
import LL1.Rewriting.Step

namespace LL1

/-! ## Refinements -/

/-- Whether a symbol occurs in an alternative of the non-terminal. -/
def NonTerminal.Mentions (n : NonTerminal) (s : Symbol) : Prop :=
  ∃ body ∈ n.alternatives, s ∈ body

/-- What is required of each non-terminal among those that take the place of `n`, where some symbols
are fresh. -/
structure NonTerminal.Fits (n : NonTerminal) (fresh : List Symbol) (k : NonTerminal) : Prop where
  /-- There is an alternative. -/
  alternatives_ne_nil : k.alternatives ≠ []
  /-- No alternative is listed twice. -/
  nodup : k.alternatives.Nodup
  /-- No alternative is empty. -/
  body_ne_nil : ∀ body ∈ k.alternatives, body ≠ []
  /-- The only new symbols are epsilon and the fresh ones. -/
  mentioned : ∀ s, k.Mentions s → s = epsilon ∨ s ∈ fresh ∨ n.Mentions s

/-- What the non-terminals that take the place of `n`, the first under its name and the others under
fresh ones, have in common with it. -/
structure NonTerminal.RefinedBy (n : NonTerminal) (fresh : List Symbol) (ns : List NonTerminal) :
    Prop where
  /-- The first keeps the name, the others get the fresh ones. -/
  symbols : ns.map NonTerminal.symbol = n.symbol :: fresh
  /-- Each fits in. -/
  fits : ∀ k ∈ ns, n.Fits fresh k
  /-- The only symbols that may be lost are epsilon and the name. -/
  kept : ∀ s, n.Mentions s → s = epsilon ∨ s = n.symbol ∨ ∃ k ∈ ns, k.Mentions s
  /-- The least meanings stay the same. -/
  replaceable : n.ReplaceableBy fresh ns

variable {n k : NonTerminal} {x : Symbol} {declared : List Symbol}

/-- One non-terminal in the place of another refines it if it fits and loses no symbol. -/
theorem refinedBy_singleton (hsymbol : k.symbol = n.symbol) (hfits : n.Fits [] k)
    (hkept : ∀ s, n.Mentions s → s = epsilon ∨ s = n.symbol ∨ k.Mentions s)
    (hreplaceable : n.ReplaceableBy [] [k]) : n.RefinedBy [] [k] := by
  refine ⟨by rw [List.map_singleton, hsymbol], ?_, fun s hs => ?_, hreplaceable⟩
  · intro j hj
    rwa [List.mem_singleton.1 hj]
  · exact (hkept s hs).imp_right fun h => h.imp_right fun hk => ⟨k, List.mem_cons_self, hk⟩

/-- Two non-terminals in the place of one refine it if both fit and no symbol is lost. -/
theorem refinedBy_pair {head tail : NonTerminal} (hhead : head.symbol = n.symbol)
    (htail : tail.symbol = x) (hfits : n.Fits [x] head ∧ n.Fits [x] tail)
    (hkept : ∀ s, n.Mentions s → s = epsilon ∨ s = n.symbol ∨ head.Mentions s ∨ tail.Mentions s)
    (hreplaceable : n.ReplaceableBy [x] [head, tail]) : n.RefinedBy [x] [head, tail] := by
  refine ⟨?_, ?_, fun s hs => ?_, hreplaceable⟩
  · rw [List.map_cons, List.map_singleton, hhead, htail]
  · rw [List.forall_mem_cons]
    refine ⟨hfits.1, fun j hj => ?_⟩
    rw [List.mem_singleton.1 hj]
    exact hfits.2
  · rcases hkept s hs with heq | heq | hmentions | hmentions
    · exact Or.inl heq
    · exact Or.inr (Or.inl heq)
    · exact Or.inr (Or.inr ⟨head, by simp, hmentions⟩)
    · exact Or.inr (Or.inr ⟨tail, by simp, hmentions⟩)

/-! ## Non-terminals that need no fresh symbol -/

/-- A non-terminal can take its own place. -/
theorem refinedBy_self (hn : n.WellFormed declared) : n.RefinedBy [] [n] := by
  refine refinedBy_singleton rfl ?_ (fun _ hs => Or.inr (Or.inr hs)) ?_
  · exact ⟨hn.alternatives_ne_nil, hn.nodup, hn.body_ne_nil, fun _ hs => Or.inr (Or.inr hs)⟩
  · intro before after given _ _ s _
    rw [List.append_assoc, List.singleton_append]

/-- A non-terminal whose idle recursion is dropped refines it. -/
theorem refinedBy_of_recursion_idle (hn : n.WellFormed declared) (hs : n.symbol ≠ epsilon)
    {dropped : Nat} (h : n.recursion = .idle k dropped) : n.RefinedBy [] [k] := by
  have hreplaceable := replaceableBy_of_recursion_idle h hs
  obtain ⟨rfl, hbase, hidle⟩ := eq_of_recursion_idle h
  have hmem : ∀ v, v ∈ (NonTerminal.ofAlternatives n.symbol n.baseAlternatives).alternatives ↔
      v ∈ n.baseAlternatives := fun v => NonTerminal.mem_ofAlternatives
  refine refinedBy_singleton (NonTerminal.symbol_ofAlternatives ..) ⟨?_, ?_, ?_, ?_⟩ ?_ hreplaceable
  · obtain ⟨v, hv⟩ := List.exists_mem_of_ne_nil _ hbase
    exact List.ne_nil_of_mem ((hmem v).2 hv)
  · exact NonTerminal.nodup_ofAlternatives _ _
  · intro body hbody
    rw [hmem, mem_baseAlternatives] at hbody
    exact hn.body_ne_nil body hbody.1
  · rintro s ⟨body, hbody, hsb⟩
    rw [hmem, mem_baseAlternatives] at hbody
    exact Or.inr (Or.inr ⟨body, hbody.1, hsb⟩)
  · rintro s ⟨body, hbody, hsb⟩
    rcases alternative_cases hbody with hb | ⟨rest, rfl, hrest⟩
    · exact Or.inr (Or.inr ⟨body, (hmem _).2 hb, hsb⟩)
    · -- a dropped alternative holds nothing but the name and epsilons
      rcases List.mem_cons.1 hsb with rfl | hsr
      · exact Or.inr (Or.inl rfl)
      · refine Or.inl (Classical.byContradiction fun hne => ?_)
        have hleft := mem_withoutEpsilon.2 ⟨hsr, hne⟩
        rw [hidle _ hrest] at hleft
        cases hleft

/-! ## Factorings -/

/-- The symbols of a word spelled with an epsilon are those of the word, and epsilon. -/
theorem mem_spelled {e : Word} {s : Symbol} (h : s ∈ Factoring.spelled e) : s = epsilon ∨ s ∈ e := by
  cases e with
  | nil => exact Or.inl (List.mem_singleton.1 h)
  | cons t e => exact Or.inr h

theorem mem_spelled_of_mem {e : Word} {s : Symbol} (h : s ∈ e) : s ∈ Factoring.spelled e := by
  cases e with
  | nil => cases h
  | cons t e => exact h

theorem spelled_ne_nil (e : Word) : Factoring.spelled e ≠ [] := by
  cases e with
  | nil => exact List.cons_ne_nil _ _
  | cons t e => exact List.cons_ne_nil _ _

/-- A word spelled with an epsilon stands for the same form. -/
theorem withoutEpsilon_spelled (e : Word) :
    withoutEpsilon (Factoring.spelled e) = withoutEpsilon e := by
  cases e with
  | nil => rfl
  | cons t e => rfl

/-- A word that is spelled with a symbol other than epsilon is spelled as it is. -/
theorem eq_of_spelled_eq {e pre rest : Word} {s : Symbol}
    (h : Factoring.spelled e = pre ++ s :: rest) (hs : s ≠ epsilon) : e = pre ++ s :: rest := by
  cases e with
  | nil =>
    have hmem : s ∈ Factoring.spelled [] := by
      rw [h]
      simp
    exact absurd (List.mem_singleton.1 hmem) hs
  | cons t e => exact h

section Factored

variable {f : Factoring}

/-- The factored non-terminal fits in: the stem comes from any member of the group. -/
theorem fits_head_factoring (hn : n.WellFormed declared) (h : n.factoring? = some f) :
    n.Fits [x] (f.head x) := by
  have halt := fun v => mem_alternatives_iff_of_factoring? h (v := v)
  obtain ⟨e, he⟩ := List.exists_mem_of_ne_nil _ (endings_ne_nil_of_factoring? h)
  have hstem : f.stem ++ [x] ∈ (f.head x).alternatives :=
    mem_alternatives_head_factoring.2 (Or.inr (Or.inl rfl))
  refine ⟨List.ne_nil_of_mem hstem, NonTerminal.nodup_ofAlternatives _ _, ?_, ?_⟩
  · intro body hbody
    rcases mem_alternatives_head_factoring.1 hbody with hb | rfl | ha
    · exact hn.body_ne_nil body ((halt body).2 (Or.inl hb))
    · simp
    · exact hn.body_ne_nil body ((halt body).2 (Or.inr (Or.inr ha)))
  · rintro s ⟨body, hbody, hs⟩
    rcases mem_alternatives_head_factoring.1 hbody with hb | rfl | ha
    · exact Or.inr (Or.inr ⟨body, (halt body).2 (Or.inl hb), hs⟩)
    · rcases List.mem_append.1 hs with hs | hs
      · have hmember := (halt (f.stem ++ e)).2 (Or.inr (Or.inl ⟨e, he, rfl⟩))
        exact Or.inr (Or.inr ⟨_, hmember, List.mem_append_left _ hs⟩)
      · exact Or.inr (Or.inl hs)
    · exact Or.inr (Or.inr ⟨body, (halt body).2 (Or.inr (Or.inr ha)), hs⟩)

/-- The fresh non-terminal of a factoring fits in: its alternatives end members of the group. -/
theorem fits_tail_factoring (h : n.factoring? = some f) : n.Fits [x] (f.tail x) := by
  have halt := fun v => mem_alternatives_iff_of_factoring? h (v := v)
  obtain ⟨e, he⟩ := List.exists_mem_of_ne_nil _ (endings_ne_nil_of_factoring? h)
  have hending : Factoring.spelled e ∈ (f.tail x).alternatives :=
    mem_alternatives_tail_factoring.2 ⟨e, he, rfl⟩
  refine ⟨List.ne_nil_of_mem hending, NonTerminal.nodup_ofAlternatives _ _, ?_, ?_⟩
  · intro body hbody
    obtain ⟨e, -, rfl⟩ := mem_alternatives_tail_factoring.1 hbody
    exact spelled_ne_nil e
  · rintro s ⟨body, hbody, hs⟩
    obtain ⟨e, he, rfl⟩ := mem_alternatives_tail_factoring.1 hbody
    rcases mem_spelled hs with hs | hs
    · exact Or.inl hs
    · have hmember := (halt (f.stem ++ e)).2 (Or.inr (Or.inl ⟨e, he, rfl⟩))
      exact Or.inr (Or.inr ⟨_, hmember, List.mem_append_right _ hs⟩)

/-- The two non-terminals of a factoring refine the one that is factored. -/
theorem refinedBy_of_factoring? (hn : n.WellFormed declared) (h : n.factoring? = some f)
    (hx : x ≠ epsilon) : n.RefinedBy [x] [f.head x, f.tail x] := by
  have hhead := symbol_head_factoring h x
  have htail := symbol_tail_factoring f x
  have hfits : n.Fits [x] (f.head x) ∧ n.Fits [x] (f.tail x) :=
    ⟨fits_head_factoring hn h, fits_tail_factoring h⟩
  refine refinedBy_pair hhead htail hfits ?_ (replaceableBy_of_factoring? h hx)
  rintro s ⟨body, hbody, hs⟩
  refine Or.inr (Or.inr ?_)
  -- a member of the group is cut into the stem and its ending
  rcases (mem_alternatives_iff_of_factoring? h).1 hbody with hb | ⟨e, he, rfl⟩ | ha
  · exact Or.inl ⟨body, mem_alternatives_head_factoring.2 (Or.inl hb), hs⟩
  · rcases List.mem_append.1 hs with hs | hs
    · have hstem : f.stem ++ [x] ∈ (f.head x).alternatives :=
        mem_alternatives_head_factoring.2 (Or.inr (Or.inl rfl))
      exact Or.inl ⟨f.stem ++ [x], hstem, List.mem_append_left _ hs⟩
    · have hending : Factoring.spelled e ∈ (f.tail x).alternatives :=
        mem_alternatives_tail_factoring.2 ⟨e, he, rfl⟩
      exact Or.inr ⟨_, hending, mem_spelled_of_mem hs⟩
  · exact Or.inl ⟨body, mem_alternatives_head_factoring.2 (Or.inr (Or.inr ha)), hs⟩

end Factored

/-! ## Unrollings -/

section Unrolled

variable {u : Unrolling}

/-- The unrolled non-terminal fits in: its bases are alternatives without their epsilons. -/
theorem fits_head_unrolling (h : n.recursion = .proper u) : n.Fits [x] (u.head x) := by
  obtain ⟨b, hb⟩ := List.exists_mem_of_ne_nil _ (bases_ne_nil_of_recursion h)
  have hbase : b ++ [x] ∈ (u.head x).alternatives :=
    mem_alternatives_head_unrolling.2 ⟨b, hb, rfl⟩
  refine ⟨List.ne_nil_of_mem hbase, NonTerminal.nodup_ofAlternatives _ _, ?_, ?_⟩
  · intro body hbody
    obtain ⟨w, -, rfl⟩ := mem_alternatives_head_unrolling.1 hbody
    simp
  · rintro s ⟨body, hbody, hs⟩
    obtain ⟨w, hw, rfl⟩ := mem_alternatives_head_unrolling.1 hbody
    obtain ⟨v, hv, rfl⟩ := exists_of_mem_bases h hw
    rcases List.mem_append.1 hs with hs | hs
    · exact Or.inr (Or.inr ⟨v, hv, (mem_withoutEpsilon.1 hs).1⟩)
    · exact Or.inr (Or.inl hs)

/-- The fresh non-terminal of an unrolling fits in: its repeats end left recursive alternatives. -/
theorem fits_tail_unrolling (h : n.recursion = .proper u) : n.Fits [x] (u.tail x) := by
  have hstop : [epsilon] ∈ (u.tail x).alternatives :=
    mem_alternatives_tail_unrolling.2 (Or.inr rfl)
  refine ⟨List.ne_nil_of_mem hstop, NonTerminal.nodup_ofAlternatives _ _, ?_, ?_⟩
  · intro body hbody
    rcases mem_alternatives_tail_unrolling.1 hbody with ⟨w, -, rfl⟩ | rfl
    · simp
    · exact List.cons_ne_nil _ _
  · rintro s ⟨body, hbody, hs⟩
    rcases mem_alternatives_tail_unrolling.1 hbody with ⟨w, hw, rfl⟩ | rfl
    · obtain ⟨rest, hrest, rfl⟩ := exists_of_mem_repeats h hw
      rcases List.mem_append.1 hs with hs | hs
      · have hmem := List.mem_cons_of_mem n.symbol (mem_withoutEpsilon.1 hs).1
        exact Or.inr (Or.inr ⟨_, hrest, hmem⟩)
      · exact Or.inr (Or.inl hs)
    · exact Or.inl (List.mem_singleton.1 hs)

/-- The two non-terminals of an unrolling refine the one that is unrolled. -/
theorem refinedBy_of_recursion_proper (h : n.recursion = .proper u) (hs : n.symbol ≠ epsilon)
    (hx : x ≠ epsilon) : n.RefinedBy [x] [u.head x, u.tail x] := by
  have hhead := symbol_head_unrolling h x
  have htail := symbol_tail_unrolling u x
  have hfits : n.Fits [x] (u.head x) ∧ n.Fits [x] (u.tail x) :=
    ⟨fits_head_unrolling h, fits_tail_unrolling h⟩
  refine refinedBy_pair hhead htail hfits ?_ (replaceableBy_of_recursion_proper h hs hx)
  rintro s ⟨body, hbody, hsb⟩
  by_cases hse : s = epsilon
  · exact Or.inl hse
  · apply Or.inr
    rcases alternative_cases hbody with hb | ⟨rest, rfl, hrest⟩
    · have hbase := mem_bases_of_recursion h hb
      have hleft := mem_withoutEpsilon.2 ⟨hsb, hse⟩
      have halternative : withoutEpsilon body ++ [x] ∈ (u.head x).alternatives :=
        mem_alternatives_head_unrolling.2 ⟨_, hbase, rfl⟩
      exact Or.inr (Or.inl ⟨_, halternative, List.mem_append_left _ hleft⟩)
    · rcases List.mem_cons.1 hsb with rfl | hsr
      · exact Or.inl rfl
      · -- what follows the name is not empty, so it is a repeat
        have hleft := mem_withoutEpsilon.2 ⟨hsr, hse⟩
        have hrepeat := mem_repeats_of_recursion h hrest (List.ne_nil_of_mem hleft)
        have halternative : withoutEpsilon rest ++ [x] ∈ (u.tail x).alternatives :=
          mem_alternatives_tail_unrolling.2 (Or.inl ⟨_, hrepeat, rfl⟩)
        exact Or.inr (Or.inr ⟨_, halternative, List.mem_append_left _ hleft⟩)

end Unrolled

/-! ## Plans -/

/-- A plan settles a non-terminal that cannot be factored: one without left recursion is kept, and idle
recursion is dropped. -/
theorem settle_cases {dropped : Nat} (h : n.plan = .settle k dropped) :
    n.isLeftFactorable = false ∧
      (n.isLeftRecursive = false ∧ k = n ∨ n.recursion = .idle k dropped) := by
  cases hfactorable : n.isLeftFactorable with
  | true =>
    -- what can be factored is divided
    obtain ⟨f, hf⟩ := Option.isSome_iff_exists.1 (n.factoring?_isSome.trans hfactorable)
    rw [NonTerminal.plan, if_pos hfactorable, NonTerminal.factoringPlan, hf] at h
    cases h
  | false =>
    refine ⟨rfl, ?_⟩
    cases hrecursive : n.isLeftRecursive with
    | false =>
      rw [NonTerminal.plan_eq_settle_self hfactorable hrecursive] at h
      cases h
      exact Or.inl ⟨rfl, rfl⟩
    | true =>
      have hpresent : n.recursion ≠ .absent := by
        rw [ne_eq, NonTerminal.recursion_eq_absent_iff, hrecursive]
        exact Bool.noConfusion
      rw [NonTerminal.plan, if_neg (by rw [hfactorable]; exact Bool.false_ne_true),
        if_pos hrecursive, NonTerminal.recursionPlan] at h
      cases hcase : n.recursion with
      | absent => exact absurd hcase hpresent
      | baseless =>
        rw [hcase] at h
        cases h
      | idle rest count =>
        rw [hcase] at h
        cases h
        exact Or.inr rfl
      | proper u =>
        rw [hcase] at h
        cases h

/-- A plan that divides a non-terminal factors it or unrolls it. -/
theorem divide_cases {d : Division} (h : n.plan = .divide d) :
    (∃ f, n.factoring? = some f ∧ d = .factoring f) ∨
      ∃ u, n.recursion = .proper u ∧ d = .unrolling u := by
  unfold NonTerminal.plan at h
  split at h
  · unfold NonTerminal.factoringPlan at h
    split at h
    · cases h
    · next f hf =>
      cases h
      exact Or.inl ⟨f, hf, rfl⟩
  · split at h
    · unfold NonTerminal.recursionPlan at h
      split at h
      · cases h
      · cases h
      · cases h
      · next u hu =>
        cases h
        exact Or.inr ⟨u, hu, rfl⟩
    · cases h

/-- A plan is refused only for want of a base. -/
theorem refuse_cases (h : n.plan = .refuse) : n.recursion = .baseless := by
  unfold NonTerminal.plan at h
  split at h
  · unfold NonTerminal.factoringPlan at h
    split at h <;> cases h
  · split at h
    · unfold NonTerminal.recursionPlan at h
      split at h
      · cases h
      · assumption
      · cases h
      · cases h
    · cases h

/-- A non-terminal that is settled refines the one it comes from. -/
theorem refinedBy_of_settle (hn : n.WellFormed declared) (hs : n.symbol ≠ epsilon) {dropped : Nat}
    (h : n.plan = .settle k dropped) : n.RefinedBy [] [k] := by
  obtain ⟨-, ⟨-, rfl⟩ | hidle⟩ := settle_cases h
  · exact refinedBy_self hn
  · exact refinedBy_of_recursion_idle hn hs hidle

/-- The two non-terminals of a division refine the one that is divided. -/
theorem refinedBy_of_divide (hn : n.WellFormed declared) (hs : n.symbol ≠ epsilon) {d : Division}
    (h : n.plan = .divide d) (hx : x ≠ epsilon) : n.RefinedBy [x] [d.head x, d.tail x] := by
  rcases divide_cases h with ⟨f, hf, rfl⟩ | ⟨u, hu, rfl⟩
  · exact refinedBy_of_factoring? hn hf hx
  · exact refinedBy_of_recursion_proper hu hs hx

end LL1
