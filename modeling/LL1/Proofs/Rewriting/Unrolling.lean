/-
# Unrolling keeps the language

A left recursive non-terminal `A -> Aβ | γ` derives a `γ` followed by any number of `β`. Two facts
about least solutions carry the argument. In a solution of the old system, the fresh symbol may mean
the strings that can be put behind every string of `A` without leaving `A`. In the least solution of
the new system, a `β` can be put behind every string of the fresh symbol.
-/
import LL1.Proofs.Rewriting.Replacement
import LL1.Rewriting.LeftRecursion

namespace LL1

variable {n k : NonTerminal} {u : Unrolling} {x : Symbol}

/-! ## Bases and repeats -/

theorem startsWithSelf_iff {body : Word} :
    n.startsWithSelf body = true ↔ ∃ rest, body = n.symbol :: rest := by
  rw [NonTerminal.startsWithSelf, decide_eq_true_iff]
  cases body with
  | nil => simp
  | cons s rest => simp

theorem mem_baseAlternatives {body : Word} :
    body ∈ n.baseAlternatives ↔ body ∈ n.alternatives ∧ n.startsWithSelf body = false := by
  simp [NonTerminal.baseAlternatives]

/-- The continuations are what follows the non-terminal in its left recursive alternatives. -/
theorem mem_continuations {v : Word} :
    v ∈ n.continuations ↔ ∃ rest, n.symbol :: rest ∈ n.alternatives ∧ v = withoutEpsilon rest := by
  simp only [NonTerminal.continuations, List.mem_map, List.mem_filter, startsWithSelf_iff]
  constructor
  · rintro ⟨body, ⟨hbody, rest, rfl⟩, rfl⟩
    exact ⟨rest, hbody, rfl⟩
  · rintro ⟨rest, hbody, rfl⟩
    exact ⟨_, ⟨hbody, rest, rfl⟩, rfl⟩

/-- What an unrolling is made from. -/
theorem eq_unrolling_of_recursion (h : n.recursion = .proper u) :
    u = ⟨n.symbol, n.baseAlternatives.map withoutEpsilon,
      n.continuations.filter fun w => !w.isEmpty, n.idleCount⟩ := by
  unfold NonTerminal.recursion at h
  dsimp only at h
  split at h
  · split at h
    · cases h
    · split at h
      · cases h
      · exact (Recursion.proper.inj h).symm
  · cases h

/-- An alternative is not left recursive, and something is repeated. -/
theorem ne_nil_of_recursion (h : n.recursion = .proper u) :
    n.baseAlternatives ≠ [] ∧ u.repeats ≠ [] := by
  rw [eq_unrolling_of_recursion h]
  unfold NonTerminal.recursion at h
  dsimp only at h
  split at h
  · split at h
    · cases h
    · next hbase =>
      split at h
      · cases h
      · next hrepeats =>
        exact ⟨fun hnil => hbase (List.isEmpty_iff.2 hnil),
          fun hnil => hrepeats (List.isEmpty_iff.2 hnil)⟩
  · cases h

/-- There is a base to unroll from. -/
theorem bases_ne_nil_of_recursion (h : n.recursion = .proper u) : u.bases ≠ [] := by
  rw [eq_unrolling_of_recursion h]
  simpa using (ne_nil_of_recursion h).1

/-- A non-terminal without a base is left recursive in all alternatives. -/
theorem startsWithSelf_of_recursion_baseless (h : n.recursion = .baseless) {body : Word}
    (hbody : body ∈ n.alternatives) : n.startsWithSelf body = true := by
  unfold NonTerminal.recursion at h
  dsimp only at h
  split at h
  · split at h
    · next hbase =>
      cases hself : n.startsWithSelf body with
      | true => rfl
      | false =>
        have hmem := mem_baseAlternatives.2 ⟨hbody, hself⟩
        rw [List.isEmpty_iff.1 hbase] at hmem
        cases hmem
    · split at h <;> cases h
  · cases h

/-- A non-terminal whose recursion is idle keeps its bases, and no continuation adds anything. -/
theorem eq_of_recursion_idle {dropped : Nat} (h : n.recursion = .idle k dropped) :
    k = .ofAlternatives n.symbol n.baseAlternatives ∧ n.baseAlternatives ≠ [] ∧
      ∀ v ∈ n.continuations, v = [] := by
  unfold NonTerminal.recursion at h
  dsimp only at h
  split at h
  · split at h
    · cases h
    · next hbase =>
      split at h
      · next hidle =>
        obtain ⟨rfl, -⟩ := Recursion.idle.inj h
        refine ⟨rfl, by simpa using hbase, fun v hv => ?_⟩
        simpa using List.filter_eq_nil_iff.1 (List.isEmpty_iff.1 hidle) v hv
      · cases h
  · cases h

/-- Every alternative is a base, or it is left recursive with its continuation among the repeats, or
it derives nothing new. -/
theorem alternative_cases {body : Word} (h : body ∈ n.alternatives) :
    body ∈ n.baseAlternatives ∨
      ∃ rest, body = n.symbol :: rest ∧ withoutEpsilon rest ∈ n.continuations := by
  cases hself : n.startsWithSelf body with
  | false => exact Or.inl (mem_baseAlternatives.2 ⟨h, hself⟩)
  | true =>
    obtain ⟨rest, rfl⟩ := startsWithSelf_iff.1 hself
    exact Or.inr ⟨rest, rfl, mem_continuations.2 ⟨rest, h, rfl⟩⟩

/-! ## Idle recursion -/

/-- Dropping the alternatives that derive nothing new changes no least meaning. -/
theorem replaceableBy_of_recursion_idle {dropped : Nat} (h : n.recursion = .idle k dropped)
    (hs : n.symbol ≠ epsilon) : n.ReplaceableBy [] [k] := by
  obtain ⟨rfl, -, hidle⟩ := eq_of_recursion_idle h
  have hsymbol := NonTerminal.symbol_ofAlternatives n.symbol n.baseAlternatives
  intro before after given _ _ s _
  funext w
  refine propext ⟨leastMeaning_mono_of_solutions fun m hm => ⟨m, ?_, fun _ h => h⟩,
    leastMeaning_mono_of_solutions fun m hm => ⟨m, ?_, fun _ h => h⟩⟩
  · -- a left recursive alternative denotes what the non-terminal means already
    have hbase : ∀ body ∈ n.baseAlternatives, ∀ w, Denotes m body w → m n.symbol w := by
      intro body hbody w hw
      rw [← hsymbol]
      exact hm.closed (.ofAlternatives n.symbol n.baseAlternatives) (by simp) body
        (NonTerminal.mem_ofAlternatives.2 hbody) w hw
    have hm' : Solves (before ++ .ofAlternatives n.symbol n.baseAlternatives :: after) given m := by
      simpa using hm
    have hsolves := hm'.replace (k := n) hsymbol.symm ?_
    · simpa using hsolves
    · rw [hsymbol]
      intro body hbody w hw
      rcases alternative_cases hbody with hb | ⟨rest, rfl, hrest⟩
      · exact hbase body hb w hw
      · obtain ⟨x, y, rfl, hx, hy⟩ := (denotes_cons_iff hs).1 hw
        rw [← denotes_withoutEpsilon_iff, hidle _ hrest, denotes_nil_iff] at hy
        rwa [hy, List.append_nil]
  · refine hm.replace hsymbol fun body hbody w hw => ?_
    have hmem := mem_baseAlternatives.1 (NonTerminal.mem_ofAlternatives.1 hbody)
    exact hm.closed n (by simp) body hmem.1 w hw

/-! ## Proper recursion -/

theorem mem_alternatives_head_unrolling {v : Word} :
    v ∈ (u.head x).alternatives ↔ ∃ w ∈ u.bases, v = w ++ [x] := by
  rw [Unrolling.head, NonTerminal.mem_ofAlternatives, List.mem_map]
  simp only [eq_comm]

theorem mem_alternatives_tail_unrolling {v : Word} :
    v ∈ (u.tail x).alternatives ↔ (∃ w ∈ u.repeats, v = w ++ [x]) ∨ v = [epsilon] := by
  rw [Unrolling.tail, NonTerminal.mem_ofAlternatives, List.mem_append, List.mem_map,
    List.mem_singleton]
  simp only [eq_comm]

/-- The unrolled non-terminal keeps its name. -/
theorem symbol_head_unrolling (h : n.recursion = .proper u) (x : Symbol) :
    (u.head x).symbol = n.symbol := by
  rw [Unrolling.head, NonTerminal.symbol_ofAlternatives, eq_unrolling_of_recursion h]

theorem symbol_tail_unrolling (u : Unrolling) (x : Symbol) : (u.tail x).symbol = x :=
  NonTerminal.symbol_ofAlternatives _ _

/-- Every alternative that is not left recursive gives a base. -/
theorem mem_bases_of_recursion (h : n.recursion = .proper u) {body : Word}
    (hbody : body ∈ n.baseAlternatives) : withoutEpsilon body ∈ u.bases := by
  rw [eq_unrolling_of_recursion h]
  exact List.mem_map_of_mem hbody

/-- Every continuation that is not empty is a repeat. -/
theorem mem_repeats_of_recursion (h : n.recursion = .proper u) {v : Word}
    (hv : v ∈ n.continuations) (hne : v ≠ []) : v ∈ u.repeats := by
  rw [eq_unrolling_of_recursion h]
  exact List.mem_filter.2 ⟨hv, by simpa using hne⟩

/-- A base is an alternative without its epsilons. -/
theorem exists_of_mem_bases (h : n.recursion = .proper u) {v : Word} (hv : v ∈ u.bases) :
    ∃ body ∈ n.alternatives, v = withoutEpsilon body := by
  obtain rfl := eq_unrolling_of_recursion h
  obtain ⟨body, hbody, rfl⟩ := List.mem_map.1 hv
  exact ⟨body, (mem_baseAlternatives.1 hbody).1, rfl⟩

/-- A repeat is what follows the non-terminal in a left recursive alternative. -/
theorem exists_of_mem_repeats (h : n.recursion = .proper u) {v : Word} (hv : v ∈ u.repeats) :
    ∃ rest, n.symbol :: rest ∈ n.alternatives ∧ v = withoutEpsilon rest := by
  obtain rfl := eq_unrolling_of_recursion h
  exact mem_continuations.1 (List.mem_filter.1 hv).1

/-- The strings that can be put behind every string of a symbol without leaving its language. -/
def residual (m : Symbol → Language) (s : Symbol) : Language :=
  fun w => ∀ v, m s v → m s (v ++ w)

/-- If the fresh symbol means the residual of the non-terminal, the unrolled non-terminals mean no
more than they may. -/
theorem closed_of_residual (h : n.recursion = .proper u) (hs : n.symbol ≠ epsilon)
    (hx : x ≠ epsilon) (hunused : ∀ v ∈ n.alternatives, x ∉ v) {m : Symbol → Language}
    (hclosed : ∀ body ∈ n.alternatives, ∀ w, Denotes m body w → m n.symbol w) :
    (∀ body ∈ (u.head x).alternatives, ∀ w,
      Denotes (Function.update m x (residual m n.symbol)) body w → m n.symbol w) ∧
    ∀ body ∈ (u.tail x).alternatives, ∀ w,
      Denotes (Function.update m x (residual m n.symbol)) body w → residual m n.symbol w := by
  -- what stands before the fresh symbol does not mention it
  have hsplit : ∀ (b body w : Word), x ∉ body → b = withoutEpsilon body →
      Denotes (Function.update m x (residual m n.symbol)) (b ++ [x]) w →
        ∃ v y, w = v ++ y ∧ Denotes m body v ∧ residual m n.symbol y := by
    rintro b body w hxb rfl hw
    obtain ⟨v, y, rfl, hv, hy⟩ := denotes_append_iff.1 hw
    rw [denotes_singleton_iff hx, Function.update_self] at hy
    rw [denotes_withoutEpsilon_iff, denotes_update_iff hxb] at hv
    exact ⟨v, y, rfl, hv, hy⟩
  refine ⟨fun body hbody w hw => ?_, fun body hbody w hw => ?_⟩
  · obtain ⟨b, hb, rfl⟩ := mem_alternatives_head_unrolling.1 hbody
    obtain ⟨base, hbase, heq⟩ := exists_of_mem_bases h hb
    obtain ⟨v, y, rfl, hv, hy⟩ := hsplit b base w (hunused base hbase) heq hw
    exact hy v (hclosed base hbase v hv)
  · rcases mem_alternatives_tail_unrolling.1 hbody with ⟨b, hb, rfl⟩ | rfl
    · obtain ⟨rest, hrest, heq⟩ := exists_of_mem_repeats h hb
      have hxr : x ∉ rest := fun hmem => hunused _ hrest (List.mem_cons_of_mem _ hmem)
      obtain ⟨v, y, rfl, hv, hy⟩ := hsplit b rest w hxr heq hw
      intro z hz
      -- a string of the symbol followed by a repeat is a string of the symbol
      have hzv : m n.symbol (z ++ v) := hclosed _ hrest _ (.cons hs hz hv)
      rw [← List.append_assoc]
      exact hy _ hzv
    · rw [denotes_cons_epsilon_iff, denotes_nil_iff] at hw
      intro z hz
      rwa [hw, List.append_nil]

section LeastSolution

variable {system : List NonTerminal} {given : Symbol → Language} {b y z : Word}

/-- The fresh symbol derives the empty string. -/
theorem leastMeaning_fresh_nil (htail : u.tail x ∈ system) : leastMeaning system given x [] := by
  have hmem : [epsilon] ∈ (u.tail x).alternatives := mem_alternatives_tail_unrolling.2 (Or.inr rfl)
  have hnil := (solves_leastMeaning system given).closed _ htail _ hmem [] (.epsilon .nil)
  rwa [symbol_tail_unrolling] at hnil

/-- A repeat can be put before every string of the fresh symbol. -/
theorem leastMeaning_fresh_cons (hx : x ≠ epsilon) (htail : u.tail x ∈ system) (hb : b ∈ u.repeats)
    (hy : Denotes (leastMeaning system given) b y) (hz : leastMeaning system given x z) :
    leastMeaning system given x (y ++ z) := by
  have hmem : b ++ [x] ∈ (u.tail x).alternatives :=
    mem_alternatives_tail_unrolling.2 (Or.inl ⟨b, hb, rfl⟩)
  have happ : Denotes (leastMeaning system given) (b ++ [x]) (y ++ z) :=
    denotes_append_iff.2 ⟨y, z, rfl, hy, (denotes_singleton_iff hx).2 hz⟩
  have hclosed := (solves_leastMeaning system given).closed _ htail _ hmem _ happ
  rwa [symbol_tail_unrolling] at hclosed

/-- A base can be put before every string of the fresh symbol. -/
theorem leastMeaning_head_cons (h : n.recursion = .proper u) (hx : x ≠ epsilon)
    (hhead : u.head x ∈ system) (hb : b ∈ u.bases) (hy : Denotes (leastMeaning system given) b y)
    (hz : leastMeaning system given x z) : leastMeaning system given n.symbol (y ++ z) := by
  have hmem : b ++ [x] ∈ (u.head x).alternatives :=
    mem_alternatives_head_unrolling.2 ⟨b, hb, rfl⟩
  have happ : Denotes (leastMeaning system given) (b ++ [x]) (y ++ z) :=
    denotes_append_iff.2 ⟨y, z, rfl, hy, (denotes_singleton_iff hx).2 hz⟩
  have hclosed := (solves_leastMeaning system given).closed _ hhead _ hmem _ happ
  rwa [symbol_head_unrolling h] at hclosed

/-- In the least solution of the unrolled system, a repeat can be put behind every string of the
fresh symbol. -/
theorem leastMeaning_fresh_append (hx : x ≠ epsilon) (htail : u.tail x ∈ system)
    (honly : ∀ k ∈ system, k.symbol = x → k = u.tail x) (hb : b ∈ u.repeats)
    (hy : leastMeaning system given x y) (hz : Denotes (leastMeaning system given) b z) :
    leastMeaning system given x (y ++ z) := by
  -- the induction is on how the string of the fresh symbol comes about
  have key : ∀ s y, leastMeaning system given s y → s = x → leastMeaning system given x (y ++ z) := by
    intro s y hy
    refine leastMeaning_induction
      (P := fun s y => s = x → leastMeaning system given x (y ++ z)) ?_ ?_ hy
    · rintro t ht _ _ rfl
      exact absurd (symbol_tail_unrolling u t) (ht _ htail)
    · intro k hk body hbody y hy heq
      rw [honly k hk heq] at hbody
      rcases mem_alternatives_tail_unrolling.1 hbody with ⟨c, hc, rfl⟩ | rfl
      · obtain ⟨y₁, y₂, rfl, h₁, h₂⟩ := denotes_append_iff.1 hy
        -- the repeat goes to the end of what follows
        have hlast := ((denotes_singleton_iff hx).1 h₂).2 rfl
        rw [List.append_assoc]
        exact leastMeaning_fresh_cons hx htail hc (h₁.mono fun _ _ h => h.1) hlast
      · rw [denotes_cons_epsilon_iff, denotes_nil_iff] at hy
        have happ := leastMeaning_fresh_cons hx htail hb hz (leastMeaning_fresh_nil htail)
        rw [hy, List.nil_append]
        rwa [List.append_nil] at happ
  exact key x y hy rfl

/-- The least solution of the unrolled system is closed under the alternatives there were before: a
string of the non-terminal is a base followed by a string of the fresh symbol, and the latter takes
one repeat more. -/
theorem closed_of_unrolled (system : List NonTerminal) (given : Symbol → Language)
    (h : n.recursion = .proper u) (hs : n.symbol ≠ epsilon) (hx : x ≠ epsilon)
    (hhead : u.head x ∈ system) (htail : u.tail x ∈ system)
    (honlyHead : ∀ k ∈ system, k.symbol = n.symbol → k = u.head x)
    (honlyTail : ∀ k ∈ system, k.symbol = x → k = u.tail x) :
    ∀ body ∈ n.alternatives, ∀ w, Denotes (leastMeaning system given) body w →
      leastMeaning system given n.symbol w := by
  intro body hbody w hw
  rcases alternative_cases hbody with hb | ⟨rest, rfl, hrest⟩
  · have happ := leastMeaning_head_cons h hx hhead (mem_bases_of_recursion h hb)
      (denotes_withoutEpsilon_iff.2 hw) (leastMeaning_fresh_nil htail)
    rwa [List.append_nil] at happ
  · obtain ⟨v, y, rfl, hv, hy⟩ := (denotes_cons_iff hs).1 hw
    rw [← denotes_withoutEpsilon_iff] at hy
    by_cases hnil : withoutEpsilon rest = []
    · rw [hnil, denotes_nil_iff] at hy
      rwa [hy, List.append_nil]
    · -- the string of the non-terminal is taken apart, and the repeat goes to its second part
      rw [← symbol_head_unrolling h x] at hv
      obtain ⟨k, hk, hkn, alt, halt, hd⟩ := exists_alternative_of_leastMeaning hhead hv
      rw [honlyHead k hk (hkn.trans (symbol_head_unrolling h x))] at halt
      obtain ⟨b, hb, rfl⟩ := mem_alternatives_head_unrolling.1 halt
      obtain ⟨v₁, v₂, rfl, h₁, h₂⟩ := denotes_append_iff.1 hd
      rw [denotes_singleton_iff hx] at h₂
      have hrepeat := mem_repeats_of_recursion h hrest hnil
      rw [List.append_assoc]
      exact leastMeaning_head_cons h hx hhead hb h₁
        (leastMeaning_fresh_append hx htail honlyTail hrepeat h₂ hy)

end LeastSolution

/-- The two non-terminals of an unrolling can take the place of the one that was unrolled. -/
theorem replaceableBy_of_recursion_proper (h : n.recursion = .proper u) (hs : n.symbol ≠ epsilon)
    (hx : x ≠ epsilon) : n.ReplaceableBy [x] [u.head x, u.tail x] := by
  intro before after given hother hfresh s hsx
  have hunused := hfresh x List.mem_cons_self
  have hne : s ≠ x := by simpa using hsx
  have hhead := symbol_head_unrolling h x
  have htail := symbol_tail_unrolling u x
  funext w
  refine propext ⟨leastMeaning_mono_of_solutions fun m' hm' => ?_,
    leastMeaning_mono_of_solutions fun m hm => ?_⟩
  · have honly := fun k hk => eq_of_mem_divided (k := k) hother hunused hhead htail hk
    have hclosed := closed_of_unrolled (before ++ [u.head x, u.tail x] ++ after) given h hs hx
      (by simp) (by simp) (fun k hk => (honly k hk).1) fun k hk => (honly k hk).2
    -- closedness is known of the least solution, which is part of the given one
    refine ⟨_, (solves_leastMeaning _ given).merge hunused hhead htail hclosed, fun w hw => ?_⟩
    rw [Function.update_of_ne hne] at hw
    exact hm'.of_leastMeaning hw
  · obtain ⟨hclosed, hfresh⟩ :=
      closed_of_residual h hs hx (hunused n (by simp)).2 (hm.closed n (by simp))
    refine ⟨_, hm.divide hunused hhead htail hclosed hfresh, fun w hw => ?_⟩
    rwa [Function.update_of_ne hne] at hw

end LL1
