/-
# Factoring keeps the language

The alternatives of a non-terminal are those around the group and, for each member of the group, the
stem with an ending. In a factored system the fresh symbol means what the endings mean, so the stem
followed by the fresh symbol means what the members of the group mean.
-/
import LL1.Proofs.Rewriting.Replacement
import LL1.Rewriting.Factoring

namespace LL1

/-! ## The stem and the endings -/

/-- The shared prefix of some words begins each of them. -/
theorem sharedPrefix_begins {ws : List Word} {w : Word} (h : w ∈ ws) : sharedPrefix ws <+: w := by
  have key : ∀ (rest : List Word) (u : Word),
      rest.foldl commonPrefix u <+: u ∧ ∀ v ∈ rest, rest.foldl commonPrefix u <+: v := by
    intro rest
    induction rest with
    | nil => exact fun u => ⟨List.prefix_refl u, fun v hv => absurd hv List.not_mem_nil⟩
    | cons v rest ih =>
      intro u
      obtain ⟨hfirst, hrest⟩ := ih (commonPrefix u v)
      rw [List.foldl_cons, List.forall_mem_cons]
      exact ⟨hfirst.trans (commonPrefix_prefix_left u v),
        hfirst.trans (commonPrefix_prefix_right u v), hrest⟩
  cases ws with
  | nil => cases h
  | cons u rest =>
    rcases List.mem_cons.1 h with rfl | h
    · exact (key rest w).1
    · exact (key rest u).2 w h

/-- The group that is found has a member. -/
theorem group_ne_nil_of_findGroup {s : Symbol} {ws : List Word} {g : Grouping}
    (h : findGroup s ws = some g) : g.group ≠ [] := by
  induction ws generalizing g with
  | nil => simp [findGroup] at h
  | cons v rest ih =>
    cases rest with
    | nil => simp [findGroup] at h
    | cons w rest =>
      unfold findGroup at h
      split at h
      · cases h
        exact List.cons_ne_nil _ _
      · obtain ⟨k, hk, rfl⟩ := Option.map_eq_some_iff.1 h
        exact (ih hk : k.group ≠ [])

variable {n : NonTerminal} {f : Factoring} {x : Symbol}

/-- What a factoring is made from: the cut of the sorted alternatives. -/
theorem exists_grouping_of_factoring? (h : n.factoring? = some f) :
    ∃ g, findGroup n.symbol (sortWords n.alternatives) = some g ∧
      f = { symbol := n.symbol, before := g.before, stem := sharedPrefix g.group,
            endings := g.group.map fun w => w.drop (sharedPrefix g.group).length,
            after := g.after } := by
  obtain ⟨g, hg, rfl⟩ := Option.map_eq_some_iff.1 h
  exact ⟨g, hg, rfl⟩

/-- A factoring is named after its non-terminal. -/
theorem symbol_of_factoring? (h : n.factoring? = some f) : f.symbol = n.symbol := by
  obtain ⟨g, -, rfl⟩ := exists_grouping_of_factoring? h
  rfl

/-- Some alternative is in the group. -/
theorem endings_ne_nil_of_factoring? (h : n.factoring? = some f) : f.endings ≠ [] := by
  obtain ⟨g, hg, rfl⟩ := exists_grouping_of_factoring? h
  simpa using group_ne_nil_of_findGroup hg

/-- The alternatives are those around the group, and the stem with each ending. -/
theorem mem_alternatives_iff_of_factoring? (h : n.factoring? = some f) {v : Word} :
    v ∈ n.alternatives ↔ v ∈ f.before ∨ (∃ e ∈ f.endings, v = f.stem ++ e) ∨ v ∈ f.after := by
  obtain ⟨g, hg, rfl⟩ := exists_grouping_of_factoring? h
  rw [← (sortWords_perm n.alternatives).mem_iff, ← findGroup_append hg]
  have hgroup : v ∈ g.group ↔
      ∃ e ∈ g.group.map fun w => w.drop (sharedPrefix g.group).length,
        v = sharedPrefix g.group ++ e := by
    constructor
    · intro hv
      refine ⟨_, List.mem_map_of_mem hv, ?_⟩
      exact (List.prefix_iff_eq_append.1 (sharedPrefix_begins hv)).symm
    · rintro ⟨e, he, rfl⟩
      obtain ⟨w, hw, rfl⟩ := List.mem_map.1 he
      rwa [List.prefix_iff_eq_append.1 (sharedPrefix_begins hw)]
  rw [List.mem_append, List.mem_append, hgroup, or_assoc]

/-- A member of the group is not around it, if no alternative is listed twice. -/
theorem notMem_of_ending (hn : n.alternatives.Nodup) (h : n.factoring? = some f) {e : Word}
    (he : e ∈ f.endings) : f.stem ++ e ∉ f.before ∧ f.stem ++ e ∉ f.after := by
  obtain ⟨g, hg, rfl⟩ := exists_grouping_of_factoring? h
  have hmember : sharedPrefix g.group ++ e ∈ g.group := by
    obtain ⟨w, hw, rfl⟩ := List.mem_map.1 he
    rwa [List.prefix_iff_eq_append.1 (sharedPrefix_begins hw)]
  have hnodup : (g.before ++ g.group ++ g.after).Nodup := by
    rw [findGroup_append hg]
    exact (sortWords_perm _).nodup_iff.2 hn
  obtain ⟨hfront, -, hbehind⟩ := List.nodup_append.1 hnodup
  refine ⟨fun hmem => ?_, fun hmem => ?_⟩
  · exact (List.nodup_append.1 hfront).2.2 _ hmem _ hmember rfl
  · exact hbehind _ (List.mem_append_right _ hmember) _ hmem rfl

/-! ## The factored non-terminals -/

/-- The factored non-terminal keeps its name. -/
theorem symbol_head_factoring (h : n.factoring? = some f) (x : Symbol) :
    (f.head x).symbol = n.symbol :=
  (NonTerminal.symbol_ofAlternatives _ _).trans (symbol_of_factoring? h)

theorem symbol_tail_factoring (f : Factoring) (x : Symbol) : (f.tail x).symbol = x :=
  NonTerminal.symbol_ofAlternatives _ _

/-- The alternatives of the factored non-terminal. -/
theorem mem_alternatives_head_factoring {v : Word} :
    v ∈ (f.head x).alternatives ↔ v ∈ f.before ∨ v = f.stem ++ [x] ∨ v ∈ f.after := by
  rw [Factoring.head, NonTerminal.mem_ofAlternatives, List.mem_append, List.mem_cons]

/-- The alternatives of the fresh non-terminal. -/
theorem mem_alternatives_tail_factoring {v : Word} :
    v ∈ (f.tail x).alternatives ↔ ∃ e ∈ f.endings, v = Factoring.spelled e := by
  rw [Factoring.tail, NonTerminal.mem_ofAlternatives, List.mem_map]
  simp only [eq_comm]

/-- Spelling the empty word with an epsilon does not change what is denoted. -/
theorem denotes_spelled_iff {m : Symbol → Language} {e w : Word} :
    Denotes m (Factoring.spelled e) w ↔ Denotes m e w := by
  cases e with
  | nil => exact denotes_cons_epsilon_iff
  | cons s e => exact Iff.rfl

/-- The language of the endings of a factoring. -/
def Factoring.endingMeaning (f : Factoring) (m : Symbol → Language) : Language :=
  fun w => ∃ e ∈ f.endings, Denotes m e w

/-- A solution of the factored non-terminals is closed under the alternatives there were before: the
fresh symbol takes an ending, and the stem goes in front of it. -/
theorem closed_of_factored (h : n.factoring? = some f) (hx : x ≠ epsilon) {m : Symbol → Language}
    (hhead : ∀ body ∈ (f.head x).alternatives, ∀ w, Denotes m body w → m n.symbol w)
    (htail : ∀ body ∈ (f.tail x).alternatives, ∀ w, Denotes m body w → m x w) :
    ∀ body ∈ n.alternatives, ∀ w, Denotes m body w → m n.symbol w := by
  intro body hbody w hw
  rcases (mem_alternatives_iff_of_factoring? h).1 hbody with hb | ⟨e, he, rfl⟩ | ha
  · exact hhead body (mem_alternatives_head_factoring.2 (Or.inl hb)) w hw
  · obtain ⟨u, v, rfl, hu, hv⟩ := denotes_append_iff.1 hw
    -- the ending goes to the fresh symbol
    have hxv : m x v := htail _ (mem_alternatives_tail_factoring.2 ⟨e, he, rfl⟩) v
      (denotes_spelled_iff.2 hv)
    apply hhead _ (mem_alternatives_head_factoring.2 (Or.inr (Or.inl rfl))) _
    exact denotes_append_iff.2 ⟨u, v, rfl, hu, (denotes_singleton_iff hx).2 hxv⟩
  · exact hhead body (mem_alternatives_head_factoring.2 (Or.inr (Or.inr ha))) w hw

/-- If the fresh symbol means what the endings mean, the factored non-terminal means no more than the
non-terminal did before. -/
theorem head_closed_of_closed (h : n.factoring? = some f) (hx : x ≠ epsilon)
    (hunused : ∀ v ∈ n.alternatives, x ∉ v) {m : Symbol → Language}
    (hclosed : ∀ body ∈ n.alternatives, ∀ w, Denotes m body w → m n.symbol w) :
    ∀ body ∈ (f.head x).alternatives, ∀ w,
      Denotes (Function.update m x (f.endingMeaning m)) body w → m n.symbol w := by
  have hold : ∀ v ∈ n.alternatives, ∀ w,
      Denotes (Function.update m x (f.endingMeaning m)) v w → m n.symbol w :=
    fun v hv w hw => hclosed v hv w ((denotes_update_iff (hunused v hv)).1 hw)
  have hmem := fun v => mem_alternatives_iff_of_factoring? h (v := v)
  intro body hbody w hw
  rcases mem_alternatives_head_factoring.1 hbody with hb | rfl | ha
  · exact hold body ((hmem body).2 (Or.inl hb)) w hw
  · obtain ⟨u, v, rfl, hu, hv⟩ := denotes_append_iff.1 hw
    rw [denotes_singleton_iff hx, Function.update_self] at hv
    obtain ⟨e, he, hev⟩ := hv
    -- the stem and an ending make an alternative there was before
    have halt : f.stem ++ e ∈ n.alternatives := (hmem _).2 (Or.inr (Or.inl ⟨e, he, rfl⟩))
    have hxe : x ∉ e := fun hmem => hunused _ halt (List.mem_append_right _ hmem)
    refine hold _ halt _ (denotes_append_iff.2 ⟨u, v, rfl, hu, ?_⟩)
    exact (denotes_update_iff hxe).2 hev
  · exact hold body ((hmem body).2 (Or.inr (Or.inr ha))) w hw

/-- The alternatives of the fresh non-terminal mean what the endings mean. -/
theorem tail_closed (h : n.factoring? = some f) (hunused : ∀ v ∈ n.alternatives, x ∉ v)
    {m : Symbol → Language} :
    ∀ body ∈ (f.tail x).alternatives, ∀ w,
      Denotes (Function.update m x (f.endingMeaning m)) body w → f.endingMeaning m w := by
  intro body hbody w hw
  obtain ⟨e, he, rfl⟩ := mem_alternatives_tail_factoring.1 hbody
  have halt : f.stem ++ e ∈ n.alternatives :=
    (mem_alternatives_iff_of_factoring? h).2 (Or.inr (Or.inl ⟨e, he, rfl⟩))
  have hxe : x ∉ e := fun hmem => hunused _ halt (List.mem_append_right _ hmem)
  rw [denotes_spelled_iff] at hw
  exact ⟨e, he, (denotes_update_iff hxe).1 hw⟩

/-- The two non-terminals of a factoring can take the place of the one that was factored. -/
theorem replaceableBy_of_factoring? (h : n.factoring? = some f) (hx : x ≠ epsilon) :
    n.ReplaceableBy [x] [f.head x, f.tail x] := by
  intro before after given _ hfresh s hs
  have hunused := hfresh x List.mem_cons_self
  have hsx : s ≠ x := by simpa using hs
  have hhead := symbol_head_factoring h x
  have htail := symbol_tail_factoring f x
  have halt : ∀ v ∈ n.alternatives, x ∉ v := (hunused n (by simp)).2
  funext w
  refine propext ⟨leastMeaning_mono_of_solutions fun m' hm' => ?_,
    leastMeaning_mono_of_solutions fun m hm => ?_⟩
  · refine ⟨_, hm'.merge hunused hhead htail (closed_of_factored h hx ?_ ?_), fun w hw => ?_⟩
    · exact fun body hbody w hw => hhead ▸ hm'.closed (f.head x) (by simp) body hbody w hw
    · exact fun body hbody w hw => htail ▸ hm'.closed (f.tail x) (by simp) body hbody w hw
    · rwa [Function.update_of_ne hsx] at hw
  · have hclosed := head_closed_of_closed h hx halt (hm.closed n (by simp))
    refine ⟨_, hm.divide hunused hhead htail hclosed (tail_closed h halt), fun w hw => ?_⟩
    rwa [Function.update_of_ne hsx] at hw

end LL1
