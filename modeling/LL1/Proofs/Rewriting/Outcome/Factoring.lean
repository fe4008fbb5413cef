/-
# What factoring returns

Factoring looks for the first run of alternatives that begin alike in their dictionary order. This run
holds all alternatives that begin with the least symbol that two of them share, and what is pulled to
the front is the longest word that begins them all. When the alternatives of the fresh non-terminal
are put back in the place of its symbol, the alternatives come out as they were, up to epsilons.
-/
import LL1.Proofs.Rewriting.Outcome
import LL1.Proofs.Rewriting.Weight.Factoring

namespace LL1

/-! ## Longest prefixes -/

/-- Whether a word is the longest one that begins all words of a list. -/
structure IsLongestPrefix (p : Word) (ws : List Word) : Prop where
  /-- It begins all of them. -/
  begins : ∀ w ∈ ws, p <+: w
  /-- Every word that begins all of them begins it. -/
  longest : ∀ q, (∀ w ∈ ws, q <+: w) → q <+: p

section Prefixes

variable {p v w : Word} {ws us : List Word}

/-- What begins two words begins their common prefix. -/
theorem prefix_commonPrefix (hv : p <+: v) (hw : p <+: w) : p <+: commonPrefix v w := by
  induction p generalizing v w with
  | nil => exact List.nil_prefix
  | cons s p ih =>
    obtain ⟨v, rfl⟩ := hv
    obtain ⟨w, rfl⟩ := hw
    rw [List.cons_append, List.cons_append, commonPrefix, if_pos rfl, List.prefix_cons_inj]
    exact ih (List.prefix_append p v) (List.prefix_append p w)

/-- What begins some words begins their shared prefix. -/
theorem prefix_sharedPrefix (hne : ws ≠ []) (h : ∀ w ∈ ws, p <+: w) : p <+: sharedPrefix ws := by
  cases ws with
  | nil => exact absurd rfl hne
  | cons v rest =>
    obtain ⟨hv, hrest⟩ := List.forall_mem_cons.1 h
    clear hne h
    unfold sharedPrefix
    induction rest generalizing v with
    | nil => exact hv
    | cons w rest ih =>
      rw [List.forall_mem_cons] at hrest
      exact ih (commonPrefix v w) (prefix_commonPrefix hv hrest.1) hrest.2

/-- The shared prefix of some words is the longest word that begins them all. -/
theorem isLongestPrefix_sharedPrefix (hne : ws ≠ []) : IsLongestPrefix (sharedPrefix ws) ws :=
  ⟨fun _ => sharedPrefix_begins, fun _ => prefix_sharedPrefix hne⟩

/-- Only the members of the list matter. -/
theorem IsLongestPrefix.congr (h : IsLongestPrefix p ws) (hmem : ∀ w, w ∈ us ↔ w ∈ ws) :
    IsLongestPrefix p us := by
  refine ⟨fun w hw => h.begins w ((hmem w).1 hw), fun q hq => h.longest q fun w hw => ?_⟩
  exact hq w ((hmem w).2 hw)

end Prefixes

/-! ## Substitution -/

/-- The words that come from a word when every occurrence of a symbol is replaced by one of some
bodies. -/
def substitute (x : Symbol) (bodies : List Word) : Word → List Word
  | [] => [[]]
  | s :: rest =>
    if s = x then bodies.flatMap fun body => (substitute x bodies rest).map fun w => body ++ w
    else (substitute x bodies rest).map fun w => s :: w

section Substitution

variable {x : Symbol} {bodies : List Word} {v w : Word}

/-- A word without the symbol stays as it is. -/
theorem substitute_of_notMem (hx : x ∉ v) : substitute x bodies v = [v] := by
  induction v with
  | nil => rfl
  | cons s rest ih =>
    rw [List.mem_cons, not_or] at hx
    rw [substitute, if_neg (Ne.symm hx.1), ih hx.2]
    rfl

/-- If the symbol stands at the end only, a body takes its place there. -/
theorem mem_substitute_append (hx : x ∉ v) :
    w ∈ substitute x bodies (v ++ [x]) ↔ ∃ body ∈ bodies, w = v ++ body := by
  induction v generalizing w with
  | nil =>
    rw [List.nil_append, substitute, if_pos rfl]
    simp [substitute]
  | cons s rest ih =>
    rw [List.mem_cons, not_or] at hx
    rw [List.cons_append, substitute, if_neg (Ne.symm hx.1), List.mem_map]
    constructor
    · rintro ⟨u, hu, rfl⟩
      obtain ⟨body, hbody, rfl⟩ := (ih hx.2).1 hu
      exact ⟨body, hbody, rfl⟩
    · rintro ⟨body, hbody, rfl⟩
      exact ⟨rest ++ body, (ih hx.2).2 ⟨body, hbody, rfl⟩, rfl⟩

end Substitution

/-- The alternatives of a non-terminal with those of another one in the place of its symbol. -/
def NonTerminal.expand (head fresh : NonTerminal) : List Word :=
  head.alternatives.flatMap (substitute fresh.symbol fresh.alternatives)

/-! ## The first group -/

section Groups

variable {head s t : Symbol} {v w : Word} {ws : List Word} {g : Grouping}

/-- No two neighbours in front of the group that is found begin alike. -/
theorem hasNeighboursAlike_before (h : findGroup head ws = some g) :
    hasNeighboursAlike head g.before = false := by
  induction ws generalizing g with
  | nil => simp [findGroup] at h
  | cons v rest ih =>
    cases rest with
    | nil => simp [findGroup] at h
    | cons w rest =>
      unfold findGroup at h
      split at h
      · cases h
        rfl
      · next halike =>
        obtain ⟨k, hk, rfl⟩ := Option.map_eq_some_iff.1 h
        have hrest := ih hk
        have happend := findGroup_append hk
        obtain ⟨before, group, after⟩ := k
        cases before with
        | nil => rfl
        | cons u before =>
          obtain rfl : u = w := (List.cons.inj happend).1
          exact Bool.or_eq_false_iff.2 ⟨Bool.eq_false_iff.2 halike, hrest⟩

/-- Words in order begin with symbols in order. -/
theorem head_le_of_notAfter (h : notAfter v w = true) (hv : v.head? = some s)
    (hw : w.head? = some t) : s ≤ t := by
  obtain ⟨v, rfl⟩ := List.head?_eq_some_iff.1 hv
  obtain ⟨w, rfl⟩ := List.head?_eq_some_iff.1 hw
  unfold notAfter at h
  split at h
  · next heq => exact heq ▸ Char.le_refl s
  · exact Char.not_lt.1 (Char.lt_asymm (of_decide_eq_true h))

end Groups

namespace NonTerminal

/-- Whether two alternatives begin with the symbol, which is not the name of the non-terminal. -/
def Shares (n : NonTerminal) (t : Symbol) : Prop :=
  t ≠ n.symbol ∧ ∃ v ∈ n.alternatives, ∃ w ∈ n.alternatives,
    v ≠ w ∧ v.head? = some t ∧ w.head? = some t

/-- The alternatives that begin with a symbol. -/
def beginningWith (n : NonTerminal) (t : Symbol) : List Word :=
  n.alternatives.filter fun v => decide (v.head? = some t)

variable {n : NonTerminal} {t : Symbol} {v : Word}

theorem mem_beginningWith : v ∈ n.beginningWith t ↔ v ∈ n.alternatives ∧ v.head? = some t := by
  rw [beginningWith, List.mem_filter, decide_eq_true_eq]

/-- There is something to factor exactly when some symbol is shared. -/
theorem isLeftFactorable_iff_shares (hn : n.alternatives.Nodup) :
    n.isLeftFactorable = true ↔ ∃ t, n.Shares t := by
  constructor
  · intro h
    obtain ⟨v, hv, w, hw, hne, halike⟩ := exists_of_isLeftFactorable hn h
    obtain ⟨hsame, hself⟩ := beginAlike_iff.1 halike
    obtain ⟨t, ht⟩ := exists_head?_of_ne hne hsame
    exact ⟨t, fun heq => hself (heq ▸ ht), v, hv, w, hw, hne, ht, hsame ▸ ht⟩
  · rintro ⟨t, hself, v, hv, w, hw, hne, hvt, hwt⟩
    refine isLeftFactorable_of_mem hv hw hne (beginAlike_iff.2 ⟨hvt.trans hwt.symm, ?_⟩)
    rw [hvt]
    exact fun heq => hself (Option.some.inj heq)

/-! ## The result -/

/-- How the alternatives of a non-terminal that begin with a symbol are factored out: in their place
there is a stem with the name of the fresh non-terminal, which stands for what followed the stem. -/
structure FactorsInto (n : NonTerminal) (t : Symbol) (stem : Word) (head fresh : NonTerminal) :
    Prop where
  /-- The factored non-terminal keeps the name. -/
  symbol : head.symbol = n.symbol
  /-- The stem begins with the symbol. -/
  stem_head : stem.head? = some t
  /-- The stem is the longest prefix of the alternatives that are factored. -/
  longest : IsLongestPrefix stem (n.beginningWith t)
  /-- The other alternatives stay, and there is one new alternative. -/
  mem_head_iff : ∀ v, v ∈ head.alternatives ↔
    v ∈ n.alternatives ∧ v ∉ n.beginningWith t ∨ v = stem ++ [fresh.symbol]
  /-- Only the new alternative begins with the symbol. -/
  apart : ∀ v ∈ head.alternatives, v.head? = some t → v = stem ++ [fresh.symbol]
  /-- The fresh non-terminal has the endings of the alternatives that are factored. -/
  mem_fresh_iff : ∀ v, v ∈ fresh.alternatives ↔
    ∃ e, stem ++ e ∈ n.beginningWith t ∧ v = Factoring.spelled e
  /-- Putting the endings back gives the alternatives there were, epsilons aside. -/
  restored : ∀ v, v ∈ (head.expand fresh).map withoutEpsilon ↔
    v ∈ n.alternatives.map withoutEpsilon

end NonTerminal

namespace Factoring

namespace Cuts

variable {n : NonTerminal} {f : Factoring} {t x : Symbol} {v : Word}

/-- The group holds all alternatives that begin like the stem. -/
theorem mem_members_iff (h : f.Cuts n) (ht : f.stem.head? = some t) :
    v ∈ f.members ↔ v ∈ n.beginningWith t := by
  rw [NonTerminal.mem_beginningWith, ← ht, h.mem_alternatives_iff]
  constructor
  · exact fun hv => ⟨Or.inr hv, h.head?_of_mem_members hv⟩
  · rintro ⟨hv | hv, hsame⟩
    · exact absurd hsame (h.apart v hv)
    · exact hv

/-- The alternatives around the group are those that begin otherwise. -/
theorem mem_around_iff (h : f.Cuts n) (ht : f.stem.head? = some t) :
    v ∈ f.before ++ f.after ↔ v ∈ n.alternatives ∧ v ∉ n.beginningWith t := by
  rw [NonTerminal.mem_beginningWith, ← ht, not_and]
  constructor
  · exact fun hv => ⟨h.mem_alternatives_iff.2 (Or.inl hv), fun _ => h.apart v hv⟩
  · rintro ⟨hv, hother⟩
    exact (h.mem_alternatives_iff.1 hv).resolve_right
      fun hmember => hother hv (h.head?_of_mem_members hmember)

/-- The stem is shared. -/
theorem shares (h : f.Cuts n) (hn : n.alternatives.Nodup) (ht : f.stem.head? = some t) :
    n.Shares t := by
  obtain ⟨s, hs, hne⟩ := h.stem
  obtain rfl : s = t := Option.some.inj (hs.symm.trans ht)
  obtain ⟨e, hmember⟩ := h.exists_mem_members
  -- the member is in the crowd, so another alternative begins like it
  obtain ⟨hv, w, hw, hwv, hsame, -⟩ :=
    NonTerminal.mem_crowd_iff.1 (h.mem_crowd_of_mem_members hn hmember)
  have hhead := (h.head?_of_mem_members hmember).trans ht
  exact ⟨hne, _, hv, w, hw, Ne.symm hwv, hhead, hsame ▸ hhead⟩

/-- The alternatives of the factored non-terminal. -/
theorem mem_head_iff (h : f.Cuts n) (ht : f.stem.head? = some t) :
    v ∈ (f.head x).alternatives ↔
      v ∈ n.alternatives ∧ v ∉ n.beginningWith t ∨ v = f.stem ++ [x] := by
  rw [← h.mem_around_iff ht, mem_alternatives_head_factoring, List.mem_append]
  exact or_left_comm.trans or_comm

/-- The alternatives of the fresh non-terminal. -/
theorem mem_tail_iff (h : f.Cuts n) (ht : f.stem.head? = some t) :
    v ∈ (f.tail x).alternatives ↔ ∃ e, f.stem ++ e ∈ n.beginningWith t ∧ v = spelled e := by
  rw [mem_alternatives_tail_factoring]
  refine exists_congr fun e => and_congr_left fun _ => ?_
  rw [← h.mem_members_iff ht, members, List.mem_map]
  constructor
  · exact fun he => ⟨e, he, rfl⟩
  · rintro ⟨e', he, heq⟩
    rwa [← List.append_cancel_left heq]

/-- Only the new alternative begins like the stem. -/
theorem eq_of_head? (h : f.Cuts n) (hv : v ∈ (f.head x).alternatives)
    (hsame : v.head? = f.stem.head?) : v = f.stem ++ [x] :=
  (mem_head_cases hv).resolve_left fun hother => h.apart v hother hsame

/-- When the endings are put back, the alternatives around the group are found, and the stem with the
endings. -/
theorem mem_expand_iff (h : f.Cuts n) (hunused : ∀ body ∈ n.alternatives, x ∉ body) :
    v ∈ (f.head x).expand (f.tail x) ↔
      v ∈ f.before ++ f.after ∨ ∃ e ∈ f.endings, v = f.stem ++ spelled e := by
  obtain ⟨e, hmember⟩ := h.exists_mem_members
  have hstem : x ∉ f.stem := fun hmem =>
    hunused _ (h.mem_alternatives_iff.2 (Or.inr hmember)) (List.mem_append_left e hmem)
  have haround : ∀ w ∈ f.before ++ f.after,
      substitute x (f.tail x).alternatives w = [w] := fun w hw =>
    substitute_of_notMem (hunused w (h.mem_alternatives_iff.2 (Or.inl hw)))
  rw [NonTerminal.expand, symbol_tail_factoring, List.mem_flatMap]
  constructor
  · rintro ⟨w, hw, hv⟩
    rcases mem_head_cases hw with hw | rfl
    · rw [haround w hw, List.mem_singleton] at hv
      exact Or.inl (hv ▸ hw)
    · obtain ⟨body, hbody, rfl⟩ := (mem_substitute_append hstem).1 hv
      obtain ⟨e, he, rfl⟩ := mem_alternatives_tail_factoring.1 hbody
      exact Or.inr ⟨e, he, rfl⟩
  · rintro (hv | ⟨e, he, rfl⟩)
    · refine ⟨v, ?_, by rw [haround v hv]; exact List.mem_singleton_self v⟩
      rw [mem_alternatives_head_factoring]
      exact (List.mem_append.1 hv).imp_right Or.inr
    · have hending := mem_alternatives_tail_factoring (x := x).2 ⟨e, he, rfl⟩
      exact ⟨f.stem ++ [x], mem_alternatives_head_factoring.2 (Or.inr (Or.inl rfl)),
        (mem_substitute_append hstem).2 ⟨_, hending, rfl⟩⟩

/-- Putting the endings back gives the alternatives there were, epsilons aside. -/
theorem restored (h : f.Cuts n) (hunused : ∀ body ∈ n.alternatives, x ∉ body) :
    v ∈ ((f.head x).expand (f.tail x)).map withoutEpsilon ↔
      v ∈ n.alternatives.map withoutEpsilon := by
  have hspelled : ∀ e, withoutEpsilon (f.stem ++ spelled e) = withoutEpsilon (f.stem ++ e) := by
    intro e
    rw [withoutEpsilon_append, withoutEpsilon_append, withoutEpsilon_spelled]
  rw [List.mem_map, List.mem_map]
  constructor
  · rintro ⟨w, hw, rfl⟩
    rcases (h.mem_expand_iff hunused).1 hw with hw | ⟨e, he, rfl⟩
    · exact ⟨w, h.mem_alternatives_iff.2 (Or.inl hw), rfl⟩
    · exact ⟨_, h.mem_alternatives_iff.2 (Or.inr (List.mem_map_of_mem he)), (hspelled e).symm⟩
  · rintro ⟨w, hw, rfl⟩
    rcases h.mem_alternatives_iff.1 hw with hw | hw
    · exact ⟨w, (h.mem_expand_iff hunused).2 (Or.inl hw), rfl⟩
    · obtain ⟨e, he, rfl⟩ := List.mem_map.1 hw
      exact ⟨_, (h.mem_expand_iff hunused).2 (Or.inr ⟨e, he, rfl⟩), hspelled e⟩

end Cuts

end Factoring

namespace NonTerminal

variable {n : NonTerminal} {f : Factoring} {t u x : Symbol} {used : List Symbol}

/-- The stem of a factoring is the longest prefix of its members. -/
theorem isLongestPrefix_of_factoring? (h : n.factoring? = some f) :
    IsLongestPrefix f.stem f.members := by
  obtain ⟨g, hg, rfl⟩ := exists_grouping_of_factoring? h
  rw [members_of_group]
  exact isLongestPrefix_sharedPrefix (group_ne_nil_of_findGroup hg)

/-- No symbol that is shared is lower than the one with which the stem begins. -/
theorem le_of_factoring? (h : n.factoring? = some f) (hcuts : f.Cuts n)
    (ht : f.stem.head? = some t) (hu : n.Shares u) : t ≤ u := by
  obtain ⟨hself, v, hv, w, hw, hne, hvu, hwu⟩ := hu
  obtain ⟨e, hmember⟩ := hcuts.exists_mem_members
  have hhead := fun a ha => (hcuts.head?_of_mem_members (v := a) ha).trans ht
  obtain ⟨g, hg, rfl⟩ := exists_grouping_of_factoring? h
  rw [members_of_group] at hmember hhead
  have hsorted := sortWords_pairwise n.alternatives
  rw [← findGroup_append hg] at hsorted
  obtain ⟨hfront, -, hacross⟩ := List.pairwise_append.1 hsorted
  by_contra hlt
  -- alternatives that begin with a lower symbol stand in front of the group
  have hbefore : ∀ a ∈ n.alternatives, a.head? = some u → a ∈ g.before := by
    intro a ha hau
    have hmem : a ∈ g.before ++ g.group ++ g.after := by
      rw [findGroup_append hg]
      exact (sortWords_perm n.alternatives).mem_iff.2 ha
    rcases List.mem_append.1 hmem with hmem | hafter
    · refine (List.mem_append.1 hmem).resolve_right fun hgroup => hlt ?_
      obtain rfl : t = u := Option.some.inj ((hhead a hgroup).symm.trans hau)
      exact Char.le_refl t
    · have horder := hacross _ (List.mem_append_right _ hmember) a hafter
      exact absurd (head_le_of_notAfter horder (hhead _ hmember) hau) hlt
  have halike : beginAlike n.symbol v w = true := by
    rw [beginAlike_iff, hvu, hwu]
    exact ⟨rfl, fun heq => hself (Option.some.inj heq)⟩
  have hneighbours := hasNeighboursAlike_of_mem (List.pairwise_append.1 hfront).1
    (hbefore v hv hvu) (hbefore w hw hwu) hne halike
  rw [hasNeighboursAlike_before hg] at hneighbours
  cases hneighbours

/-- A factoring factors out the alternatives that begin with the least symbol that is shared. -/
theorem factorsInto_of_factoring? (hn : n.alternatives.Nodup) (h : n.factoring? = some f)
    (hunused : ∀ body ∈ n.alternatives, x ∉ body) :
    ∃ t, n.Shares t ∧ (∀ u, n.Shares u → t ≤ u) ∧
      n.FactorsInto t f.stem (f.head x) (f.tail x) := by
  have hcuts := cuts_of_factoring? hn h
  obtain ⟨t, ht, -⟩ := hcuts.stem
  refine ⟨t, hcuts.shares hn ht, fun u => le_of_factoring? h hcuts ht,
    symbol_head_factoring h x, ht, ?_, ?_, ?_, ?_, fun v => hcuts.restored hunused⟩
  · exact (isLongestPrefix_of_factoring? h).congr fun v => (hcuts.mem_members_iff ht).symm
  · rw [symbol_tail_factoring]
    exact fun v => hcuts.mem_head_iff ht
  · rw [symbol_tail_factoring]
    exact fun v hv hsame => hcuts.eq_of_head? hv (hsame.trans ht.symm)
  · exact fun v => hcuts.mem_tail_iff ht

/-- Factoring a non-terminal that lists no alternative twice splits it exactly if that is possible,
which is if two alternatives begin with a symbol other than its name; if not, its alternatives are
sorted. A split pulls out all alternatives that begin with the least of these symbols, with the
longest word that begins them all, leaves the others where they are, and loses nothing: putting the
endings back gives the alternatives there were, epsilons aside. -/
theorem outcome_of_factoringPlan (hn : n.alternatives.Nodup) (hused : n.CoveredBy used)
    (hsupply : Supply.outside used ≠ []) :
    ∃ r, (n.factoringPlan.carryOut n.symbol (Supply.outside used)).1 = .ok r ∧
      ((∃ head fresh, r = .split head fresh) ↔ n.isLeftFactorable = true) ∧
      (n.isLeftFactorable = true ↔ ∃ t, n.Shares t) ∧
      (∀ k, r = .single k → k.symbol = n.symbol ∧ k.alternatives.Perm n.alternatives) ∧
      ∀ head fresh, r = .split head fresh →
        isUppercase fresh.symbol = true ∧ fresh.symbol ∉ used ∧
        ∃ t stem, n.Shares t ∧ (∀ u, n.Shares u → t ≤ u) ∧ n.FactorsInto t stem head fresh := by
  have hshares := isLeftFactorable_iff_shares hn
  rw [← n.factoring?_isSome] at hshares ⊢
  rw [factoringPlan]
  cases hf : n.factoring? with
  | none =>
    rw [hf] at hshares
    refine ⟨.single n.sorted, rfl, by simp, hshares, ?_, by simp⟩
    rintro k ⟨rfl⟩
    exact ⟨rfl, sortWords_perm n.alternatives⟩
  | some f =>
    rw [hf] at hshares
    obtain ⟨x, rest, hdraw, hx⟩ := hused.exists_draw hsupply
    rw [hdraw]
    refine ⟨.split (f.head x) (f.tail x), rfl, by simp, hshares, by simp, ?_⟩
    rintro head fresh ⟨rfl, rfl⟩
    obtain ⟨t, ht, hleast, hinto⟩ := factorsInto_of_factoring? hn hf hx.notMem_body
    rw [symbol_tail_factoring]
    exact ⟨hx.uppercase, hx.notMem, t, f.stem, ht, hleast, hinto⟩

/-- In `S -> abd | ab | ab& | x | Sa | Sb` the endings `&` and nothing are spelled alike, and the two
alternatives that begin with the name stay apart. -/
theorem outcome_of_factoringPlan_of_overlap :
    ∃ n head fresh : NonTerminal,
      n = ⟨'S', [['a', 'b', 'd'], ['a', 'b'], ['a', 'b', '&'], ['x'], ['S', 'a'], ['S', 'b']]⟩ ∧
      (n.factoringPlan.carryOut n.symbol (Supply.outside ['S'])).1 = .ok (.split head fresh) ∧
      head = ⟨'S', [['S', 'a'], ['S', 'b'], ['a', 'b', 'A'], ['x']]⟩ ∧
      fresh = ⟨'A', [['&'], ['d']]⟩ ∧
      ∃ t stem, n.Shares t ∧ (∀ u, n.Shares u → t ≤ u) ∧ n.FactorsInto t stem head fresh := by
  have hcarry : ((NonTerminal.mk 'S' [['a', 'b', 'd'], ['a', 'b'], ['a', 'b', '&'], ['x'],
      ['S', 'a'], ['S', 'b']]).factoringPlan.carryOut 'S' (Supply.outside ['S'])).1 =
        .ok (.split ⟨'S', [['S', 'a'], ['S', 'b'], ['a', 'b', 'A'], ['x']]⟩
          ⟨'A', [['&'], ['d']]⟩) := rfl
  obtain ⟨r, hr, -, -, -, hsplit⟩ := outcome_of_factoringPlan
    (n := ⟨'S', [['a', 'b', 'd'], ['a', 'b'], ['a', 'b', '&'], ['x'], ['S', 'a'], ['S', 'b']]⟩)
    (by decide) (by decide +kernel : NonTerminal.CoveredBy _ ['S'])
    (by decide +kernel : Supply.outside ['S'] ≠ [])
  obtain rfl := Except.ok.inj (hr.symm.trans hcarry)
  obtain ⟨-, -, hinto⟩ := hsplit _ _ rfl
  exact ⟨_, _, _, rfl, hcarry, rfl, rfl, hinto⟩

end NonTerminal

end LL1
