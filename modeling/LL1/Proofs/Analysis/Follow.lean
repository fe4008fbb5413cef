/-
# FOLLOW sets are exact

A right-hand side in which a non-terminal stands before a rest puts what can begin the rest behind the
non-terminal, and what follows the head as well if the rest can vanish. Every member of a FOLLOW set
is put there by such a step, and the settled sets are closed under all of them. What holds of the
right-hand sides then holds of every derived form, so the settled sets hold all that they should.
-/
import LL1.Analysis.Follow
import LL1.Proofs.Analysis.First

namespace LL1

namespace Grammar

variable {g : Grammar} {f : SetFamily} {m : Memo} {r : Rule} {s t : Symbol}

/-! ## What can stand behind a symbol -/

/-- What the FOLLOW set of a symbol should hold: the symbols other than non-terminals that can stand
right behind it, and the end marker if it can stand at the end. -/
def InFollow (g : Grammar) (s t : Symbol) : Prop :=
  t ≠ endMarker ∧ g.declares t = false ∧ g.Follows s t ∨ t = endMarker ∧ g.Ends s

/-- The head of a rule derives its right-hand side, cut around one of its symbols. -/
theorem derives_of_body_eq (hr : r ∈ g.rules) (hs : s ≠ epsilon) {pre rest : Word}
    (h : r.body = pre ++ s :: rest) :
    g.Derives [r.head] (withoutEpsilon pre ++ s :: withoutEpsilon rest) := by
  have hd := derives_of_mem_rules hr
  rwa [h, withoutEpsilon_append, withoutEpsilon_cons_of_ne hs] at hd

/-- What can begin the rest of a right-hand side can stand behind the symbol before it. -/
theorem inFollow_of_inFirst (hg : g.WellFormed) (hr : r ∈ g.rules) (hs : s ≠ epsilon)
    {pre rest : Word} (h : r.body = pre ++ s :: rest) (hne : t ≠ epsilon)
    (ht : g.InFirst rest t) : g.InFollow s t := by
  obtain ⟨-, hd, after, hafter⟩ := ht.resolve_right fun h => hne h.1
  have hhead := declares_of_mem_rules hr
  have hform : g.Derives [r.head] (withoutEpsilon pre ++ s :: t :: after) := by
    have hrest := hafter.surround (withoutEpsilon pre ++ [s]) []
    simp only [List.append_nil, List.append_assoc, List.singleton_append] at hrest
    exact (derives_of_body_eq hr hs h).trans hrest
  have hmem := mem_terminals_of_derives hg hhead hform (by simp) hd hne
  exact Or.inl ⟨hmem.2, hd, r.head, declares_iff.1 hhead, _, _, hform⟩

/-- If the rest of a right-hand side can vanish, what can stand behind the head can stand behind the
symbol before the rest. -/
theorem inFollow_of_vanishes (hr : r ∈ g.rules) (hs : s ≠ epsilon) {pre rest : Word}
    (h : r.body = pre ++ s :: rest) (hrest : g.Vanishes rest) (ht : g.InFollow r.head t) :
    g.InFollow s t := by
  have hhead : g.Derives [r.head] (withoutEpsilon pre ++ [s]) := by
    have hvanish := hrest.surround (withoutEpsilon pre ++ [s]) []
    simp only [List.append_nil, List.append_assoc, List.singleton_append] at hvanish
    exact (derives_of_body_eq hr hs h).trans hvanish
  rcases ht with ⟨hne, hd, a, ha, before, after, hform⟩ | ⟨rfl, before, hform⟩
  · refine Or.inl ⟨hne, hd, a, ha, before ++ withoutEpsilon pre, after, hform.trans ?_⟩
    simpa using hhead.surround before (t :: after)
  · refine Or.inr ⟨rfl, before ++ withoutEpsilon pre, hform.trans ?_⟩
    simpa using hhead.surround before []

/-! ## What a pass keeps -/

/-- What holds of the FOLLOW sets at every moment: the declared symbols are listed, the end marker
follows the start symbol, and every member is right. -/
structure FollowSound (g : Grammar) (st : SetState) : Prop where
  /-- Nullability can be asked about. -/
  ready : st.memo.Ready g
  /-- The declared symbols are listed. -/
  symbols : st.sets.symbols = g.symbols
  /-- The end marker follows the start symbol. -/
  seed : endMarker ∈ st.sets.get g.start
  /-- Every member is right. -/
  sound : ∀ s t, t ∈ st.sets.get s → g.InFollow s t

/-- At first the end marker follows the start symbol, and nothing else is known. -/
theorem followSound_seed (hg : g.WellFormed) (hm : m.Ready g) : g.FollowSound ⟨g.followSeed, m⟩ := by
  have hsymbols : (SetFamily.empty g.symbols).symbols = g.symbols := SetFamily.symbols_empty _
  have hstart : g.start ∈ (SetFamily.empty g.symbols).symbols := by
    rw [hsymbols, ← declares_iff]
    exact hg.declares_start
  refine ⟨hm, (SetFamily.symbols_extend _ _ _).trans hsymbols, ?_, fun s t ht => ?_⟩
  · exact (SetFamily.mem_get_extend hstart).2 (Or.inr ⟨rfl, List.mem_cons_self⟩)
  · rcases (SetFamily.mem_get_extend hstart).1 ht with hempty | ⟨rfl, hmarker⟩
    · rw [SetFamily.get_empty] at hempty
      exact absurd hempty (SymbolSet.notMem_empty t)
    · rw [List.mem_singleton] at hmarker
      exact Or.inr ⟨hmarker, [], .refl _⟩

/-- What a right-hand side puts behind a symbol that stands before a rest. -/
def Inherits (g : Grammar) (follow : SetFamily) (head : Symbol) (rest : Word) (t : Symbol) : Prop :=
  t ≠ epsilon ∧ g.InFirst rest t ∨ g.Vanishes rest ∧ t ∈ follow.get head

/-- Whether the symbols of a word have what they inherit in it from a head. -/
def HandsDown (g : Grammar) (f : SetFamily) (head : Symbol) (w : Word) : Prop :=
  ∀ before s rest, w = before ++ s :: rest → g.declares s = true → ∀ t,
    g.Inherits f head rest t → t ∈ f.get s

/-- A word hands down if its first symbol has what it inherits and the rest hands down. -/
theorem handsDown_cons {follow : SetFamily} {head : Symbol} {rest : Word}
    (hs : g.declares s = true → ∀ t, g.Inherits follow head rest t → t ∈ follow.get s)
    (h : g.HandsDown follow head rest) : g.HandsDown follow head (s :: rest) := by
  intro before u after hsplit hu t ht
  cases before with
  | nil =>
    obtain ⟨rfl, rfl⟩ := List.cons.inj hsplit
    exact hs hu t ht
  | cons v before =>
    obtain ⟨rfl, rfl⟩ := List.cons.inj hsplit
    exact h before u after rfl hu t ht

section Inheriting

variable {found : SymbolSet} {follow : SetFamily} {head : Symbol} {rest : Word}

/-- What a step adds to the set of a symbol, the symbol inherits. -/
theorem inherits_of_mem_added (hfound : ∀ t, t ∈ found ↔ g.InFirst rest t)
    (ht : t ∈ found.terminals ++
      (if epsilon ∈ found ∧ s ≠ head then (follow.get head).toList else [])) :
    g.Inherits follow head rest t := by
  rw [List.mem_append, mem_terminals_iff_ne] at ht
  rcases ht with ⟨ht, hne⟩ | ht
  · exact Or.inl ⟨hne, (hfound t).1 ht⟩
  · split at ht
    · next hcond =>
      have hrest := ((hfound epsilon).1 hcond.1).resolve_left fun h => h.1 rfl
      exact Or.inr ⟨hrest.2, ht⟩
    · cases ht

/-- What a symbol inherits is added by a step, unless the symbol is the head and has it already. -/
theorem mem_added_of_inherits (hfound : ∀ t, t ∈ found ↔ g.InFirst rest t)
    (ht : g.Inherits follow head rest t) :
    t ∈ found.terminals ++ (if epsilon ∈ found ∧ s ≠ head then (follow.get head).toList else []) ∨
      t ∈ follow.get s := by
  rw [List.mem_append, mem_terminals_iff_ne]
  rcases ht with ⟨hne, ht⟩ | ⟨hrest, ht⟩
  · exact Or.inl (Or.inl ⟨(hfound t).2 ht, hne⟩)
  · by_cases hs : s = head
    · subst hs
      exact Or.inr ht
    · rw [if_pos ⟨(hfound epsilon).2 (Or.inr ⟨rfl, hrest⟩), hs⟩]
      exact Or.inl (Or.inr ht)

/-- A symbol of a right-hand side can be given what it inherits. -/
theorem FollowSound.extend (hg : g.WellFormed) {st : SetState} (h : g.FollowSound st)
    (hr : r ∈ g.rules) (hs : s ∈ st.sets.symbols) {pre : Word} (hbody : r.body = pre ++ s :: rest)
    {members : List Symbol} (hmembers : ∀ t ∈ members, g.Inherits st.sets r.head rest t)
    (hm : m.Ready g) : g.FollowSound ⟨st.sets.extend s members, m⟩ := by
  have hne : s ≠ epsilon := hg.ne_epsilon_of_declares (declares_iff.2 (h.symbols ▸ hs))
  refine ⟨hm, (SetFamily.symbols_extend _ _ _).trans h.symbols, ?_, fun u t ht => ?_⟩
  · exact (SetFamily.mem_get_extend hs).2 (Or.inl h.seed)
  · rcases (SetFamily.mem_get_extend hs).1 ht with hold | ⟨rfl, hnew⟩
    · exact h.sound u t hold
    · rcases hmembers t hnew with ⟨hte, ht⟩ | ⟨hrest, ht⟩
      · exact inFollow_of_inFirst hg hr hne hbody hte ht
      · exact inFollow_of_vanishes hr hne hbody hrest (h.sound _ t ht)

end Inheriting

/-- Going through the end of a right-hand side keeps the sets right and lets them grow, and if it
changes nothing then everything that the symbols inherit is there already. -/
theorem followSound_followWord (hg : g.WellFormed) (hf : g.ExactFirst f) (hr : r ∈ g.rules)
    (pre : Word) {w : Word} (hbody : r.body = pre ++ w) {st : SetState} (h : g.FollowSound st) :
    g.FollowSound (g.followWord f r.head w st) ∧
      st.sets.Below (g.followWord f r.head w st).sets ∧
      ((g.followWord f r.head w st).sets = st.sets → g.HandsDown st.sets r.head w) := by
  induction w generalizing pre st with
  | nil =>
    refine ⟨h, .refl _, fun _ before s rest hnil => ?_⟩
    cases before <;> cases hnil
  | cons s rest ih =>
    have hnext : r.body = (pre ++ [s]) ++ rest := by
      rw [hbody, List.append_assoc, List.singleton_append]
    unfold followWord
    cases hd : g.declares s with
    | false =>
      rw [if_neg Bool.false_ne_true]
      obtain ⟨hsound, hbelow, hclosed⟩ := ih _ hnext h
      -- a symbol that is not declared inherits nothing
      refine ⟨hsound, hbelow, fun hfix => handsDown_cons (fun hu => ?_) (hclosed hfix)⟩
      rw [hd] at hu
      cases hu
    | true =>
      have hs : s ∈ st.sets.symbols := by
        rw [h.symbols]
        exact declares_iff.1 hd
      have hfound := fun t => mem_firstOfWord_iff (t := t) hg hf rest h.ready
      have hready := ready_firstOfWord hg f rest h.ready
      rw [if_pos rfl]
      dsimp only
      generalize g.firstOfWord f rest st.memo = result at hfound hready ⊢
      obtain ⟨found, memo⟩ := result
      have hstep := h.extend hg hr hs hbody (fun t => inherits_of_mem_added (s := s) hfound) hready
      have hgrow := SetFamily.below_extend hs (found.terminals ++
        (if epsilon ∈ found ∧ s ≠ r.head then (st.sets.get r.head).toList else []))
      obtain ⟨hsound, hbelow, hclosed⟩ := ih _ hnext hstep
      refine ⟨hsound, hgrow.trans hbelow, fun hfix => ?_⟩
      -- the sets after the first symbol lie between equal ones
      have hsame : st.sets.extend s (found.terminals ++
          (if epsilon ∈ found ∧ s ≠ r.head then (st.sets.get r.head).toList else [])) = st.sets := by
        rw [hfix] at hbelow
        exact hbelow.antisymm hgrow
      refine handsDown_cons (fun _ t ht => ?_) ?_
      · rcases mem_added_of_inherits (s := s) hfound ht with hnew | hold
        · rw [← hsame]
          exact (SetFamily.mem_get_extend hs).2 (Or.inr ⟨rfl, hnew⟩)
        · exact hold
      · dsimp only at hclosed
        rw [hsame] at hclosed hfix
        exact hclosed hfix

/-- A pass keeps the sets right and lets them grow. -/
theorem followSound_followPass (hg : g.WellFormed) (hf : g.ExactFirst f) {st : SetState}
    (h : g.FollowSound st) :
    g.FollowSound (g.followPass f st) ∧ st.sets.Below (g.followPass f st).sets := by
  refine below_foldl (fun st r hr hst => ?_) h
  obtain ⟨hsound, hbelow, -⟩ := followSound_followWord hg hf hr [] rfl hst
  exact ⟨hsound, hbelow⟩

/-! ## The bound -/

/-- FOLLOW sets stay within the terminals. -/
theorem mem_terminals_of_inFollow (hg : g.WellFormed) (h : g.InFollow s t) : t ∈ g.terminals := by
  rcases h with ⟨-, hd, a, ha, before, after, hform⟩ | ⟨rfl, -⟩
  · have hdeclared := declares_iff.2 ha
    have hne : t ≠ epsilon := by
      rintro rfl
      exact epsilon_notMem_of_declares hg hdeclared hform (by simp)
    exact (mem_terminals_of_derives hg hdeclared hform (by simp) hd hne).1
  · exact mem_terminals.2 (Or.inl rfl)

/-- FOLLOW sets have no more members than passes are allowed. -/
theorem FollowSound.size_le (hg : g.WellFormed) {st : SetState} (h : g.FollowSound st) :
    st.sets.size ≤ g.nonTerminals.length * g.terminals.size := by
  have hnodup : st.sets.symbols.Nodup := h.symbols ▸ hg.nodup
  have hsize := SetFamily.size_le hnodup fun s t ht =>
    mem_terminals_of_inFollow hg (h.sound s t ht)
  rw [h.symbols, Grammar.symbols, List.length_map] at hsize
  exact hsize

/-! ## The settled sets -/

/-- Whether the sets of a family are right and closed under the right-hand sides. -/
structure FollowClosed (g : Grammar) (f : SetFamily) : Prop where
  /-- The end marker follows the start symbol. -/
  seed : endMarker ∈ f.get g.start
  /-- Every member is right. -/
  sound : ∀ s t, t ∈ f.get s → g.InFollow s t
  /-- The symbols of right-hand sides have what they inherit. -/
  closed : ∀ r ∈ g.rules, g.HandsDown f r.head r.body

/-- The passes over the rules end with closed FOLLOW sets. -/
theorem followClosed_followSets (hg : g.WellFormed) (hf : g.ExactFirst f) (hm : m.Ready g) :
    (g.followSets f m).state.memo.Ready g ∧ g.FollowClosed (g.followSets f m).state.sets := by
  obtain ⟨st, hst, hfix, hstate⟩ := exists_settled_sets (I := g.FollowSound)
    (fun st hst => followSound_followPass hg hf hst) (fun st hst => hst.size_le hg)
    (followSound_seed hg hm)
  have hpass := (followSound_followPass hg hf hst).1
  rw [followSets, passLimit, hstate]
  refine ⟨hpass.ready, hpass.seed, hpass.sound, fun r hr => ?_⟩
  have hstep : ∀ st, ∀ r ∈ g.rules, g.FollowSound st →
      g.FollowSound (g.followWord f r.head r.body st) ∧
        st.sets.Below (g.followWord f r.head r.body st).sets := by
    intro st r hr hst
    obtain ⟨hsound, hbelow, -⟩ := followSound_followWord hg hf hr [] rfl hst
    exact ⟨hsound, hbelow⟩
  -- the step for this rule was made and changed nothing
  obtain ⟨st', hst', hsame, hword⟩ := unchanged_of_foldl hstep hst hfix r hr
  rw [hfix]
  rw [← hsame] at hword ⊢
  obtain ⟨-, -, hclosed⟩ := followSound_followWord hg hf hr [] rfl hst'
  exact hclosed hword

/-- The passes stop by themselves, after no more than one for each symbol that a set can gain and
one that gains nothing. -/
theorem settles_followSets (hg : g.WellFormed) (hf : g.ExactFirst f) (hm : m.Ready g) :
    Settles SetState.sameSets (g.followPass f) ⟨g.followSeed, m⟩ (g.followSets f m) ∧
      (g.followSets f m).passes ≤ g.nonTerminals.length * g.terminals.size + 1 :=
  settles_untilSettled_sets (I := g.FollowSound) (fun _ hst => followSound_followPass hg hf hst)
    (fun _ hst => hst.size_le hg) (followSound_seed hg hm)

/-! ## The closed sets are complete

What closed sets pass on through right-hand sides they pass on through all forms that a non-terminal
derives, since each replacement puts a right-hand side in the place of its head.
-/

section Complete

variable {f : SetFamily} {head : Symbol} {v w : Word}

/-- Epsilons make no difference to what is inherited. -/
theorem inherits_withoutEpsilon : g.Inherits f head (withoutEpsilon w) t ↔ g.Inherits f head w t := by
  unfold Inherits InFirst Begins
  rw [withoutEpsilon_idem, vanishes_withoutEpsilon]

/-- A word passes on what any form passes on that is derived from it. -/
theorem Inherits.of_derives (h : g.Inherits f head w t)
    (hd : g.Derives (withoutEpsilon v) (withoutEpsilon w)) : g.Inherits f head v t := by
  rcases h with ⟨hne, hfirst⟩ | ⟨hvanishes, ht⟩
  · obtain ⟨-, hdeclared, rest, hrest⟩ := hfirst.resolve_right fun h => hne h.1
    exact Or.inl ⟨hne, Or.inl ⟨hne, hdeclared, rest, hd.trans hrest⟩⟩
  · exact Or.inr ⟨hd.trans hvanishes, ht⟩

/-- What a concatenation passes on begins its first part, or that part vanishes and the second part
passes it on. -/
theorem Inherits.of_append (h : g.Inherits f head (v ++ w) t) :
    t ≠ epsilon ∧ g.InFirst v t ∨ g.Vanishes v ∧ g.Inherits f head w t := by
  rcases h with ⟨hne, hfirst⟩ | ⟨hvanishes, ht⟩
  · obtain ⟨-, hdeclared, rest, hrest⟩ := hfirst.resolve_right fun h => hne h.1
    rw [withoutEpsilon_append] at hrest
    obtain ⟨x, y, hxy, hx, hy⟩ := hrest.of_append
    cases x with
    | nil =>
      refine Or.inr ⟨hx, Or.inl ⟨hne, Or.inl ⟨hne, hdeclared, rest, ?_⟩⟩⟩
      rwa [hxy]
    | cons u x =>
      obtain ⟨rfl, rfl⟩ := List.cons.inj hxy
      exact Or.inl ⟨hne, Or.inl ⟨hne, hdeclared, x, hx⟩⟩
  · obtain ⟨hv, hw⟩ := vanishes_append.1 hvanishes
    exact Or.inr ⟨hv, Or.inr ⟨hw, ht⟩⟩

/-- A word hands down to the symbols it holds among epsilons. -/
theorem handsDown_withoutEpsilon (h : g.HandsDown f head w) :
    g.HandsDown f head (withoutEpsilon w) := by
  intro before s rest hsplit hs t ht
  obtain ⟨before', w', hw, -, hw'⟩ := List.filter_eq_append_iff.1 hsplit
  obtain ⟨skipped, rest', rfl, -, -, hrest⟩ := List.filter_eq_cons_iff.1 hw'
  refine h (before' ++ skipped) s rest' ?_ hs t ?_
  · rw [hw, List.append_assoc]
  · rw [← inherits_withoutEpsilon]
    rwa [← hrest] at ht

/-- A replacement keeps what a form hands down, if its right-hand side hands down what the replaced
symbol has. -/
theorem HandsDown.replace (hg : g.WellFormed) {before after : Word} (hr : r ∈ g.rules)
    (h : g.HandsDown f head (before ++ r.head :: after)) (hbody : g.HandsDown f r.head r.body) :
    g.HandsDown f head (before ++ withoutEpsilon r.body ++ after) := by
  have hdeclared := declares_of_mem_rules hr
  have hne : r.head ≠ epsilon := hg.ne_epsilon_of_declares hdeclared
  intro before' s rest hsplit hs t ht
  rcases append_eq_append_cons hsplit with ⟨behind, hfirst, rfl⟩ | ⟨gap, rfl, rfl⟩
  · rcases append_eq_append_cons hfirst with ⟨behind, rfl, rfl⟩ | ⟨gap, rfl, hbodysplit⟩
    · -- the symbol stands before the right-hand side
      refine h before' s (behind ++ r.head :: after) (by simp) hs t (ht.of_derives ?_)
      have hform := (derives_of_mem_rules hr).surround (withoutEpsilon behind)
        (withoutEpsilon after)
      simpa [withoutEpsilon_append, withoutEpsilon_idem, withoutEpsilon_cons_of_ne hne] using hform
    · -- the symbol stands in the right-hand side
      apply handsDown_withoutEpsilon hbody gap s behind hbodysplit hs t
      rcases ht.of_append with hbegins | ⟨hvanishes, hafter⟩
      · exact Or.inl hbegins
      · exact Or.inr ⟨hvanishes, h before r.head after rfl hdeclared t hafter⟩
  · -- the symbol stands behind the right-hand side
    exact h (before ++ r.head :: gap) s rest (by simp) hs t ht

/-- Closed sets hand down in every form that a non-terminal derives. -/
theorem FollowClosed.handsDown (hg : g.WellFormed) (hf : g.FollowClosed f)
    (h : g.Derives [head] w) : g.HandsDown f head w := by
  induction h with
  | refl =>
    intro before s rest hsplit hs t ht
    obtain ⟨rfl, hrest⟩ := List.append_eq_singleton_iff.1 hsplit.symm |>.resolve_right (by simp)
    obtain ⟨rfl, rfl⟩ := List.cons.inj hrest
    rcases ht with ⟨hne, hfirst⟩ | ⟨-, ht⟩
    · obtain ⟨-, -, rest, hnil⟩ := hfirst.resolve_right fun h => hne h.1
      -- nothing begins the empty rest behind the head
      have habsurd := hnil.eq_of_undeclared fun u hu => absurd hu List.not_mem_nil
      cases habsurd
    · exact ht
  | snoc _ last ih =>
    obtain ⟨before, after, r, hr, rfl, rfl⟩ := last.exists_rule
    exact ih.replace hg hr (hf.closed r hr)

/-- The FOLLOW set of a non-terminal holds everything it should. -/
theorem FollowClosed.mem_of_inFollow (hg : g.WellFormed) (hf : g.FollowClosed f)
    (hs : g.declares s = true) (h : g.InFollow s t) : t ∈ f.get s := by
  rcases h with ⟨-, hd, a, ha, before, after, hform⟩ | ⟨rfl, before, hform⟩
  · have hne : t ≠ epsilon := by
      rintro rfl
      exact epsilon_notMem_of_declares hg (declares_iff.2 ha) hform (by simp)
    refine hf.handsDown hg hform before s (t :: after) rfl hs t (Or.inl ⟨hne, Or.inl ⟨hne, hd, ?_⟩⟩)
    refine ⟨withoutEpsilon after, ?_⟩
    rw [withoutEpsilon_cons_of_ne hne]
    exact .refl _
  · exact hf.handsDown hg hform before s [] rfl hs endMarker (Or.inr ⟨vanishes_nil, hf.seed⟩)

/-- The FOLLOW set of a non-terminal holds what can follow it. -/
theorem FollowClosed.mem_iff (hg : g.WellFormed) (hf : g.FollowClosed f)
    (hs : g.declares s = true) : t ∈ f.get s ↔ g.InFollow s t :=
  ⟨hf.sound s t, hf.mem_of_inFollow hg hs⟩

end Complete

/-! ## Induction

What follows symbols is the least relation in which the end marker follows the start symbol and the
symbols of right-hand sides have what they inherit.
-/

section Induction

variable {P : Symbol → Symbol → Prop}

open Classical in
/-- The members of the FOLLOW sets that have a property. -/
noncomputable def followPart (g : Grammar) (P : Symbol → Symbol → Prop) : SetFamily :=
  ⟨g.symbols.map fun s =>
    (s, .ofList (g.terminals.toList.filter fun t => decide (P s t ∧ g.InFollow s t)))⟩

theorem symbols_followPart : (g.followPart P).symbols = g.symbols := by
  rw [followPart, SetFamily.symbols, List.map_map]
  exact List.map_id _

theorem mem_followPart (hg : g.WellFormed) (hs : g.declares s = true) :
    t ∈ (g.followPart P).get s ↔ P s t ∧ g.InFollow s t := by
  classical
  have hnodup : (g.followPart P).symbols.Nodup := symbols_followPart ▸ hg.nodup
  rw [SetFamily.get_of_mem_entries hnodup (List.mem_map_of_mem (declares_iff.1 hs)),
    SymbolSet.mem_ofList, List.mem_filter, decide_eq_true_iff]
  exact and_iff_right_of_imp fun h => mem_terminals_of_inFollow hg h.2

/-- What holds of the end marker and the start symbol, of a symbol and what can begin the rest behind
it, and of a symbol and what follows the head if the rest vanishes, holds of every symbol and what
follows it. -/
theorem inFollow_induction (hg : g.WellFormed) (seed : P g.start endMarker)
    (begins : ∀ r ∈ g.rules, ∀ pre s rest, r.body = pre ++ s :: rest → g.declares s = true →
      ∀ t, t ≠ epsilon → g.InFirst rest t → P s t)
    (ends : ∀ r ∈ g.rules, ∀ pre s rest, r.body = pre ++ s :: rest → g.declares s = true →
      g.Vanishes rest → ∀ t, P r.head t → P s t)
    (hs : g.declares s = true) (h : g.InFollow s t) : P s t := by
  have hmem := fun {s t} hs => mem_followPart (s := s) (t := t) (P := P) hg hs
  have hclosed : g.FollowClosed (g.followPart P) := by
    refine ⟨(hmem hg.declares_start).2 ⟨seed, Or.inr ⟨rfl, [], .refl _⟩⟩, fun s t ht => ?_, ?_⟩
    · have hs : s ∈ g.symbols := symbols_followPart ▸ SetFamily.mem_symbols_of_mem_get ht
      exact ((hmem (declares_iff.2 hs)).1 ht).2
    · intro r hr pre s rest hbody hs t ht
      have hne := hg.ne_epsilon_of_declares hs
      rw [hmem hs]
      rcases ht with ⟨hte, hfirst⟩ | ⟨hrest, ht⟩
      · exact ⟨begins r hr pre s rest hbody hs t hte hfirst,
          inFollow_of_inFirst hg hr hne hbody hte hfirst⟩
      · obtain ⟨hP, hfollow⟩ := (hmem (declares_of_mem_rules hr)).1 ht
        exact ⟨ends r hr pre s rest hbody hs hrest t hP,
          inFollow_of_vanishes hr hne hbody hrest hfollow⟩
  exact ((hmem hs).1 (hclosed.mem_of_inFollow hg hs h)).1

end Induction

end Grammar

end LL1
