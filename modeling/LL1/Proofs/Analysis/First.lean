/-
# FIRST sets are exact

A symbol leads a word if it can begin something behind a part of the word that vanishes. What the
sets offer is right after every step of a pass, because each step reads off symbols that lead a
right-hand side. When a pass changes nothing the sets are closed under the rules, and then every
replacement of a derivation can be undone without losing the symbol in front.
-/
import LL1.Proofs.Analysis.Growth
import LL1.Proofs.Analysis.Nullability

namespace LL1

namespace Grammar

variable {g : Grammar}

/-! ## Leading symbols -/

/-- Whether `t` is begun by a symbol of the word in front of which everything vanishes. -/
def Leads (g : Grammar) (begins : Symbol → Symbol → Prop) (w : Word) (t : Symbol) : Prop :=
  ∃ before s after, w = before ++ s :: after ∧ g.Vanishes before ∧ s ≠ epsilon ∧ begins s t

section Leading

variable {begins begins' : Symbol → Symbol → Prop} {s t : Symbol} {v w : Word}

theorem not_leads_nil : ¬ g.Leads begins [] t := by
  rintro ⟨before, s, after, h, -⟩
  cases before <;> cases h

/-- The first symbol leads a word, or it vanishes and the rest is led. -/
theorem leads_cons :
    g.Leads begins (s :: w) t ↔ s ≠ epsilon ∧ begins s t ∨ g.Vanishes [s] ∧ g.Leads begins w t := by
  constructor
  · rintro ⟨before, u, after, h, hvanishes, hu, ht⟩
    cases before with
    | nil =>
      obtain ⟨rfl, rfl⟩ := List.cons.inj h
      exact Or.inl ⟨hu, ht⟩
    | cons r before =>
      obtain ⟨rfl, rfl⟩ := List.cons.inj h
      obtain ⟨hs, hbefore⟩ := vanishes_cons.1 hvanishes
      exact Or.inr ⟨hs, before, u, after, rfl, hbefore, hu, ht⟩
  · rintro (⟨hs, ht⟩ | ⟨hs, before, u, after, rfl, hbefore, hu, ht⟩)
    · exact ⟨[], s, w, rfl, vanishes_nil, hs, ht⟩
    · exact ⟨s :: before, u, after, rfl, vanishes_cons.2 ⟨hs, hbefore⟩, hu, ht⟩

theorem leads_cons_epsilon : g.Leads begins (epsilon :: w) t ↔ g.Leads begins w t := by
  rw [leads_cons]
  simp [vanishes_epsilon]

/-- The first part leads a concatenation, or it vanishes and the second part leads. -/
theorem leads_append :
    g.Leads begins (v ++ w) t ↔ g.Leads begins v t ∨ g.Vanishes v ∧ g.Leads begins w t := by
  induction v with
  | nil => simp [not_leads_nil, vanishes_nil]
  | cons s v ih =>
    rw [List.cons_append, leads_cons, ih, leads_cons, vanishes_cons (w := v), and_or_left, or_assoc,
      and_assoc]

/-- Epsilons make no difference to what leads a word. -/
theorem leads_withoutEpsilon : g.Leads begins (withoutEpsilon w) t ↔ g.Leads begins w t := by
  induction w with
  | nil => exact Iff.rfl
  | cons s w ih =>
    by_cases hs : s = epsilon
    · subst hs
      rw [withoutEpsilon_cons_epsilon, ih, leads_cons_epsilon]
    · rw [withoutEpsilon_cons_of_ne hs, leads_cons, ih, ← leads_cons]

theorem Leads.mono (h : g.Leads begins w t) (hle : ∀ s ∈ w, begins s t → begins' s t) :
    g.Leads begins' w t := by
  obtain ⟨before, s, after, rfl, hbefore, hs, ht⟩ := h
  exact ⟨before, s, after, rfl, hbefore, hs, hle s (by simp) ht⟩

end Leading

/-! ## What can begin a form -/

/-- What FIRST of a word should hold: the symbols other than non-terminals that can begin a form
derived from it, and epsilon if all of it vanishes. -/
def InFirst (g : Grammar) (w : Word) (t : Symbol) : Prop :=
  t ≠ epsilon ∧ g.declares t = false ∧ g.Begins w t ∨ t = epsilon ∧ g.Vanishes w

/-- No form derived from a word holds an epsilon. -/
theorem epsilon_notMem_of_derives {v w : Word} (h : g.Derives (withoutEpsilon v) w) :
    epsilon ∉ w := by
  intro hmem
  refine h.forall_mem (P := fun s => s ≠ epsilon) ?_ ?_ epsilon hmem rfl
  · exact fun r _ s hs => (mem_withoutEpsilon.1 hs).2
  · exact fun s hs => (mem_withoutEpsilon.1 hs).2

/-- A symbol begins a form derived from a word if it begins one derived from a symbol that leads the
word. -/
theorem begins_of_leads {w : Word} {t : Symbol}
    (h : g.Leads (fun s u => g.Begins [s] u) w t) : g.Begins w t := by
  obtain ⟨before, s, after, rfl, hbefore, hs, rest, hrest⟩ := h
  refine ⟨rest ++ withoutEpsilon after, ?_⟩
  rw [withoutEpsilon_cons_of_ne hs] at hrest
  rw [withoutEpsilon_append, withoutEpsilon_cons_of_ne hs]
  have happ := hbefore.append (hrest.append (.refl (withoutEpsilon after)))
  simpa [withoutEpsilon] using happ

/-- The head of a rule begins what its right-hand side begins. -/
theorem begins_of_mem_rules {r : Rule} (hr : r ∈ g.rules) (hne : r.head ≠ epsilon) {t : Symbol}
    (h : g.Begins r.body t) : g.Begins [r.head] t := by
  obtain ⟨rest, hrest⟩ := h
  refine ⟨rest, ?_⟩
  rw [withoutEpsilon_cons_of_ne hne]
  exact (derives_of_mem_rules hr).trans hrest

/-- If what begins symbols is closed under the rules, it covers all derivations: a symbol in front of
a form leads the word that the form was derived from. -/
theorem leads_of_begins {begins : Symbol → Symbol → Prop} {t : Symbol}
    (hself : begins t t)
    (hclosed : ∀ r ∈ g.rules, g.Leads begins r.body t → r.head ≠ epsilon ∧ begins r.head t)
    {w : Word} (h : g.Begins w t) : g.Leads begins w t := by
  obtain ⟨rest, hrest⟩ := h
  have hne : t ≠ epsilon := by
    rintro rfl
    exact epsilon_notMem_of_derives hrest List.mem_cons_self
  -- the derivation is undone replacement by replacement
  refine leads_withoutEpsilon.1 (hrest.backward (P := fun v => g.Leads begins v t) ?_ ?_)
  · intro v v' hstep hv'
    obtain ⟨before, after, r, hr, rfl, rfl⟩ := hstep.exists_rule
    rw [leads_append, leads_append, leads_withoutEpsilon, vanishes_append,
      vanishes_withoutEpsilon] at hv'
    rw [leads_append, leads_cons]
    rcases hv' with (hv | ⟨hbefore, hbody⟩) | ⟨⟨hbefore, hbody⟩, hafter⟩
    · exact Or.inl hv
    · exact Or.inr ⟨hbefore, Or.inl (hclosed r hr hbody)⟩
    · exact Or.inr ⟨hbefore, Or.inr ⟨vanishes_of_mem_rules hr hbody, hafter⟩⟩
  · exact leads_cons.2 (Or.inl ⟨hne, hself⟩)

end Grammar

/-! ## FIRST of a word by given sets -/

/-- What a family offers to begin a symbol: the members of its set other than epsilon, or the symbol
itself if it is not declared. -/
def SetFamily.Offers (f : SetFamily) (g : Grammar) (s t : Symbol) : Prop :=
  if g.declares s = true then t ∈ f.get s ∧ t ≠ epsilon else t = s

namespace Grammar

variable {g : Grammar} {f : SetFamily} {m : Memo} {t : Symbol}

theorem mem_terminals_iff_ne {a : SymbolSet} : t ∈ a.terminals ↔ t ∈ a ∧ t ≠ epsilon :=
  mem_withoutEpsilon

/-- The walk over a word finds what leads it, and epsilon if the walk gets through. -/
theorem mem_addFirst (hg : g.WellFormed) (f : SetFamily) {w : Word} {found : SymbolSet}
    (hm : m.Ready g) :
    (t ∈ (g.addFirst f w found m).1 ↔
      t ∈ found ∨ g.Leads (f.Offers g) w t ∨ t = epsilon ∧ g.Vanishes w) ∧
      (g.addFirst f w found m).2.Ready g := by
  induction w generalizing found m with
  | nil =>
    refine ⟨?_, hm⟩
    rw [addFirst, SymbolSet.mem_insert]
    simp [not_leads_nil, vanishes_nil]
  | cons s rest ih =>
    unfold addFirst
    by_cases hs : s = epsilon
    · subst hs
      rw [if_pos rfl, leads_cons_epsilon, vanishes_cons (w := rest), and_iff_right vanishes_epsilon]
      exact ih hm
    · rw [if_neg hs, leads_cons, vanishes_cons (w := rest)]
      cases hfind : g.find? s with
      | none =>
        have hd : g.declares s = false := by rw [declares, hfind, Option.isSome_none]
        -- the walk ends at a symbol that is not declared
        have hnot : ¬ g.Vanishes [s] := not_vanishes_of_undeclared hs hd
        refine ⟨?_, hm⟩
        rw [SymbolSet.mem_insert]
        simp [SetFamily.Offers, hd, hs, hnot]
      | some n =>
        have hd : g.declares s = true := by rw [declares, hfind, Option.isSome_some]
        have hoffers : ∀ u, f.Offers g s u ↔ u ∈ f.get s ∧ u ≠ epsilon := fun u => by
          rw [SetFamily.Offers, if_pos hd]
        have h := answers_nullableHead hg (mem_of_find?_eq_some hfind) hm
        rw [symbol_of_find?_eq_some hfind] at h
        dsimp only
        generalize g.nullableHead n m = result at h ⊢
        obtain ⟨answer, after⟩ := result
        cases answer with
        | true =>
          -- the non-terminal vanishes and the walk goes on behind it
          have hv : g.Vanishes [s] := h.exact.1 rfl
          refine ⟨?_, (ih h.ready).2⟩
          rw [(ih h.ready).1, SymbolSet.mem_insertAll, mem_terminals_iff_ne, hoffers]
          simp only [hs, hv, ne_eq, not_false_eq_true, true_and]
          rw [or_assoc, or_assoc]
        | false =>
          -- the walk ends here
          have hv : ¬ g.Vanishes [s] := fun hv => absurd (h.exact.2 hv) Bool.false_ne_true
          refine ⟨?_, h.ready⟩
          rw [SymbolSet.mem_insertAll, mem_terminals_iff_ne, hoffers]
          simp [hs, hv]

/-- FIRST of a word by a family holds what leads the word, and epsilon if the word vanishes. -/
theorem mem_firstOfWord (hg : g.WellFormed) (f : SetFamily) (w : Word) (hm : m.Ready g) :
    t ∈ (g.firstOfWord f w m).1 ↔ g.Leads (f.Offers g) w t ∨ t = epsilon ∧ g.Vanishes w := by
  rw [firstOfWord, (mem_addFirst hg f hm).1]
  exact or_iff_right (SymbolSet.notMem_empty t)

/-- The memo is ready after a walk. -/
theorem ready_firstOfWord (hg : g.WellFormed) (f : SetFamily) (w : Word) (hm : m.Ready g) :
    (g.firstOfWord f w m).2.Ready g :=
  (mem_addFirst (t := epsilon) hg f hm).2

/-! ## What a pass keeps -/

/-- What holds of the FIRST sets at every moment: the declared symbols are listed, and every member is
right. -/
structure FirstSound (g : Grammar) (st : SetState) : Prop where
  /-- Nullability can be asked about. -/
  ready : st.memo.Ready g
  /-- The declared symbols are listed. -/
  symbols : st.sets.symbols = g.symbols
  /-- Every member is right. -/
  sound : ∀ s t, t ∈ st.sets.get s → g.InFirst [s] t

/-- What the sets let lead a word can begin a form derived from it. -/
theorem inFirst_of_leads (hf : ∀ s t, t ∈ f.get s → g.InFirst [s] t) {w : Word}
    (h : g.Leads (f.Offers g) w t) : g.InFirst w t := by
  have key : ∀ s, s ≠ epsilon → f.Offers g s t →
      t ≠ epsilon ∧ g.declares t = false ∧ g.Begins [s] t := by
    intro s hs hoffers
    unfold SetFamily.Offers at hoffers
    split at hoffers
    · exact (hf s t hoffers.1).resolve_right fun h => hoffers.2 h.1
    · next hd =>
      subst hoffers
      refine ⟨hs, Bool.eq_false_iff.2 hd, [], ?_⟩
      rw [withoutEpsilon_cons_of_ne hs]
      exact .refl _
  obtain ⟨before, s, after, rfl, hbefore, hs, hoffers⟩ := h
  obtain ⟨hne, hd, hbegins⟩ := key s hs hoffers
  exact Or.inl ⟨hne, hd, begins_of_leads ⟨before, s, after, rfl, hbefore, hs, hbegins⟩⟩

/-- A head inherits what its right-hand sides begin with. -/
theorem inFirst_of_mem_rules (hg : g.WellFormed) {r : Rule} (hr : r ∈ g.rules)
    (h : g.InFirst r.body t) : g.InFirst [r.head] t := by
  have hne : r.head ≠ epsilon := hg.ne_epsilon_of_declares (declares_of_mem_rules hr)
  rcases h with ⟨ht, hd, hbegins⟩ | ⟨ht, hvanishes⟩
  · exact Or.inl ⟨ht, hd, begins_of_mem_rules hr hne hbegins⟩
  · exact Or.inr ⟨ht, vanishes_of_mem_rules hr hvanishes⟩

/-- The head of a rule is listed. -/
theorem FirstSound.head_mem {st : SetState} (h : g.FirstSound st) {r : Rule} (hr : r ∈ g.rules) :
    r.head ∈ st.sets.symbols := by
  rw [h.symbols, ← declares_iff]
  exact declares_of_mem_rules hr

/-- A step for one rule keeps the sets right and lets them grow. -/
theorem firstSound_firstStep (hg : g.WellFormed) {st : SetState} {r : Rule} (hr : r ∈ g.rules)
    (h : g.FirstSound st) :
    g.FirstSound (g.firstStep st r) ∧ st.sets.Below (g.firstStep st r).sets := by
  have hhead := h.head_mem hr
  refine ⟨⟨ready_firstOfWord hg _ _ h.ready, ?_, ?_⟩, SetFamily.below_extend hhead _⟩
  · exact (SetFamily.symbols_extend _ _ _).trans h.symbols
  · intro s t ht
    rcases (SetFamily.mem_get_extend hhead).1 ht with hold | ⟨rfl, hnew⟩
    · exact h.sound s t hold
    · apply inFirst_of_mem_rules hg hr
      rcases (mem_firstOfWord hg _ _ h.ready).1 hnew with hleads | hvanishes
      · exact inFirst_of_leads h.sound hleads
      · exact Or.inr hvanishes

/-- A pass keeps the sets right and lets them grow. -/
theorem firstSound_firstPass (hg : g.WellFormed) {st : SetState} (h : g.FirstSound st) :
    g.FirstSound (g.firstPass st) ∧ st.sets.Below (g.firstPass st).sets :=
  below_foldl (fun _ _ hr hst => firstSound_firstStep hg hr hst) h

/-- At first the sets are empty. -/
theorem firstSound_empty (hm : m.Ready g) : g.FirstSound ⟨.empty g.symbols, m⟩ where
  ready := hm
  symbols := SetFamily.symbols_empty g.symbols
  sound := by
    intro s t ht
    rw [SetFamily.get_empty] at ht
    exact absurd ht (SymbolSet.notMem_empty t)

/-! ## The bound -/

/-- The symbols that FIRST sets may hold: the terminals with epsilon in the place of the end
marker. -/
def firstAlphabet (g : Grammar) : List Symbol :=
  epsilon :: g.terminals.toList.filter fun t => t != endMarker

theorem length_firstAlphabet (g : Grammar) : g.firstAlphabet.length ≤ g.terminals.size := by
  have hmem : endMarker ∈ g.terminals.toList := mem_terminals.2 (Or.inl rfl)
  have hlt : (g.terminals.toList.filter fun t => t != endMarker).length <
      g.terminals.toList.length :=
    List.length_filter_lt_length_iff_exists.2 ⟨endMarker, hmem, by decide⟩
  exact hlt

/-- A symbol of a form that a non-terminal derives comes from a right-hand side, or it is the
non-terminal itself. -/
theorem mem_body_of_derives {s u : Symbol} {w : Word} (h : g.Derives [s] w) (hu : u ∈ w) :
    u = s ∨ ∃ r ∈ g.rules, u ∈ r.body := by
  refine h.forall_mem (P := fun u => u = s ∨ ∃ r ∈ g.rules, u ∈ r.body) ?_ ?_ u hu
  · exact fun r hr u hu => Or.inr ⟨r, hr, (mem_withoutEpsilon.1 hu).1⟩
  · exact fun u hu => Or.inl (List.mem_singleton.1 hu)

/-- An undeclared symbol of a form that a non-terminal derives is a terminal of the alphabet, and not
the end marker. -/
theorem mem_terminals_of_derives (hg : g.WellFormed) {s u : Symbol} (hs : g.declares s = true)
    {w : Word} (h : g.Derives [s] w) (hu : u ∈ w) (hd : g.declares u = false) (hne : u ≠ epsilon) :
    u ∈ g.terminals ∧ u ≠ endMarker := by
  rcases mem_body_of_derives h hu with rfl | ⟨r, hr, hmem⟩
  · rw [hd] at hs
    cases hs
  · refine ⟨hg.mem_terminals_of_mem_body hr hmem hd hne, ?_⟩
    rintro rfl
    exact hg.endMarker_notMem hr hmem

/-- No form that a non-terminal derives holds an epsilon. -/
theorem epsilon_notMem_of_declares (hg : g.WellFormed) {s : Symbol} (hs : g.declares s = true)
    {w : Word} (h : g.Derives [s] w) : epsilon ∉ w := by
  refine epsilon_notMem_of_derives (g := g) (v := [s]) ?_
  rwa [withoutEpsilon_cons_of_ne (hg.ne_epsilon_of_declares hs)]

/-- FIRST of a non-terminal stays within the terminals other than the end marker, and epsilon. -/
theorem mem_firstAlphabet_of_inFirst (hg : g.WellFormed) {s : Symbol} (hs : g.declares s = true)
    (ht : g.InFirst [s] t) : t ∈ g.firstAlphabet := by
  rcases ht with ⟨hne, hd, rest, hrest⟩ | ⟨rfl, -⟩
  · rw [withoutEpsilon_cons_of_ne (hg.ne_epsilon_of_declares hs)] at hrest
    obtain ⟨hmem, hmarker⟩ := mem_terminals_of_derives hg hs hrest List.mem_cons_self hd hne
    exact List.mem_cons_of_mem _ (List.mem_filter.2 ⟨hmem, by simpa using hmarker⟩)
  · exact List.mem_cons_self

/-- FIRST sets stay within their alphabet. -/
theorem FirstSound.mem_firstAlphabet (hg : g.WellFormed) {st : SetState} (h : g.FirstSound st)
    {s : Symbol} (ht : t ∈ st.sets.get s) : t ∈ g.firstAlphabet := by
  have hs : g.declares s = true := by
    rw [declares_iff, ← h.symbols]
    exact SetFamily.mem_symbols_of_mem_get ht
  exact mem_firstAlphabet_of_inFirst hg hs (h.sound s t ht)

/-- FIRST sets have no more members than passes are allowed. -/
theorem FirstSound.size_le (hg : g.WellFormed) {st : SetState} (h : g.FirstSound st) :
    st.sets.size ≤ g.nonTerminals.length * g.terminals.size := by
  have hnodup : st.sets.symbols.Nodup := h.symbols ▸ hg.nodup
  have hsize := SetFamily.size_le hnodup fun s t ht => h.mem_firstAlphabet hg ht
  rw [h.symbols, Grammar.symbols, List.length_map] at hsize
  exact Nat.le_trans hsize (Nat.mul_le_mul_left _ (length_firstAlphabet g))

/-! ## The settled sets -/

/-- Whether the sets of a family are the FIRST sets of the grammar. -/
structure ExactFirst (g : Grammar) (f : SetFamily) : Prop where
  /-- The declared symbols are listed. -/
  symbols : f.symbols = g.symbols
  /-- Every set holds what it should. -/
  mem_iff : ∀ s ∈ g.symbols, ∀ t, t ∈ f.get s ↔ g.InFirst [s] t

/-- Whether the sets of a family are closed under the rules. -/
def FirstClosed (g : Grammar) (f : SetFamily) : Prop :=
  ∀ r ∈ g.rules, ∀ t, g.Leads (f.Offers g) r.body t ∨ t = epsilon ∧ g.Vanishes r.body →
    t ∈ f.get r.head

/-- Sets that a pass does not change are closed. -/
theorem firstClosed_of_unchanged (hg : g.WellFormed) {st : SetState} (h : g.FirstSound st)
    (hfix : (g.firstPass st).sets = st.sets) : g.FirstClosed st.sets := by
  intro r hr t ht
  -- the step for this rule was made and changed nothing
  obtain ⟨st', hst', hsame, hstep⟩ :=
    unchanged_of_foldl (fun _ _ hr hst => firstSound_firstStep hg hr hst) h hfix r hr
  rw [← hstep]
  refine (SetFamily.mem_get_extend (hst'.head_mem hr)).2 (Or.inr ⟨rfl, ?_⟩)
  apply (mem_firstOfWord hg _ _ hst'.ready).2
  rwa [hsame]

/-- Closed sets let lead a word whatever can begin a form derived from it. -/
theorem leads_offers_of_begins (hg : g.WellFormed) (hclosed : g.FirstClosed f)
    (hd : g.declares t = false) {w : Word} (hbegins : g.Begins w t) :
    g.Leads (f.Offers g) w t := by
  have hne : t ≠ epsilon := by
    rintro rfl
    obtain ⟨rest, hrest⟩ := hbegins
    exact epsilon_notMem_of_derives hrest List.mem_cons_self
  refine leads_of_begins ?_ ?_ hbegins
  · rw [SetFamily.Offers, hd, if_neg Bool.false_ne_true]
  · intro r hr hleads
    have hdeclared := declares_of_mem_rules hr
    refine ⟨hg.ne_epsilon_of_declares hdeclared, ?_⟩
    rw [SetFamily.Offers, if_pos hdeclared]
    exact ⟨hclosed r hr t (Or.inl hleads), hne⟩

/-- Closed sets hold everything they should. -/
theorem mem_of_inFirst (hg : g.WellFormed) (hclosed : g.FirstClosed f) {s : Symbol}
    (hs : g.declares s = true) (h : g.InFirst [s] t) : t ∈ f.get s := by
  have hne := hg.ne_epsilon_of_declares hs
  rcases h with ⟨-, hd, hbegins⟩ | ⟨rfl, hvanishes⟩
  · rcases leads_cons.1 (leads_offers_of_begins hg hclosed hd hbegins) with ⟨-, hoffers⟩ | ⟨-, hnil⟩
    · rw [SetFamily.Offers, if_pos hs] at hoffers
      exact hoffers.1
    · exact absurd hnil not_leads_nil
  · obtain ⟨r, hr, rfl, hbody⟩ := (vanishes_singleton_iff hne).1 hvanishes
    exact hclosed r hr epsilon (Or.inr ⟨rfl, hbody⟩)

/-- Right and closed sets are the FIRST sets. -/
theorem FirstSound.exactFirst (hg : g.WellFormed) {st : SetState} (h : g.FirstSound st)
    (hclosed : g.FirstClosed st.sets) : g.ExactFirst st.sets where
  symbols := h.symbols
  mem_iff := fun s hs t =>
    ⟨h.sound s t, fun ht => mem_of_inFirst hg hclosed (declares_iff.2 hs) ht⟩

/-- The passes over the rules end with the FIRST sets. -/
theorem exactFirst_firstSets (hg : g.WellFormed) (hm : m.Ready g) :
    (g.firstSets m).state.memo.Ready g ∧ g.ExactFirst (g.firstSets m).state.sets := by
  obtain ⟨st, hst, hfix, hstate⟩ := exists_settled_sets (I := g.FirstSound)
    (fun st hst => firstSound_firstPass hg hst) (fun st hst => hst.size_le hg) (firstSound_empty hm)
  have hclosed := firstClosed_of_unchanged hg hst hfix
  rw [firstSets, passLimit, hstate]
  refine ⟨(firstSound_firstPass hg hst).1.ready, ?_⟩
  rw [hfix]
  exact hst.exactFirst hg hclosed

/-- The passes stop by themselves, after no more than one for each symbol that a set can gain and
one that gains nothing. -/
theorem settles_firstSets (hg : g.WellFormed) (hm : m.Ready g) :
    Settles SetState.sameSets g.firstPass ⟨.empty g.symbols, m⟩ (g.firstSets m) ∧
      (g.firstSets m).passes ≤ g.nonTerminals.length * g.terminals.size + 1 :=
  settles_untilSettled_sets (I := g.FirstSound) (fun _ hst => firstSound_firstPass hg hst)
    (fun _ hst => hst.size_le hg) (firstSound_empty hm)

/-- The FIRST sets of a grammar hold nothing wrong. -/
theorem ExactFirst.sound (hf : g.ExactFirst f) : ∀ s t, t ∈ f.get s → g.InFirst [s] t := by
  intro s t ht
  have hs : s ∈ g.symbols := hf.symbols ▸ SetFamily.mem_symbols_of_mem_get ht
  exact (hf.mem_iff s hs t).1 ht

/-- The FIRST sets of a grammar stay within the terminals other than the end marker, and epsilon. -/
theorem ExactFirst.mem_firstAlphabet (hg : g.WellFormed) (hf : g.ExactFirst f) {s : Symbol}
    (ht : t ∈ f.get s) : t ∈ g.firstAlphabet := by
  have hs : s ∈ g.symbols := hf.symbols ▸ SetFamily.mem_symbols_of_mem_get ht
  exact mem_firstAlphabet_of_inFirst hg (declares_iff.2 hs) (hf.sound s t ht)

/-- The FIRST sets of a grammar are closed. -/
theorem ExactFirst.closed (hg : g.WellFormed) (hf : g.ExactFirst f) : g.FirstClosed f := by
  intro r hr t ht
  apply (hf.mem_iff _ (declares_iff.1 (declares_of_mem_rules hr)) t).2
  apply inFirst_of_mem_rules hg hr
  rcases ht with hleads | hvanishes
  · exact inFirst_of_leads hf.sound hleads
  · exact Or.inr hvanishes

/-- By the FIRST sets of the grammar, FIRST of a word is what it should be. -/
theorem mem_firstOfWord_iff (hg : g.WellFormed) (hf : g.ExactFirst f) (w : Word) (hm : m.Ready g) :
    t ∈ (g.firstOfWord f w m).1 ↔ g.InFirst w t := by
  rw [mem_firstOfWord hg f w hm]
  constructor
  · rintro (hleads | hvanishes)
    · exact inFirst_of_leads hf.sound hleads
    · exact Or.inr hvanishes
  · rintro (⟨-, hd, hbegins⟩ | hvanishes)
    · exact Or.inl (leads_offers_of_begins hg (hf.closed hg) hd hbegins)
    · exact Or.inr hvanishes

end Grammar

end LL1
