/-
# Rewriting keeps the language

Every step of rewriting replaces one non-terminal in the middle of a well-formed grammar by
non-terminals that refine it, under symbols drawn from a supply of unused ones. Such a replacement
keeps the grammar well-formed, its start symbol, its terminal alphabet and what its symbols generate,
so the whole run keeps them.
-/
import LL1.Proofs.Rewriting.Kept
import LL1.Proofs.Rewriting.Step
import LL1.Proofs.Symbol.Supply
import LL1.Proofs.Grammar.Loading
import LL1.Rewriting.Elimination

namespace LL1

/-! ## Runs -/

/-- What a plan puts in the place of a non-terminal, with the fresh symbols it draws. -/
inductive NonTerminal.RewritesTo (n : NonTerminal) : List Symbol → List NonTerminal → Prop where
  /-- The non-terminal is settled. -/
  | settle {k : NonTerminal} {dropped : Nat} (h : n.plan = .settle k dropped) : RewritesTo n [] [k]
  /-- The non-terminal is divided. -/
  | divide {d : Division} (x : Symbol) (h : n.plan = .divide d) :
    RewritesTo n [x] [d.head x, d.tail x]

/-- A non-terminal is in front of a result only if the result was computed. -/
theorem result_push_eq_ok {n : NonTerminal} {e : Elimination} {out : List NonTerminal}
    (h : (e.push n).result = .ok out) : ∃ rest, e.result = .ok rest ∧ out = n :: rest := by
  obtain ⟨rest, hrest, rfl⟩ := exists_of_map_eq_ok h
  exact ⟨rest, hrest, rfl⟩

/-- A non-terminal is put in front of a failure only if the failure was met. -/
theorem result_push_eq_error {n : NonTerminal} {e : Elimination} {f : RewriteFailure}
    (h : (e.push n).result = .error f) : e.result = .error f :=
  eq_error_of_map_eq_error h

section Invariant

variable {I : Supply → List NonTerminal → Prop}
  (step : ∀ (fresh supply : Supply) (n : NonTerminal) (before ns after : List NonTerminal),
    n.RewritesTo fresh ns → I (fresh ++ supply) (before ++ n :: after) →
      I supply (before ++ ns ++ after))

include step

/-- What every step passes on, a run passes on: it holds of the result of a run that succeeds, and
where a run is refused it holds of the non-terminal that is refused and those before and after it. The
non-terminals before `pending` are done with. -/
theorem invariant_of_result {supply : Supply} {done pending : List NonTerminal}
    (hI : I supply (done ++ pending)) :
    (∀ out, (Elimination.run supply pending).result = .ok out →
      ∃ supply', I supply' (done ++ out)) ∧
    ∀ s, (Elimination.run supply pending).result = .error (.noBaseCase s) →
      ∃ supply' before n after, I supply' (before ++ n :: after) ∧ n.plan = .refuse ∧
        n.symbol = s := by
  induction supply, pending using Elimination.run.induct generalizing done with
  | case1 supply =>
    rw [Elimination.run]
    refine ⟨fun out h => ?_, fun s h => ?_⟩
    · cases h
      exact ⟨supply, hI⟩
    · cases h
  | case2 supply n rest ih =>
    rw [Elimination.run.eq_def]
    cases hplan : n.plan with
    | refuse =>
      simp only [hplan, Elimination.report]
      refine ⟨fun out h => ?_, fun s h => ?_⟩
      · cases h
      · cases h
        exact ⟨supply, done, n, rest, hI, hplan, rfl⟩
    | settle k dropped =>
      simp only [hplan, Elimination.report] at ih ⊢
      have hstep := step [] supply n done [k] rest (.settle hplan) hI
      -- the settled non-terminal is done with
      obtain ⟨hok, hrefused⟩ := ih hstep
      refine ⟨fun out h => ?_, fun s h => hrefused s (result_push_eq_error h)⟩
      obtain ⟨tail, htail, rfl⟩ := result_push_eq_ok h
      rw [← List.singleton_append, ← List.append_assoc]
      exact hok tail htail
    | divide d =>
      cases supply with
      | nil =>
        simp only [hplan, Elimination.report]
        refine ⟨fun out h => ?_, fun s h => ?_⟩
        · cases h
        · cases h
      | cons x supply =>
        simp only [hplan, Elimination.report] at ih ⊢
        -- both parts of a division are still to be looked at
        have hstep := step [x] supply n done [d.head x, d.tail x] rest (.divide x hplan) hI
        rw [List.append_assoc] at hstep
        exact ih hstep

/-- What every step passes on, a run that succeeds passes on. -/
theorem invariant_of_run {supply : Supply} (done : List NonTerminal) {pending out : List NonTerminal}
    (h : (Elimination.run supply pending).result = .ok out) (hI : I supply (done ++ pending)) :
    ∃ supply', I supply' (done ++ out) :=
  (invariant_of_result step hI).1 out h

/-- What every step passes on holds where a run is refused. -/
theorem invariant_of_refusal {supply : Supply} (done : List NonTerminal) {pending : List NonTerminal}
    {s : Symbol} (h : (Elimination.run supply pending).result = .error (.noBaseCase s))
    (hI : I supply (done ++ pending)) :
    ∃ supply' before n after, I supply' (before ++ n :: after) ∧ n.plan = .refuse ∧ n.symbol = s :=
  (invariant_of_result step hI).2 s h

end Invariant

/-! ## Replacing a non-terminal of a grammar -/

section Replacement

variable {before after ns : List NonTerminal} {n : NonTerminal} {fresh : List Symbol}

/-- A replacement adds the fresh symbols to the declared ones. -/
theorem mem_symbols_replaced (hr : n.RefinedBy fresh ns) {s : Symbol} :
    s ∈ (Grammar.mk (before ++ ns ++ after)).symbols ↔
      s ∈ (Grammar.mk (before ++ n :: after)).symbols ∨ s ∈ fresh := by
  simp only [Grammar.symbols, List.map_append, hr.symbols, List.mem_append, List.mem_cons,
    List.map_cons]
  grind

/-- Symbols that are upper case and not declared in a well-formed grammar are not used in it. -/
theorem unused_of_notMem_symbols {g : Grammar} (hg : g.WellFormed) {x : Symbol}
    (hup : isUppercase x = true) (hx : x ∉ g.symbols) : Unused x g.nonTerminals := by
  intro k hk
  refine ⟨fun heq => hx (heq ▸ List.mem_map_of_mem hk), fun body hbody hmem => hx ?_⟩
  exact (hg.each k hk).defined body hbody x hmem hup

/-- A non-terminal that fits in is well-formed if the old symbols and the fresh ones are declared. -/
theorem NonTerminal.Fits.wellFormed {k : NonTerminal} {declared more : List Symbol}
    (hk : n.Fits fresh k) (hn : n.WellFormed declared) (hsymbol : isUppercase k.symbol = true)
    (hup : ∀ x ∈ fresh, isUppercase x = true) (hmore : ∀ s, s ∈ declared ∨ s ∈ fresh → s ∈ more) :
    k.WellFormed more := by
  refine ⟨hsymbol, hk.alternatives_ne_nil, hk.nodup, hk.body_ne_nil, ?_, ?_⟩
  · intro body hbody s hs hups
    rcases hk.mentioned s ⟨body, hbody, hs⟩ with rfl | hfresh | ⟨v, hv, hsv⟩
    · exact absurd hups (by decide)
    · exact hmore s (Or.inr hfresh)
    · exact hmore s (Or.inl (hn.defined v hv s hsv hups))
  · intro body hbody hs
    rcases hk.mentioned endMarker ⟨body, hbody, hs⟩ with heq | hfresh | ⟨v, hv, hsv⟩
    · exact absurd heq (by decide)
    · exact absurd (hup _ hfresh) (by decide)
    · exact hn.endMarker_notMem v hv hsv

/-- A replacement under unused names keeps a grammar well-formed. -/
theorem wellFormed_replaced (hg : (Grammar.mk (before ++ n :: after)).WellFormed)
    (hr : n.RefinedBy fresh ns) (hup : ∀ x ∈ fresh, isUppercase x = true)
    (hnew : ∀ x ∈ fresh, x ∉ (Grammar.mk (before ++ n :: after)).symbols) (hnodup : fresh.Nodup) :
    (Grammar.mk (before ++ ns ++ after)).WellFormed := by
  have hmore : ∀ s, s ∈ (Grammar.mk (before ++ n :: after)).symbols ∨ s ∈ fresh →
      s ∈ (Grammar.mk (before ++ ns ++ after)).symbols := fun s => (mem_symbols_replaced hr).2
  have hn := hg.each n (by simp)
  refine ⟨?_, ?_, ?_⟩
  · have hne : ns ≠ [] := by
      rintro rfl
      have hsymbols := hr.symbols
      cases hsymbols
    simp [hne]
  · have hold := hg.nodup
    simp only [Grammar.symbols, List.map_append, List.map_cons, hr.symbols] at hold hnew ⊢
    simp only [List.nodup_append, List.nodup_cons, List.mem_append, List.mem_cons] at hold hnew ⊢
    grind
  · intro k hk
    rw [List.mem_append, List.mem_append] at hk
    have hother : k ∈ before ∨ k ∈ after → k.WellFormed (Grammar.mk (before ++ ns ++ after)).symbols :=
      fun h => (hg.each k (by simpa using h.imp_right Or.inr)).mono fun s hs => hmore s (Or.inl hs)
    rcases hk with (hk | hk) | hk
    · exact hother (Or.inl hk)
    · -- the names of the new non-terminals are the old one and the fresh ones
      have hsymbol : isUppercase k.symbol = true := by
        have hmem : k.symbol ∈ n.symbol :: fresh := hr.symbols ▸ List.mem_map_of_mem hk
        rcases List.mem_cons.1 hmem with heq | hfresh
        · rw [heq]
          exact hn.uppercase
        · exact hup _ hfresh
      exact (hr.fits k hk).wellFormed hn hsymbol hup hmore
    · exact hother (Or.inr hk)

/-- A grammar mentions the symbols that its non-terminals mention. -/
theorem mem_terminals_iff_mentions {g : Grammar} {t : Symbol} :
    t ∈ g.terminals ↔
      t = endMarker ∨ isTerminal t = true ∧ t ≠ epsilon ∧ ∃ k ∈ g.nonTerminals, k.Mentions t := by
  have hrules : (∃ r ∈ g.rules, t ∈ r.body) ↔ ∃ k ∈ g.nonTerminals, k.Mentions t := by
    constructor
    · rintro ⟨r, hr, ht⟩
      obtain ⟨k, hk, -, hbody⟩ := Grammar.mem_rules.1 hr
      exact ⟨k, hk, r.body, hbody, ht⟩
    · rintro ⟨k, hk, body, hbody, ht⟩
      exact ⟨⟨k.symbol, body⟩, Grammar.mem_rules.2 ⟨k, hk, rfl, hbody⟩, ht⟩
  rw [Grammar.mem_terminals, hrules]

/-- A refinement under upper-case names mentions the same terminals. -/
theorem NonTerminal.RefinedBy.mentions_iff (hr : n.RefinedBy fresh ns)
    (hn : isUppercase n.symbol = true) (hup : ∀ x ∈ fresh, isUppercase x = true) {t : Symbol}
    (ht : isTerminal t = true) (hne : t ≠ epsilon) :
    n.Mentions t ↔ ∃ k ∈ ns, k.Mentions t := by
  rw [isTerminal_iff] at ht
  constructor
  · intro h
    rcases hr.kept t h with heq | rfl | hkept
    · exact absurd heq hne
    · rw [hn] at ht
      cases ht
    · exact hkept
  · rintro ⟨k, hk, h⟩
    rcases (hr.fits k hk).mentioned t h with heq | hfresh | hmentions
    · exact absurd heq hne
    · rw [hup t hfresh] at ht
      cases ht
    · exact hmentions

/-- A replacement under upper-case names keeps the terminal alphabet. -/
theorem mem_terminals_replaced (hn : isUppercase n.symbol = true) (hr : n.RefinedBy fresh ns)
    (hup : ∀ x ∈ fresh, isUppercase x = true) {t : Symbol} :
    t ∈ (Grammar.mk (before ++ ns ++ after)).terminals ↔
      t ∈ (Grammar.mk (before ++ n :: after)).terminals := by
  rw [mem_terminals_iff_mentions, mem_terminals_iff_mentions]
  refine or_congr_right (and_congr_right fun ht => and_congr_right fun hne => ?_)
  have hiff := hr.mentions_iff hn hup ht hne
  constructor
  · rintro ⟨k, hk, h⟩
    simp only [List.mem_append] at hk
    rcases hk with (hk | hk) | hk
    · exact ⟨k, by simp [hk], h⟩
    · exact ⟨n, by simp, hiff.2 ⟨k, hk, h⟩⟩
    · exact ⟨k, by simp [hk], h⟩
  · rintro ⟨k, hk, h⟩
    simp only [List.mem_append, List.mem_cons] at hk
    rcases hk with hk | rfl | hk
    · exact ⟨k, by simp [hk], h⟩
    · obtain ⟨j, hj, hmentions⟩ := hiff.1 h
      exact ⟨j, by simp [hj], hmentions⟩
    · exact ⟨k, by simp [hk], h⟩

/-- No other non-terminal bears the symbol of one of them. -/
theorem symbol_ne_of_wellFormed (hg : (Grammar.mk (before ++ n :: after)).WellFormed) :
    ∀ k ∈ before ++ after, k.symbol ≠ n.symbol := by
  have hold := hg.nodup
  simp only [Grammar.symbols, List.map_append, List.map_cons] at hold
  simp only [List.nodup_append, List.nodup_cons, List.mem_cons] at hold
  intro k hk heq
  have hmem := List.mem_map_of_mem hk (f := NonTerminal.symbol)
  rw [List.map_append, List.mem_append] at hmem
  grind

/-- After a replacement there are the rules of the other non-terminals and those of the new ones. -/
theorem mem_rules_replaced (hg : (Grammar.mk (before ++ n :: after)).WellFormed) {r : Rule} :
    r ∈ (Grammar.mk (before ++ ns ++ after)).rules ↔
      r ∈ (Grammar.mk (before ++ n :: after)).rules ∧ r.head ≠ n.symbol ∨
        ∃ k ∈ ns, k.symbol = r.head ∧ r.body ∈ k.alternatives := by
  have hother := symbol_ne_of_wellFormed hg
  simp only [Grammar.mem_rules, List.mem_append, List.mem_cons] at hother ⊢
  constructor
  · rintro ⟨k, (hk | hk) | hk, hsymbol, hbody⟩
    · exact Or.inl ⟨⟨k, Or.inl hk, hsymbol, hbody⟩, hsymbol ▸ hother k (Or.inl hk)⟩
    · exact Or.inr ⟨k, hk, hsymbol, hbody⟩
    · exact Or.inl ⟨⟨k, Or.inr (Or.inr hk), hsymbol, hbody⟩, hsymbol ▸ hother k (Or.inr hk)⟩
  · rintro (⟨⟨k, hk | rfl | hk, hsymbol, hbody⟩, hne⟩ | ⟨k, hk, hsymbol, hbody⟩)
    · exact ⟨k, Or.inl (Or.inl hk), hsymbol, hbody⟩
    · exact absurd hsymbol.symm hne
    · exact ⟨k, Or.inr hk, hsymbol, hbody⟩
    · exact ⟨k, Or.inl (Or.inr hk), hsymbol, hbody⟩

/-- A replacement keeps the first symbol declared. -/
theorem start_replaced (hr : n.RefinedBy fresh ns) :
    (Grammar.mk (before ++ ns ++ after)).start = (Grammar.mk (before ++ n :: after)).start := by
  have hsymbols := hr.symbols
  cases before with
  | cons k before => rfl
  | nil =>
    cases ns with
    | nil => cases hsymbols
    | cons k ns => exact (List.cons.inj hsymbols).1

/-- A replacement under unused names keeps what the declared symbols generate. -/
theorem generates_replaced (hg : (Grammar.mk (before ++ n :: after)).WellFormed)
    (hr : n.RefinedBy fresh ns) (hup : ∀ x ∈ fresh, isUppercase x = true)
    (hnew : ∀ x ∈ fresh, x ∉ (Grammar.mk (before ++ n :: after)).symbols) (hnodup : fresh.Nodup)
    {s : Symbol} (hs : s ∈ (Grammar.mk (before ++ n :: after)).symbols) {w : Word} :
    (Grammar.mk (before ++ ns ++ after)).Generates s w ↔
      (Grammar.mk (before ++ n :: after)).Generates s w := by
  have hne : s ≠ epsilon := hg.ne_epsilon_of_declares (Grammar.declares_iff.2 hs)
  have hother := symbol_ne_of_wellFormed hg
  have hunused : ∀ x ∈ fresh, Unused x (before ++ n :: after) :=
    fun x hx => unused_of_notMem_symbols hg (hup x hx) (hnew x hx)
  have hsf : s ∉ fresh := fun hmem => hnew s hmem hs
  have hg' := wellFormed_replaced hg hr hup hnew hnodup
  rw [Grammar.generates_iff_leastMeaning hg' hne, Grammar.generates_iff_leastMeaning hg hne,
    hr.replaceable before after literalMeaning hother hunused s hsf]

end Replacement

/-! ## The whole rewriting -/

/-- What rewriting keeps of a grammar at every moment: the non-terminals make a well-formed grammar
with the same start symbol and terminals, the declared symbols generate what they did, and the supply
holds symbols that are upper case, unused and all different. -/
structure Grammar.RewrittenTo (g : Grammar) (supply : Supply) (ns : List NonTerminal) : Prop where
  /-- The grammar is well-formed. -/
  wellFormed : (Grammar.mk ns).WellFormed
  /-- The supply is upper case. -/
  uppercase : ∀ x ∈ supply, isUppercase x = true
  /-- The supply is unused. -/
  unused : ∀ x ∈ supply, x ∉ (Grammar.mk ns).symbols
  /-- No symbol is supplied twice. -/
  nodup : supply.Nodup
  /-- The start symbol is the same. -/
  start : (Grammar.mk ns).start = g.start
  /-- The terminal alphabet is the same. -/
  terminals : ∀ t, t ∈ (Grammar.mk ns).terminals ↔ t ∈ g.terminals
  /-- The declared symbols are still declared. -/
  declared : ∀ s ∈ g.symbols, s ∈ (Grammar.mk ns).symbols
  /-- The declared symbols generate the same strings. -/
  generates : ∀ s ∈ g.symbols, ∀ w, (Grammar.mk ns).Generates s w ↔ g.Generates s w

namespace Grammar

variable {g g' : Grammar}

/-- At first nothing has changed, whatever upper-case symbols that are not declared are supplied. -/
theorem rewrittenTo_of_supply (hg : g.WellFormed) {supply : Supply} (hnodup : supply.Nodup)
    (hsupply : ∀ x ∈ supply, isUppercase x = true ∧ x ∉ g.symbols) :
    g.RewrittenTo supply g.nonTerminals where
  wellFormed := hg
  uppercase := fun x hx => (hsupply x hx).1
  unused := fun x hx => (hsupply x hx).2
  nodup := hnodup
  start := rfl
  terminals := fun _ => Iff.rfl
  declared := fun _ hs => hs
  generates := fun _ _ _ => Iff.rfl

/-- At first nothing has changed. -/
theorem rewrittenTo_self (hg : g.WellFormed) : g.RewrittenTo g.supply g.nonTerminals :=
  rewrittenTo_of_supply hg (nodup_outside g.symbols)
    fun _ hx => ⟨isUppercase_of_mem_outside hx, (mem_outside.1 hx).2⟩

/-- What takes the place of a non-terminal refines it. -/
theorem refinedBy_of_rewritesTo {declared fresh : List Symbol} {n : NonTerminal}
    {ns : List NonTerminal} (hn : n.WellFormed declared) (hup : ∀ x ∈ fresh, isUppercase x = true)
    (h : n.RewritesTo fresh ns) : n.RefinedBy fresh ns := by
  have hs := ne_epsilon_of_isUppercase hn.uppercase
  cases h with
  | settle h => exact refinedBy_of_settle hn hs h
  | divide x h =>
    exact refinedBy_of_divide hn hs h (ne_epsilon_of_isUppercase (hup x List.mem_cons_self))

/-- What is supplied is not epsilon, and no non-terminal uses it. -/
theorem RewrittenTo.unused_of_mem {supply : Supply} {ns : List NonTerminal}
    (h : g.RewrittenTo supply ns) {x : Symbol} (hx : x ∈ supply) : x ≠ epsilon ∧ Unused x ns :=
  ⟨ne_epsilon_of_isUppercase (h.uppercase x hx),
    unused_of_notMem_symbols h.wellFormed (h.uppercase x hx) (h.unused x hx)⟩

/-- A step keeps it all. -/
theorem RewrittenTo.step {fresh supply : Supply} {n : NonTerminal}
    {before ns after : List NonTerminal} (hn : n.RewritesTo fresh ns)
    (h : g.RewrittenTo (fresh ++ supply) (before ++ n :: after)) :
    g.RewrittenTo supply (before ++ ns ++ after) := by
  have hwf := h.wellFormed.each n (by simp)
  have hup : ∀ x ∈ fresh, isUppercase x = true :=
    fun x hx => h.uppercase x (List.mem_append_left _ hx)
  have hnew : ∀ x ∈ fresh, x ∉ (Grammar.mk (before ++ n :: after)).symbols :=
    fun x hx => h.unused x (List.mem_append_left _ hx)
  obtain ⟨hfresh, hsupply, hdisjoint⟩ := List.nodup_append.1 h.nodup
  have hr := refinedBy_of_rewritesTo hwf hup hn
  refine ⟨wellFormed_replaced h.wellFormed hr hup hnew hfresh, ?_, ?_, hsupply, ?_, ?_, ?_, ?_⟩
  · exact fun x hx => h.uppercase x (List.mem_append_right _ hx)
  · intro x hx hmem
    rcases (mem_symbols_replaced hr).1 hmem with hold | hmem
    · exact h.unused x (List.mem_append_right _ hx) hold
    · exact hdisjoint x hmem x hx rfl
  · rw [start_replaced hr, h.start]
  · intro t
    rw [mem_terminals_replaced hwf.uppercase hr hup, h.terminals]
  · exact fun s hs => (mem_symbols_replaced hr).2 (Or.inl (h.declared s hs))
  · intro s hs w
    rw [generates_replaced h.wellFormed hr hup hnew hfresh (h.declared s hs), h.generates s hs]

/-- A rewriting that succeeds is a run that succeeds. -/
theorem run_of_eliminate (h : g.eliminate = .ok g') :
    (Elimination.run g.supply g.nonTerminals).result = .ok g'.nonTerminals := by
  obtain ⟨out, hout, rfl⟩ := exists_of_map_eq_ok h
  exact hout

/-- A rewriting that fails is a run that fails. -/
theorem failure_of_eliminate {f : RewriteFailure} (h : g.eliminate = .error f) :
    (Elimination.run g.supply g.nonTerminals).result = .error f :=
  eq_error_of_map_eq_error h

/-- A rewriting that succeeds keeps it all. -/
theorem rewrittenTo_of_eliminate (hg : g.WellFormed) (h : g.eliminate = .ok g') :
    ∃ supply, g.RewrittenTo supply g'.nonTerminals :=
  invariant_of_run (I := g.RewrittenTo) (fun _ _ _ _ _ _ hn hI => hI.step hn) []
    (run_of_eliminate h) (rewrittenTo_self hg)

/-- A rewritten grammar is well-formed. -/
theorem wellFormed_of_eliminate (hg : g.WellFormed) (h : g.eliminate = .ok g') : g'.WellFormed := by
  obtain ⟨supply, hr⟩ := rewrittenTo_of_eliminate hg h
  exact hr.wellFormed

/-- A rewritten grammar starts with the same symbol. -/
theorem start_of_eliminate (hg : g.WellFormed) (h : g.eliminate = .ok g') : g'.start = g.start := by
  obtain ⟨supply, hr⟩ := rewrittenTo_of_eliminate hg h
  exact hr.start

/-- Rewriting takes no non-terminal away. -/
theorem declared_of_eliminate (hg : g.WellFormed) (h : g.eliminate = .ok g') :
    ∀ s ∈ g.symbols, s ∈ g'.symbols := by
  obtain ⟨supply, hr⟩ := rewrittenTo_of_eliminate hg h
  exact hr.declared

/-- Symbols of a well-formed grammar generate the same strings after rewriting. -/
theorem generates_of_eliminate (hg : g.WellFormed) (h : g.eliminate = .ok g') {s : Symbol}
    (hs : s ∈ g.symbols) {w : Word} : g'.Generates s w ↔ g.Generates s w := by
  obtain ⟨supply, hr⟩ := rewrittenTo_of_eliminate hg h
  exact hr.generates s hs w

/-- A well-formed grammar is kept in what it is rewritten to. -/
theorem keptIn_of_eliminate (hg : g.WellFormed) (h : g.eliminate = .ok g') : g.KeptIn g' := by
  obtain ⟨supply, hr⟩ := rewrittenTo_of_eliminate hg h
  exact ⟨hr.declared, hr.generates⟩

/-- Words over the symbols of a well-formed grammar vanish after rewriting exactly if they did before. -/
theorem vanishes_of_eliminate (hg : g.WellFormed) (h : g.eliminate = .ok g') {w : Word}
    (hw : ∀ s ∈ w, isUppercase s = true → g.declares s = true) : g'.Vanishes w ↔ g.Vanishes w :=
  (keptIn_of_eliminate hg h).vanishes hg (wellFormed_of_eliminate hg h) hw

/-- Rewriting a loaded grammar keeps the language of every non-terminal, the start symbol and the
terminal alphabet. -/
theorem eliminate_preserves_language {lines : List (List Char)} (hload : ofLines lines = .ok g)
    (h : g.eliminate = .ok g') :
    (∀ s ∈ g.symbols, ∀ w, g'.Generates s w ↔ g.Generates s w) ∧ g'.start = g.start ∧
      ∀ t, t ∈ g'.terminals ↔ t ∈ g.terminals := by
  obtain ⟨supply, hr⟩ := rewrittenTo_of_eliminate (wellFormed_of_ofLines hload) h
  exact ⟨hr.generates, hr.start, hr.terminals⟩

/-- A computation that shows a value has succeeded with it. -/
theorem eq_ok_of_toOption {ε α : Type} {e : Except ε α} {a : α} (h : e.toOption = some a) :
    e = .ok a := by
  cases e with
  | error e => cases h
  | ok b => exact congrArg _ (Option.some.inj h)

/-- `S->Sa | b` becomes `S->bA` with `A->aA | &`. -/
theorem eliminate_preserves_language_of_left_recursive :
    ∃ g g' : Grammar, ofLines ["S->Sa".toList, "S->b".toList] = .ok g ∧ g.eliminate = .ok g' ∧
      g.symbols = ['S'] ∧ g'.symbols = ['S', 'A'] ∧
      (∀ s ∈ g.symbols, ∀ w, g'.Generates s w ↔ g.Generates s w) ∧ g'.start = g.start ∧
        ∀ t, t ∈ g'.terminals ↔ t ∈ g.terminals := by
  have hload : ofLines ["S->Sa".toList, "S->b".toList] =
      .ok ⟨[⟨'S', [['S', 'a'], ['b']]⟩]⟩ := rfl
  have h : (Grammar.mk [⟨'S', [['S', 'a'], ['b']]⟩]).eliminate =
      .ok ⟨[⟨'S', [['b', 'A']]⟩, ⟨'A', [['a', 'A'], ['&']]⟩]⟩ :=
    eq_ok_of_toOption (by decide +kernel)
  exact ⟨_, _, hload, h, rfl, rfl, eliminate_preserves_language hload h⟩

end Grammar

end LL1
