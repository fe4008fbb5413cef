/-
# Well-formed grammars

What the loader promises about a grammar and what every rewriting keeps: each non-terminal is an
upper-case symbol with at least one alternative, no symbol is declared twice, every upper-case symbol
in use is declared, no right-hand side is empty and none holds the end marker. In a well-formed
grammar a symbol of a right-hand side is either declared or a terminal.
-/
import LL1.Proofs.Language.Derivation

namespace LL1

/-- What is required of a non-terminal of a grammar that declares the given symbols. -/
structure NonTerminal.WellFormed (declared : List Symbol) (n : NonTerminal) : Prop where
  /-- Non-terminals are upper-case symbols. -/
  uppercase : isUppercase n.symbol = true
  /-- There is an alternative. -/
  alternatives_ne_nil : n.alternatives ≠ []
  /-- No alternative is listed twice. -/
  nodup : n.alternatives.Nodup
  /-- No alternative is empty. -/
  body_ne_nil : ∀ body ∈ n.alternatives, body ≠ []
  /-- Every upper-case symbol in use is declared. -/
  defined : ∀ body ∈ n.alternatives, ∀ s ∈ body, isUppercase s = true → s ∈ declared
  /-- The end marker is not used. -/
  endMarker_notMem : ∀ body ∈ n.alternatives, endMarker ∉ body

/-- What is required of a grammar. -/
structure Grammar.WellFormed (g : Grammar) : Prop where
  /-- There is a start symbol. -/
  nonTerminals_ne_nil : g.nonTerminals ≠ []
  /-- No symbol is declared twice. -/
  nodup : g.symbols.Nodup
  /-- Every non-terminal is well-formed. -/
  each : ∀ n ∈ g.nonTerminals, n.WellFormed g.symbols

/-- Declaring more symbols does no harm. -/
theorem NonTerminal.WellFormed.mono {declared more : List Symbol} {n : NonTerminal}
    (h : n.WellFormed declared) (hsub : ∀ s ∈ declared, s ∈ more) : n.WellFormed more :=
  { h with defined := fun body hbody s hs hup => hsub s (h.defined body hbody s hs hup) }

/-- A character is a terminal or an upper-case character, and not both. -/
theorem isTerminal_eq_false_iff {s : Symbol} : isTerminal s = false ↔ isUppercase s = true := by
  simp [isTerminal]

/-- Terminals are the characters that are not upper case. -/
theorem isTerminal_iff {s : Symbol} : isTerminal s = true ↔ isUppercase s = false := by
  simp [isTerminal]

/-- An upper-case character is not epsilon. -/
theorem ne_epsilon_of_isUppercase {s : Symbol} (hs : isUppercase s = true) : s ≠ epsilon := by
  rintro rfl
  exact absurd hs (by decide)

namespace Grammar

/-! ## The alphabet -/

/-- The terminal alphabet holds the end marker and the terminals of the right-hand sides other than
epsilon. -/
theorem mem_terminals {g : Grammar} {t : Symbol} :
    t ∈ g.terminals ↔
      t = endMarker ∨ isTerminal t = true ∧ t ≠ epsilon ∧ ∃ r ∈ g.rules, t ∈ r.body := by
  rw [terminals, SymbolSet.mem_insert, SymbolSet.mem_ofList, List.mem_filter, List.mem_flatMap]
  simp only [Bool.and_eq_true, bne_iff_ne, ne_eq]
  constructor
  · rintro (⟨hr, ht, hne⟩ | rfl)
    · exact Or.inr ⟨ht, hne, hr⟩
    · exact Or.inl rfl
  · rintro (rfl | ⟨ht, hne, hr⟩)
    · exact Or.inr rfl
    · exact Or.inl ⟨hr, ht, hne⟩

/-! ## Looking up non-terminals -/

/-- If no two non-terminals bear the same symbol, each is found under its own. -/
theorem find?_symbol_of_nodup {ns : List NonTerminal} (h : (ns.map NonTerminal.symbol).Nodup)
    {n : NonTerminal} (hn : n ∈ ns) : (ns.find? fun m => m.symbol == n.symbol) = some n := by
  induction ns with
  | nil => cases hn
  | cons m rest ih =>
    rw [List.map_cons, List.nodup_cons] at h
    rcases List.mem_cons.1 hn with rfl | hn
    · simp
    · have hne : m.symbol ≠ n.symbol := by
        intro heq
        exact h.1 (heq ▸ List.mem_map_of_mem hn)
      rw [List.find?_cons_of_neg (by simpa using hne)]
      exact ih h.2 hn

/-- A right-hand side is found at a position among the alternatives of the head. -/
theorem body?_eq_some_iff {g : Grammar} {id : RuleId} {body : Word} :
    g.body? id = some body ↔
      ∃ n, g.find? id.head = some n ∧ n.alternatives[id.index]? = some body := by
  unfold body?
  cases g.find? id.head <;> simp

/-- The right-hand side at a position belongs to a rule. -/
theorem mem_rules_of_body? {g : Grammar} {id : RuleId} {body : Word} (h : g.body? id = some body) :
    ⟨id.head, body⟩ ∈ g.rules := by
  obtain ⟨n, hfind, hbody⟩ := body?_eq_some_iff.1 h
  exact mem_rules.2 ⟨n, mem_of_find?_eq_some hfind, symbol_of_find?_eq_some hfind,
    List.mem_of_getElem? hbody⟩

namespace WellFormed

variable {g : Grammar}

/-! ## Symbols -/

/-- Declared symbols are upper case. -/
theorem isUppercase_of_declares (h : g.WellFormed) {s : Symbol} (hs : g.declares s = true) :
    isUppercase s = true := by
  obtain ⟨n, hn, rfl⟩ := List.mem_map.1 (declares_iff.1 hs)
  exact (h.each n hn).uppercase

/-- A terminal is not declared. -/
theorem declares_eq_false (h : g.WellFormed) {s : Symbol} (hs : isTerminal s = true) :
    g.declares s = false := by
  cases hd : g.declares s with
  | false => rfl
  | true =>
    rw [isTerminal_iff, h.isUppercase_of_declares hd] at hs
    cases hs

/-- Epsilon is not declared. -/
theorem declares_epsilon (h : g.WellFormed) : g.declares epsilon = false :=
  h.declares_eq_false isTerminal_epsilon

/-- The end marker is not declared. -/
theorem declares_endMarker (h : g.WellFormed) : g.declares endMarker = false :=
  h.declares_eq_false isTerminal_endMarker

/-- A declared symbol is not epsilon. -/
theorem ne_epsilon_of_declares (h : g.WellFormed) {s : Symbol} (hs : g.declares s = true) :
    s ≠ epsilon := by
  rintro rfl
  rw [h.declares_epsilon] at hs
  cases hs

/-- The start symbol is declared. -/
theorem declares_start (h : g.WellFormed) : g.declares g.start = true := by
  rw [declares_iff, symbols, start]
  have hne := h.nonTerminals_ne_nil
  cases hns : g.nonTerminals with
  | nil => exact absurd hns hne
  | cons n rest => exact List.mem_cons_self

/-! ## Non-terminals and rules -/

/-- A non-terminal of the grammar is found under its symbol. -/
theorem find?_of_mem (h : g.WellFormed) {n : NonTerminal} (hn : n ∈ g.nonTerminals) :
    g.find? n.symbol = some n :=
  find?_symbol_of_nodup h.nodup hn

/-- The rules are the alternatives of the non-terminals that are found under their heads. -/
theorem mem_rules_iff_find? (h : g.WellFormed) {r : Rule} :
    r ∈ g.rules ↔ ∃ n, g.find? r.head = some n ∧ r.body ∈ n.alternatives := by
  rw [mem_rules]
  constructor
  · rintro ⟨n, hn, hsymbol, hbody⟩
    exact ⟨n, hsymbol ▸ h.find?_of_mem hn, hbody⟩
  · rintro ⟨n, hfind, hbody⟩
    exact ⟨n, mem_of_find?_eq_some hfind, symbol_of_find?_eq_some hfind, hbody⟩

/-- The rules of a non-terminal are its alternatives. -/
theorem mem_alternatives_iff (h : g.WellFormed) {n : NonTerminal} (hn : n ∈ g.nonTerminals)
    {body : Word} : body ∈ n.alternatives ↔ Rule.mk n.symbol body ∈ g.rules := by
  rw [h.mem_rules_iff_find?, h.find?_of_mem hn]
  constructor
  · exact fun hbody => ⟨n, rfl, hbody⟩
  · rintro ⟨m, hm, hbody⟩
    exact Option.some.inj hm ▸ hbody

/-- Every rule is found at a position. -/
theorem exists_body? (h : g.WellFormed) {r : Rule} (hr : r ∈ g.rules) :
    ∃ i, g.body? ⟨r.head, i⟩ = some r.body := by
  obtain ⟨n, hfind, hmem⟩ := h.mem_rules_iff_find?.1 hr
  obtain ⟨i, hi⟩ := List.getElem?_of_mem hmem
  exact ⟨i, body?_eq_some_iff.2 ⟨n, hfind, hi⟩⟩

/-- A rule is found at one position only. -/
theorem eq_of_body? (h : g.WellFormed) {id id' : RuleId} (hhead : id.head = id'.head) {body : Word}
    (hbody : g.body? id = some body) (hbody' : g.body? id' = some body) : id = id' := by
  obtain ⟨s, i⟩ := id
  obtain ⟨s', j⟩ := id'
  obtain rfl : s = s' := hhead
  obtain ⟨n, hfind, hi⟩ := body?_eq_some_iff.1 hbody
  obtain ⟨n', hfind', hj⟩ := body?_eq_some_iff.1 hbody'
  obtain rfl := Option.some.inj (hfind.symm.trans hfind')
  have hnodup := (h.each n (mem_of_find?_eq_some hfind)).nodup
  obtain ⟨hlt, -⟩ := List.getElem?_eq_some_iff.1 hi
  obtain rfl : i = j := (List.getElem?_inj hlt hnodup).1 (hi.trans hj.symm)
  rfl

/-- No right-hand side is empty. -/
theorem body_ne_nil (h : g.WellFormed) {r : Rule} (hr : r ∈ g.rules) : r.body ≠ [] := by
  obtain ⟨n, hn, -, hbody⟩ := mem_rules.1 hr
  exact (h.each n hn).body_ne_nil _ hbody

/-- No right-hand side holds the end marker. -/
theorem endMarker_notMem (h : g.WellFormed) {r : Rule} (hr : r ∈ g.rules) :
    endMarker ∉ r.body := by
  obtain ⟨n, hn, -, hbody⟩ := mem_rules.1 hr
  exact (h.each n hn).endMarker_notMem _ hbody

/-- An upper-case symbol of a right-hand side is declared. -/
theorem declares_of_mem_body (h : g.WellFormed) {r : Rule} (hr : r ∈ g.rules) {s : Symbol}
    (hs : s ∈ r.body) (hup : isUppercase s = true) : g.declares s = true := by
  obtain ⟨n, hn, -, hbody⟩ := mem_rules.1 hr
  exact declares_iff.2 ((h.each n hn).defined _ hbody s hs hup)

/-- A symbol of a right-hand side that is not declared is a terminal. -/
theorem isTerminal_of_mem_body (h : g.WellFormed) {r : Rule} (hr : r ∈ g.rules) {s : Symbol}
    (hs : s ∈ r.body) (hd : g.declares s = false) : isTerminal s = true := by
  rw [isTerminal_iff]
  cases hup : isUppercase s with
  | false => rfl
  | true =>
    rw [h.declares_of_mem_body hr hs hup] at hd
    cases hd

/-- The terminal alphabet ends with the end marker, and in front of it stand the terminals of the
right-hand sides other than epsilon. -/
theorem exists_toList_terminals (h : g.WellFormed) :
    ∃ used, g.terminals.toList = used ++ [endMarker] ∧
      ∀ t, t ∈ used ↔ isTerminal t = true ∧ t ≠ epsilon ∧ ∃ r ∈ g.rules, t ∈ r.body := by
  let used := SymbolSet.ofList
    ((g.rules.flatMap Rule.body).filter fun s => isTerminal s && s != epsilon)
  have hmem : ∀ t, t ∈ used ↔ isTerminal t = true ∧ t ≠ epsilon ∧ ∃ r ∈ g.rules, t ∈ r.body := by
    intro t
    rw [SymbolSet.mem_ofList, List.mem_filter, List.mem_flatMap, Bool.and_eq_true, bne_iff_ne]
    exact ⟨fun ⟨hr, ht, hne⟩ => ⟨ht, hne, hr⟩, fun ⟨ht, hne, hr⟩ => ⟨hr, ht, hne⟩⟩
  have hmarker : endMarker ∉ used := by
    intro hused
    obtain ⟨-, -, r, hr, hbody⟩ := (hmem endMarker).1 hused
    exact h.endMarker_notMem hr hbody
  exact ⟨used.toList, SymbolSet.toList_insert_of_notMem hmarker, hmem⟩

/-- A terminal of a right-hand side other than epsilon belongs to the alphabet. -/
theorem mem_terminals_of_mem_body (h : g.WellFormed) {r : Rule} (hr : r ∈ g.rules) {s : Symbol}
    (hs : s ∈ r.body) (hd : g.declares s = false) (hne : s ≠ epsilon) : s ∈ g.terminals :=
  mem_terminals.2 (Or.inr ⟨h.isTerminal_of_mem_body hr hs hd, hne, r, hr, hs⟩)

end WellFormed

end Grammar

end LL1
