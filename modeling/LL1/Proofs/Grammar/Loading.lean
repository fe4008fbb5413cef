/-
# What loading promises

A grammar that was loaded from lines or from a file is well-formed. The rules of the grammar are the
rules on the lines, and its symbols are their heads; the checks of the loader then give each of the
requirements.
-/
import LL1.Proofs.Grammar.WellFormed
import LL1.Proofs.Source.Loading

namespace LL1

/-! ## Readable rules -/

/-- Readable rules that define every upper-case symbol they use make a well-formed grammar. -/
theorem Grammar.wellFormed_ofRules {rules : List Rule} (hne : rules ≠ [])
    (hread : ∀ r ∈ rules, r.Readable)
    (hdef : ∀ r ∈ rules, ∀ s ∈ r.body, isUppercase s = true → ∃ q ∈ rules, q.head = s) :
    (ofRules rules).WellFormed where
  nonTerminals_ne_nil := by
    intro hnil
    obtain ⟨r, hr⟩ := List.exists_mem_of_ne_nil rules hne
    have hmem := mem_symbols_ofRules.2 ⟨r, hr, rfl⟩
    rw [symbols, hnil] at hmem
    cases hmem
  nodup := (nodup_symbols_ofRules rules).1
  each := by
    intro n hn
    have hrule : ∀ body ∈ n.alternatives, Rule.mk n.symbol body ∈ rules := fun body hbody =>
      mem_rules_ofRules.1 (mem_rules.2 ⟨n, hn, rfl, hbody⟩)
    obtain ⟨hsome, hnodup⟩ := (nodup_symbols_ofRules rules).2 n hn
    obtain ⟨body, hbody⟩ := List.exists_mem_of_ne_nil _ hsome
    exact {
      uppercase := (hread _ (hrule body hbody)).uppercase
      alternatives_ne_nil := hsome
      nodup := hnodup
      body_ne_nil := fun body hbody => (hread _ (hrule body hbody)).body_ne_nil
      defined := fun body hbody s hs hup =>
        mem_symbols_ofRules.2 (hdef _ (hrule body hbody) s hs hup)
      endMarker_notMem := fun body hbody => (hread _ (hrule body hbody)).endMarker_notMem }

/-! ## Loaded grammars -/

/-- A grammar that was loaded from the lines of a source is well-formed. -/
theorem wellFormed_of_loadLines {file : String} {lines : List (Option (List Char))} {g : Grammar}
    (h : loadLines file lines = .ok g) : g.WellFormed := by
  obtain ⟨rules, hsays, hne, hdef, rfl⟩ := exists_rules_of_loadLines h
  refine Grammar.wellFormed_ofRules (by simpa using hne) ?_ ?_
  · intro r hr
    obtain ⟨line, -, hrule⟩ := hsays.mem_rules_iff.1 (List.mem_map.1 hr)
    exact hrule.readable
  · intro r hr s hs hup
    obtain ⟨q, hq, rfl⟩ := List.mem_map.1 hr
    obtain ⟨p, hp, rfl⟩ := undefinedByHead_eq_nil_iff.1 hdef q hq s hs hup
    exact ⟨p.rule, List.mem_map_of_mem hp, rfl⟩

/-- A grammar that was built from lines in memory is well-formed. -/
theorem Grammar.wellFormed_of_ofLines {lines : List (List Char)} {g : Grammar}
    (h : ofLines lines = .ok g) : g.WellFormed :=
  wellFormed_of_loadLines h

/-- A grammar that was built from a file is well-formed. -/
theorem Grammar.wellFormed_of_ofFile {path : String} {contents : Except ReadFailure (List UInt8)}
    {g : Grammar} (h : ofFile path contents = .ok g) : g.WellFormed := by
  unfold ofFile at h
  split at h
  · cases h
  · exact wellFormed_of_loadLines h

end LL1
