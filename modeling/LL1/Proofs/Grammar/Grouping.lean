/-
# Rules gathered by their heads

A grammar is built by adding rules one by one. What comes out is described here at once: the heads
in order of their first appearance, each with its distinct right-hand sides in the order of the
rules. Everything else about the grammar of a list of rules is read off this description.
-/
import Mathlib.Data.List.Basic
import Mathlib.Data.List.Induction
import LL1.Grammar.Basic

namespace LL1

/-! ## First occurrences -/

section FirstOccurrences

variable {α : Type} [BEq α] [LawfulBEq α]

/-- A member at the end of a list is a first occurrence only if it is new. -/
theorem eraseDups_concat (l : List α) (a : α) :
    (l ++ [a]).eraseDups = if a ∈ l then l.eraseDups else l.eraseDups ++ [a] := by
  rw [List.eraseDups_append]
  split
  · next hmem => simp [List.removeAll, hmem]
  · next hnew => simp [List.removeAll, hnew, List.eraseDups_cons]

/-- No first occurrence is listed twice. -/
theorem nodup_eraseDups (l : List α) : l.eraseDups.Nodup := by
  induction l using List.reverseRecOn with
  | nil => exact List.nodup_nil
  | append_singleton l a ih =>
    rw [eraseDups_concat]
    split
    · exact ih
    · next hnew =>
      refine List.nodup_append.2 ⟨ih, by simp, ?_⟩
      intro b hb c hc heq
      rw [List.mem_singleton] at hc
      exact hnew (hc ▸ heq ▸ List.mem_eraseDups.1 hb)

/-- Sorting the members of a list by a key loses none of them and repeats none of them. -/
theorem flatMap_filter_perm {β : Type} (key : β → α) {keys : List α} {l : List β}
    (hnodup : keys.Nodup) (hkeys : ∀ b ∈ l, key b ∈ keys) :
    (keys.flatMap fun k => l.filter fun b => key b == k).Perm l := by
  induction keys generalizing l with
  | nil =>
    obtain rfl : l = [] := List.eq_nil_iff_forall_not_mem.2 fun b hb =>
      List.not_mem_nil (hkeys b hb)
    exact .nil
  | cons k keys ih =>
    rw [List.nodup_cons] at hnodup
    -- the members with other keys are sorted by the rest of the keys
    have hrest : ∀ j ∈ keys, (l.filter fun b => key b == j) =
        (l.filter fun b => !(key b == k)).filter fun b => key b == j := by
      intro j hj
      rw [List.filter_filter]
      refine List.filter_congr fun b _ => ?_
      by_cases hb : key b = j
      · subst hb
        have hne : key b ≠ k := fun heq => hnodup.1 (heq ▸ hj)
        simp [hne]
      · simp [hb]
    rw [List.flatMap_cons, List.flatMap_congr hrest]
    refine ((ih hnodup.2 ?_).append_left _).trans (List.filter_append_perm _ l)
    intro b hb
    obtain ⟨hb, hne⟩ := List.mem_filter.1 hb
    exact (List.mem_cons.1 (hkeys b hb)).resolve_left (by simpa using hne)

end FirstOccurrences

/-- The set of the symbols of a list has its first occurrences as members, in their order. -/
theorem SymbolSet.toList_ofList (l : List Symbol) : (ofList l).toList = l.eraseDups := by
  induction l using List.reverseRecOn with
  | nil => rfl
  | append_singleton l s ih =>
    have hstep : ofList (l ++ [s]) = (ofList l).insert s := by
      rw [ofList, insertAll, List.foldl_append]
      rfl
    rw [hstep, eraseDups_concat]
    split
    · next hmem => rw [insert_of_mem (mem_ofList.2 hmem), ih]
    · next hnew => rw [toList_insert_of_notMem (fun h => hnew (mem_ofList.1 h)), ih]

namespace Grammar

/-! ## Adding a rule -/

/-- A rule passes by the non-terminals of other names. -/
theorem addRule_append {r : Rule} {ns : List NonTerminal} (h : r.head ∉ ns.map NonTerminal.symbol)
    (ms : List NonTerminal) : addRule r (ns ++ ms) = ns ++ addRule r ms := by
  induction ns with
  | nil => rfl
  | cons n rest ih =>
    rw [List.map_cons, List.mem_cons, not_or] at h
    rw [List.cons_append, addRule, if_neg (Ne.symm h.1), ih h.2, List.cons_append]

/-- A rule with a new head makes a new non-terminal, in the last place. -/
theorem addRule_of_notMem {r : Rule} {ns : List NonTerminal}
    (h : r.head ∉ ns.map NonTerminal.symbol) : addRule r ns = ns ++ [⟨r.head, [r.body]⟩] := by
  have happend := addRule_append h []
  rwa [List.append_nil] at happend

/-- The non-terminal that the rules define for a symbol: its distinct right-hand sides, in the order
of the rules. -/
def gather (rules : List Rule) (s : Symbol) : NonTerminal where
  symbol := s
  alternatives := ((rules.filter fun r => r.head == s).map Rule.body).eraseDups

/-- The right-hand sides of a symbol are those of the rules that it heads. -/
theorem mem_alternatives_gather {rules : List Rule} {s : Symbol} {body : Word} :
    body ∈ (gather rules s).alternatives ↔ Rule.mk s body ∈ rules := by
  simp only [gather, List.mem_eraseDups, List.mem_map, List.mem_filter, beq_iff_eq]
  constructor
  · rintro ⟨⟨head, w⟩, ⟨hr, rfl⟩, rfl⟩
    exact hr
  · intro hr
    exact ⟨⟨s, body⟩, ⟨hr, rfl⟩, rfl⟩

theorem map_symbol_gather (rules : List Rule) (ss : List Symbol) :
    (ss.map (gather rules)).map NonTerminal.symbol = ss := by
  rw [List.map_map]
  exact List.map_id ss

/-- One more rule is one more alternative for its head. -/
theorem gather_concat_head (rules : List Rule) (r : Rule) :
    gather (rules ++ [r]) r.head = (gather rules r.head).add r.body := by
  have hbodies : ((rules ++ [r]).filter fun q => q.head == r.head).map Rule.body =
      ((rules.filter fun q => q.head == r.head).map Rule.body) ++ [r.body] := by
    simp
  simp only [gather, hbodies, eraseDups_concat, NonTerminal.add, Word.isAmong_iff,
    List.mem_eraseDups]
  split <;> rfl

/-- One more rule changes nothing for the other symbols. -/
theorem gather_concat_of_ne {rules : List Rule} {r : Rule} {s : Symbol} (h : r.head ≠ s) :
    gather (rules ++ [r]) s = gather rules s := by
  simp [gather, List.filter_append, h]

/-- A symbol that is no head is not defined. -/
theorem gather_of_notMem {rules : List Rule} {s : Symbol} (h : s ∉ rules.map Rule.head) :
    gather rules s = { symbol := s } := by
  have hnone : rules.filter (fun r => r.head == s) = [] := by
    rw [List.filter_eq_nil_iff]
    intro r hr heq
    exact h (List.mem_map.2 ⟨r, hr, by simpa using heq⟩)
  rw [gather, hnone]
  rfl

/-- A rule of a symbol that is listed adds its right-hand side there and nowhere else. -/
theorem addRule_map_gather {rules : List Rule} {r : Rule} {ss : List Symbol} (hnodup : ss.Nodup)
    (hmem : r.head ∈ ss) :
    addRule r (ss.map (gather rules)) = ss.map (gather (rules ++ [r])) := by
  obtain ⟨before, after, rfl⟩ := List.append_of_mem hmem
  rw [List.nodup_append] at hnodup
  obtain ⟨-, hafter, hdisjoint⟩ := hnodup
  have hbefore : r.head ∉ before := fun h => hdisjoint _ h _ List.mem_cons_self rfl
  have hsame : ∀ {ts : List Symbol}, r.head ∉ ts →
      ts.map (gather (rules ++ [r])) = ts.map (gather rules) := fun hts =>
    List.map_congr_left fun t ht => gather_concat_of_ne fun heq => hts (heq ▸ ht)
  rw [List.map_append, List.map_append, List.map_cons, List.map_cons, hsame hbefore,
    hsame (List.nodup_cons.1 hafter).1, gather_concat_head, addRule_append]
  · simp [addRule, gather]
  · rwa [map_symbol_gather]

/-! ## The grammar of a list of rules -/

/-- The grammar of a list of rules has the heads as symbols, in order of first appearance, and each
of them has its distinct right-hand sides as alternatives, in the order of the rules. -/
theorem ofRules_eq (rules : List Rule) :
    ofRules rules = ⟨(rules.map Rule.head).eraseDups.map (gather rules)⟩ := by
  induction rules using List.reverseRecOn with
  | nil => rfl
  | append_singleton rules r ih =>
    have hstep : ofRules (rules ++ [r]) = ⟨addRule r (ofRules rules).nonTerminals⟩ := by
      rw [ofRules, List.foldl_append]
      rfl
    rw [hstep, ih, List.map_append, List.map_singleton, eraseDups_concat]
    congr 1
    split
    · next hmem => exact addRule_map_gather (nodup_eraseDups _) (List.mem_eraseDups.2 hmem)
    · next hnew =>
      -- a new head comes last, and its only alternative is the new one
      have hnew' : r.head ∉ (rules.map Rule.head).eraseDups := fun h =>
        hnew (List.mem_eraseDups.1 h)
      have hsame : (rules.map Rule.head).eraseDups.map (gather (rules ++ [r])) =
          (rules.map Rule.head).eraseDups.map (gather rules) :=
        List.map_congr_left fun s hs => gather_concat_of_ne fun heq => hnew' (heq ▸ hs)
      rw [addRule_of_notMem (by rwa [map_symbol_gather]), List.map_append, hsame,
        List.map_singleton, gather_concat_head, gather_of_notMem hnew]
      rfl

/-- The symbols of the grammar are the heads of the rules, in order of first appearance. -/
theorem symbols_ofRules (rules : List Rule) :
    (ofRules rules).symbols = (rules.map Rule.head).eraseDups := by
  rw [ofRules_eq, symbols, map_symbol_gather]

/-- A symbol of the grammar is the head of a rule. -/
theorem mem_symbols_ofRules {rules : List Rule} {s : Symbol} :
    s ∈ (ofRules rules).symbols ↔ ∃ r ∈ rules, r.head = s := by
  rw [symbols_ofRules, List.mem_eraseDups, List.mem_map]

/-- The rules of the grammar are the rules of the list. -/
theorem mem_rules_ofRules {rules : List Rule} {q : Rule} :
    q ∈ (ofRules rules).rules ↔ q ∈ rules := by
  rw [ofRules_eq, mem_rules]
  constructor
  · rintro ⟨n, hn, hsymbol, hq⟩
    obtain ⟨s, -, rfl⟩ := List.mem_map.1 hn
    have hrule := mem_alternatives_gather.1 hq
    rwa [show s = q.head from hsymbol] at hrule
  · intro hq
    refine ⟨gather rules q.head, List.mem_map_of_mem ?_, rfl, mem_alternatives_gather.2 hq⟩
    exact List.mem_eraseDups.2 (List.mem_map_of_mem hq)

/-- No symbol is declared twice, and no non-terminal is without alternatives or lists one twice. -/
theorem nodup_symbols_ofRules (rules : List Rule) :
    (ofRules rules).symbols.Nodup ∧
      ∀ n ∈ (ofRules rules).nonTerminals, n.alternatives ≠ [] ∧ n.alternatives.Nodup := by
  refine ⟨symbols_ofRules rules ▸ nodup_eraseDups _, ?_⟩
  rw [ofRules_eq]
  intro n hn
  obtain ⟨s, hs, rfl⟩ := List.mem_map.1 hn
  obtain ⟨r, hr, rfl⟩ := List.mem_map.1 (List.mem_eraseDups.1 hs)
  exact ⟨List.ne_nil_of_mem (mem_alternatives_gather.2 hr), nodup_eraseDups _⟩

end Grammar

end LL1
