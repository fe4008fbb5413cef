/-
# Reading what was printed

A rule is printed as its head, the arrow and its right-hand side. The first arrow of such a line is
the one that was printed, whatever the right-hand side holds, so the line is read as the rule again.
Reading gives the grammar its non-terminals in order of their first rule, which is the order in
which a grammar lists them. The only thing that gets lost on a line is a carriage return at its end.
-/
import LL1.Proofs.Grammar.Loading

namespace LL1

/-! ## Lines -/

/-- The arrow of a printed rule is its first one. -/
theorem splitsAt_text (r : Rule) : SplitsAt r.text [r.head] r.body :=
  splitAtArrow_eq_some_iff.1 (by simp [Rule.text, splitAtArrow])

/-- A readable rule is spelled by the line on which it is printed. -/
theorem lineRule_text {r : Rule} (h : r.Readable) : LineRule r.text r :=
  ⟨splitsAt_text r, h⟩

/-- Whether the right-hand side can stand at the end of a line: it does not end in a carriage
return. -/
def Word.EndsLine (w : Word) : Prop :=
  w.getLast? ≠ some '\r'

/-- A printed rule keeps all its characters if its right-hand side can stand at the end of a line.
-/
theorem withoutReturns_text {r : Rule} (h : r.Readable) (hend : r.body.EndsLine) :
    withoutReturns r.text = r.text := by
  refine List.rdropWhile_eq_self_iff.2 fun hne hlast => ?_
  rw [Word.EndsLine, ← (lineRule_text h).getLast?_eq, List.getLast?_eq_some_getLast hne] at hend
  exact hend (congrArg some (by simpa using hlast))

/-! ## The order of rules -/

namespace Grammar

/-- The rules of a non-terminal that was begun complete it. -/
theorem foldl_addRule_begun {s : Symbol} {done bodies : List Word} {ns : List NonTerminal}
    (hs : s ∉ ns.map NonTerminal.symbol) (hnodup : (done ++ bodies).Nodup) :
    (bodies.map (Rule.mk s)).foldl (fun ns r => addRule r ns) (ns ++ [⟨s, done⟩]) =
      ns ++ [⟨s, done ++ bodies⟩] := by
  induction bodies generalizing done with
  | nil => rw [List.append_nil, List.map_nil, List.foldl_nil]
  | cons body rest ih =>
    have hnew : body ∉ done := fun hmem =>
      (List.nodup_append.1 hnodup).2.2 body hmem body List.mem_cons_self rfl
    have hadd : addRule ⟨s, body⟩ [⟨s, done⟩] = [⟨s, done ++ [body]⟩] := by
      simp [addRule, NonTerminal.add, Word.isAmong_iff, hnew]
    rw [List.append_cons] at hnodup
    rw [List.map_cons, List.foldl_cons, addRule_append hs, hadd, ih hnodup, List.append_assoc,
      List.singleton_append]

/-- The rules of a new non-terminal add it at the end. -/
theorem foldl_addRule_rules {n : NonTerminal} {ns : List NonTerminal}
    (hn : n.symbol ∉ ns.map NonTerminal.symbol) (hne : n.alternatives ≠ [])
    (hnodup : n.alternatives.Nodup) :
    n.rules.foldl (fun ns r => addRule r ns) ns = ns ++ [n] := by
  obtain ⟨s, bodies⟩ := n
  cases bodies with
  | nil => exact absurd rfl hne
  | cons body rest =>
    -- the first rule begins the non-terminal, the others complete it
    have hbegin : addRule ⟨s, body⟩ ns = ns ++ [⟨s, [body]⟩] := addRule_of_notMem hn
    have hcomplete : (rest.map (Rule.mk s)).foldl (fun ns r => addRule r ns) (ns ++ [⟨s, [body]⟩]) =
        ns ++ [⟨s, [body] ++ rest⟩] := foldl_addRule_begun hn hnodup
    rw [NonTerminal.rules, List.map_cons, List.foldl_cons, hbegin]
    exact hcomplete

/-- A grammar is the grammar of its rules, if no symbol is declared twice and no non-terminal is
without alternatives or lists one twice. -/
theorem ofRules_rules {g : Grammar} (hsymbols : g.symbols.Nodup)
    (heach : ∀ n ∈ g.nonTerminals, n.alternatives ≠ [] ∧ n.alternatives.Nodup) :
    ofRules g.rules = g := by
  have key : ∀ ms ns : List NonTerminal, ((ns ++ ms).map NonTerminal.symbol).Nodup →
      (∀ n ∈ ms, n.alternatives ≠ [] ∧ n.alternatives.Nodup) →
      (ms.flatMap NonTerminal.rules).foldl (fun ns r => addRule r ns) ns = ns ++ ms := by
    intro ms
    induction ms with
    | nil => exact fun ns _ _ => (List.append_nil ns).symm
    | cons n rest ih =>
      intro ns hnodup halternatives
      rw [List.forall_mem_cons] at halternatives
      have hn : n.symbol ∉ ns.map NonTerminal.symbol := by
        rw [List.map_append, List.map_cons] at hnodup
        exact fun hmem => (List.nodup_append.1 hnodup).2.2 _ hmem _ List.mem_cons_self rfl
      rw [List.append_cons] at hnodup
      rw [List.flatMap_cons, List.foldl_append,
        foldl_addRule_rules hn halternatives.1.1 halternatives.1.2,
        ih (ns ++ [n]) hnodup halternatives.2, List.append_assoc, List.singleton_append]
  obtain ⟨ms⟩ := g
  exact congrArg Grammar.mk (key ms [] hsymbols heach)

end Grammar

/-! ## Sources -/

/-- The rules of a source of printed rules, each with its place, after `n` other lines. -/
def printedFrom (file : String) (n : Nat) (rules : List Rule) : List LocatedRule :=
  (rules.zipIdx n).map fun (r, i) => ⟨r, { file, line := i + 1 }⟩

theorem map_rule_printedFrom (file : String) (n : Nat) (rules : List Rule) :
    (printedFrom file n rules).map LocatedRule.rule = rules := by
  rw [printedFrom, List.map_map]
  exact List.zipIdx_map_fst n rules

/-- Printed rules are read line by line. -/
theorem says_text {rules : List Rule} (hread : ∀ r ∈ rules, r.Readable)
    (hend : ∀ r ∈ rules, r.body.EndsLine) (file : String) (n : Nat) :
    Says file n (rules.map fun r => some r.text) [] (printedFrom file n rules) := by
  induction rules generalizing n with
  | nil => exact .nil
  | cons r rest ih =>
    rw [List.forall_mem_cons] at hread hend
    have hrule : LineRule (withoutReturns r.text) r := by
      rw [withoutReturns_text hread.1 hend.1]
      exact lineRule_text hread.1
    exact .rule hrule (ih hread.2 hend.2 (n + 1))

/-- The rules of a well-formed grammar can be read. -/
theorem Grammar.WellFormed.readable {g : Grammar} (hg : g.WellFormed) {r : Rule}
    (hr : r ∈ g.rules) : r.Readable where
  uppercase := hg.isUppercase_of_declares (declares_iff.2 (by
    obtain ⟨n, hn, hsymbol, -⟩ := mem_rules.1 hr
    exact hsymbol ▸ List.mem_map_of_mem hn))
  body_ne_nil := hg.body_ne_nil hr
  endMarker_notMem := hg.endMarker_notMem hr

/-- A well-formed grammar whose right-hand sides can stand at the end of a line is loaded from its
printed rules. -/
theorem Grammar.ofLines_text {g : Grammar} (hg : g.WellFormed)
    (hend : ∀ r ∈ g.rules, r.body.EndsLine) : ofLines (g.rules.map Rule.text) = .ok g := by
  have hsays := says_text (fun r hr => hg.readable hr) hend "" 0
  have hrules := map_rule_printedFrom "" 0 g.rules
  have hne : printedFrom "" 0 g.rules ≠ [] := by
    obtain ⟨n, hn⟩ := List.exists_mem_of_ne_nil _ hg.nonTerminals_ne_nil
    obtain ⟨body, hbody⟩ := List.exists_mem_of_ne_nil _ (hg.each n hn).alternatives_ne_nil
    have hmem := (hg.mem_alternatives_iff hn).1 hbody
    rw [← hrules] at hmem
    obtain ⟨p, hp, -⟩ := List.mem_map.1 hmem
    exact List.ne_nil_of_mem hp
  have hdef : undefinedByHead (printedFrom "" 0 g.rules) = [] := by
    refine undefinedByHead_eq_nil_iff.2 fun p hp s hs hup => ?_
    have hp' : p.rule ∈ g.rules := hrules ▸ List.mem_map_of_mem hp
    -- a declared symbol is the head of one of the printed rules
    obtain ⟨n, hn, rfl⟩ := List.mem_map.1 (declares_iff.1 (hg.declares_of_mem_body hp' hs hup))
    obtain ⟨body, hbody⟩ := List.exists_mem_of_ne_nil _ (hg.each n hn).alternatives_ne_nil
    have hrule := (hg.mem_alternatives_iff hn).1 hbody
    rw [← hrules] at hrule
    obtain ⟨q, hq, hqr⟩ := List.mem_map.1 hrule
    exact ⟨q, hq, congrArg Rule.head hqr⟩
  have hsame : ofRules g.rules = g :=
    ofRules_rules hg.nodup fun n hn => ⟨(hg.each n hn).alternatives_ne_nil, (hg.each n hn).nodup⟩
  have hloads := Loads.loaded hsays hne hdef
  rw [← ofRules_map_rule, hrules, hsame] at hloads
  rw [ofLines, List.map_map]
  exact loadLines_eq_iff.2 hloads

end LL1
