/-
# What the loader accepts and what it reports

A source is in the format of the loader if it has a rule, every line is blank or a rule, and every
upper-case symbol in use heads a rule. Such a source is loaded as the grammar of its rules, gathered
by their heads. Any other source is refused, and the report belongs to one of three stages: the
faults of the lines, the absence of rules, and the uses of undefined symbols. What belongs to a later
stage is never reported along with an earlier one.
-/
import LL1.Proofs.Grammar.Grouping
import LL1.Proofs.Source.Reading

namespace LL1

/-! ## Undefined symbols -/

/-- The head of a rule is among the heads of the rules. -/
theorem mem_headsOf {rules : List LocatedRule} {s : Symbol} :
    s ∈ headsOf rules ↔ ∃ r ∈ rules, r.rule.head = s := by
  rw [headsOf, ← SymbolSet.mem_iff, SymbolSet.mem_ofList, List.mem_map]

/-- The uses of undefined symbols on the line of a rule: the upper-case symbols of its right-hand
side that head none of the rules, from left to right. -/
def LocatedRule.undefinedAmong (rules : List LocatedRule) (r : LocatedRule) : List LocatedFault :=
  (r.rule.body.filter fun s => isUppercase s && rules.all fun q => q.rule.head != s).map fun s =>
    ⟨{ r.location with head := some r.rule.head }, .undefinedNonTerminal s⟩

/-- The uses of undefined symbols in all rules. The rules are sorted by their heads, the heads come
in order of first appearance, and the rules of one head come in line order. -/
def undefinedByHead (rules : List LocatedRule) : List LocatedFault :=
  (rules.map fun r => r.rule.head).eraseDups.flatMap fun s =>
    (rules.filter fun r => r.rule.head == s).flatMap (LocatedRule.undefinedAmong rules)

/-- The loader finds the uses of undefined symbols in this order. -/
theorem undefinedUses_eq (rules : List LocatedRule) :
    undefinedUses rules = undefinedByHead rules := by
  have hrule : LocatedRule.undefinedIn (headsOf rules) = LocatedRule.undefinedAmong rules := by
    funext r
    have hhead : ∀ s, (!(headsOf rules).contains s) = rules.all fun q => q.rule.head != s := by
      intro s
      rw [Bool.eq_iff_iff, List.all_eq_true]
      simp [mem_headsOf]
    simp only [LocatedRule.undefinedIn, LocatedRule.undefinedAmong, hhead]
    rfl
  rw [undefinedUses, hrule, headsOf, SymbolSet.toList_ofList]
  rfl

/-- Every use of an undefined symbol is listed once, whatever the order of the rules. -/
theorem undefinedByHead_perm (rules : List LocatedRule) :
    (undefinedByHead rules).Perm (rules.flatMap (LocatedRule.undefinedAmong rules)) := by
  have hsorted := flatMap_filter_perm (fun r : LocatedRule => r.rule.head) (l := rules)
    (nodup_eraseDups (rules.map fun r => r.rule.head))
    fun r hr => List.mem_eraseDups.2 (List.mem_map_of_mem hr)
  rw [undefinedByHead, ← List.flatMap_assoc]
  exact hsorted.flatMap_right _

/-- There is no use of an undefined symbol if and only if every upper-case symbol in use is the head
of a rule. -/
theorem undefinedByHead_eq_nil_iff {rules : List LocatedRule} :
    undefinedByHead rules = [] ↔
      ∀ r ∈ rules, ∀ s ∈ r.rule.body, isUppercase s = true → ∃ q ∈ rules, q.rule.head = s := by
  rw [← List.length_eq_zero_iff, (undefinedByHead_perm rules).length_eq, List.length_eq_zero_iff,
    List.flatMap_eq_nil_iff]
  simp [LocatedRule.undefinedAmong]

variable {file : String} {faults : List LocatedFault} {rules : List LocatedRule}

/-! ## The outcome of loading -/

/-- The outcome of loading a source, in its four cases. -/
inductive Loads (file : String) (lines : List (Option (List Char))) :
    Except (List LocatedFault) Grammar → Prop where
  /-- Some lines have faults. They are reported, and nothing else is. -/
  | faulty {faults : List LocatedFault} {rules : List LocatedRule}
      (h : Says file 0 lines faults rules) (hne : faults ≠ []) : Loads file lines (.error faults)
  /-- All lines are blank. -/
  | empty (h : Says file 0 lines [] []) : Loads file lines (.error [⟨{ file }, .emptyGrammar⟩])
  /-- All lines are blank or rules, and symbols are used that head none of the rules. -/
  | undefined {rules : List LocatedRule} (h : Says file 0 lines [] rules)
      (hne : undefinedByHead rules ≠ []) : Loads file lines (.error (undefinedByHead rules))
  /-- All lines are blank or rules, there is a rule, and every symbol in use is defined. -/
  | loaded {rules : List LocatedRule} (h : Says file 0 lines [] rules) (hne : rules ≠ [])
      (hdef : undefinedByHead rules = []) :
      Loads file lines (.ok ⟨(rules.map fun r => r.rule.head).eraseDups.map
        (Grammar.gather (rules.map LocatedRule.rule))⟩)

/-- The grammar of rules that were read, with their places left out. -/
theorem ofRules_map_rule (rules : List LocatedRule) : Grammar.ofRules (rules.map LocatedRule.rule) =
    ⟨(rules.map fun r => r.rule.head).eraseDups.map
      (Grammar.gather (rules.map LocatedRule.rule))⟩ := by
  rw [Grammar.ofRules_eq, List.map_map]
  rfl

/-- How a source is loaded that says the given faults and rules. -/
theorem Says.loadLines_eq {lines : List (Option (List Char))} (h : Says file 0 lines faults rules) :
    loadLines file lines = if faults.isEmpty then loadRules file rules else .error faults := by
  have hread : separate ((numberLines lines).map (SourceLine.parse file)) = (faults, rules) :=
    h.readFrom_eq
  rw [loadLines, hread]

/-- Every source has an outcome. -/
theorem exists_loads (file : String) (lines : List (Option (List Char))) :
    ∃ result, Loads file lines result := by
  obtain ⟨faults, rules, h⟩ : ∃ faults rules, Says file 0 lines faults rules :=
    ⟨_, _, says_readFrom file 0 lines⟩
  by_cases hfaults : faults = []
  · subst hfaults
    by_cases hrules : rules = []
    · subst hrules
      exact ⟨_, .empty h⟩
    · by_cases hdef : undefinedByHead rules = []
      · exact ⟨_, .loaded h hrules hdef⟩
      · exact ⟨_, .undefined h hdef⟩
  · exact ⟨_, .faulty h hfaults⟩

/-- The loader has the described outcome. -/
theorem Loads.loadLines_eq {lines : List (Option (List Char))}
    {result : Except (List LocatedFault) Grammar} (h : Loads file lines result) :
    loadLines file lines = result := by
  cases h with
  | faulty h hne => simp [h.loadLines_eq, hne]
  | empty h => simp [h.loadLines_eq, loadRules]
  | @undefined rules h hne =>
    have hrules : rules ≠ [] := by
      rintro rfl
      exact hne rfl
    simp [h.loadLines_eq, loadRules, undefinedUses_eq, hne, hrules]
  | loaded h hne hdef =>
    simp [h.loadLines_eq, loadRules, undefinedUses_eq, hne, hdef, ofRules_map_rule]

/-- The loader has the described outcome, and no other. -/
theorem loadLines_eq_iff {lines : List (Option (List Char))}
    {result : Except (List LocatedFault) Grammar} :
    loadLines file lines = result ↔ Loads file lines result := by
  refine ⟨?_, Loads.loadLines_eq⟩
  rintro rfl
  obtain ⟨result, h⟩ := exists_loads file lines
  rwa [h.loadLines_eq]

/-- A loaded grammar is the grammar of the rules that the source says. There are some, and they
define every symbol in use. -/
theorem exists_rules_of_loadLines {lines : List (Option (List Char))} {g : Grammar}
    (h : loadLines file lines = .ok g) : ∃ rules, Says file 0 lines [] rules ∧ rules ≠ [] ∧
      undefinedByHead rules = [] ∧ g = .ofRules (rules.map LocatedRule.rule) := by
  have hloads := loadLines_eq_iff.1 h
  cases hloads with
  | @loaded rules hsays hne hdef =>
    exact ⟨rules, hsays, hne, hdef, (ofRules_map_rule rules).symm⟩

/-! ## The format -/

/-- The lines are in the format of the loader. -/
structure Documented (lines : List (List Char)) : Prop where
  /-- Some line is not blank. -/
  some_rule : ∃ line ∈ lines, ¬ Blank line
  /-- Every line that is not blank spells a rule. -/
  each : ∀ line ∈ lines, ¬ Blank line → ∃ r, LineRule (withoutReturns line) r
  /-- Every upper-case symbol in a right-hand side is the head of some line. -/
  defined : ∀ line ∈ lines, ∀ r, LineRule (withoutReturns line) r → ∀ s ∈ r.body,
    isUppercase s = true → ∃ other ∈ lines, ∃ q, LineRule (withoutReturns other) q ∧ q.head = s

/-- Lines in the format are those that say no fault, say a rule, and define the symbols they use. -/
theorem Says.documented_iff {lines : List (List Char)}
    (h : Says file 0 (lines.map some) faults rules) :
    Documented lines ↔ faults = [] ∧ rules ≠ [] ∧ undefinedByHead rules = [] := by
  have hrules : ∀ q, (∃ r ∈ rules, r.rule = q) ↔
      ∃ line ∈ lines, LineRule (withoutReturns line) q := by
    intro q
    simpa using h.mem_rules_iff
  have hfaults : faults = [] ↔
      ∀ line ∈ lines, Blank line ∨ ∃ r, LineRule (withoutReturns line) r := by
    simpa using h.faults_eq_nil_iff
  rw [undefinedByHead_eq_nil_iff, hfaults]
  constructor
  · rintro ⟨⟨line, hline, hblank⟩, heach, hdefined⟩
    refine ⟨fun line hline => or_iff_not_imp_left.2 (heach line hline), ?_, ?_⟩
    · obtain ⟨r, hrule⟩ := heach line hline hblank
      obtain ⟨p, hp, -⟩ := (hrules r).2 ⟨line, hline, hrule⟩
      exact List.ne_nil_of_mem hp
    · intro p hp s hs hup
      obtain ⟨line, hline, hrule⟩ := (hrules p.rule).1 ⟨p, hp, rfl⟩
      obtain ⟨other, hother, q, hq, hhead⟩ := hdefined line hline p.rule hrule s hs hup
      obtain ⟨p', hp', rfl⟩ := (hrules q).2 ⟨other, hother, hq⟩
      exact ⟨p', hp', hhead⟩
  · rintro ⟨heach, hne, hdefined⟩
    refine ⟨?_, fun line hline => (heach line hline).resolve_left, ?_⟩
    · obtain ⟨p, hp⟩ := List.exists_mem_of_ne_nil rules hne
      obtain ⟨line, hline, hrule⟩ := (hrules p.rule).1 ⟨p, hp, rfl⟩
      exact ⟨line, hline, not_blank_of_lineRule hrule⟩
    · intro line hline r hrule s hs hup
      obtain ⟨p, hp, rfl⟩ := (hrules r).2 ⟨line, hline, hrule⟩
      obtain ⟨q, hq, hhead⟩ := hdefined p hp s hs hup
      obtain ⟨other, hother, hother_rule⟩ := (hrules q.rule).1 ⟨q, hq, rfl⟩
      exact ⟨other, hother, q.rule, hother_rule, hhead⟩

/-- Lines are loaded if and only if they are in the format. The outcome is the described one and no
other: the grammar of the rules on the lines, or the faults of one stage. Gathering the rules by
their heads neither loses nor repeats a use of an undefined symbol. -/
theorem Grammar.ofLines_exact (lines : List (List Char)) :
    ((∃ g, ofLines lines = .ok g) ↔ Documented lines) ∧
      (∀ result, ofLines lines = result ↔ Loads "" (lines.map some) result) ∧
      ∀ rules, (undefinedByHead rules).Perm
        (rules.flatMap (LocatedRule.undefinedAmong rules)) := by
  refine ⟨?_, fun result => loadLines_eq_iff, undefinedByHead_perm⟩
  obtain ⟨faults, rules, h⟩ : ∃ faults rules, Says "" 0 (lines.map some) faults rules :=
    ⟨_, _, says_readFrom "" 0 (lines.map some)⟩
  rw [h.documented_iff]
  constructor
  · rintro ⟨g, hg⟩
    have hloads := loadLines_eq_iff.1 hg
    cases hloads with
    | loaded h' hne hdef =>
      obtain ⟨rfl, rfl⟩ := Prod.mk.inj (h.readFrom_eq.symm.trans h'.readFrom_eq)
      exact ⟨rfl, hne, hdef⟩
  · rintro ⟨rfl, hne, hdef⟩
    exact ⟨_, loadLines_eq_iff.2 (.loaded h hne hdef)⟩

-- blank lines count, and the use of an undefined symbol is not reported along with malformed lines
example : Grammar.ofLines ["S->A".toList, "".toList, "->b".toList, "b$".toList] =
    .error [⟨{ line := 3 }, .missingHead⟩, ⟨{ line := 4 }, .missingArrow⟩] := rfl

end LL1
