/-
# What a source says

A source is read line by line. A blank line says nothing, but it is counted. Any other line says
either a rule or a fault, and a line that cannot be decoded is a fault of the source as a whole. The
relation `Says` collects both in line order; the loader numbers the lines, leaves out the blank
ones, parses the rest and then separates faults from rules, with the same outcome.
-/
import Mathlib.Data.List.DropRight
import LL1.Proofs.Source.Line
import LL1.Source.Loading

namespace LL1

/-! ## Lines as they are read -/

/-- A line is blank if it holds nothing but white space. -/
def Blank (line : List Char) : Prop :=
  ∀ c ∈ line, isBlank c = true

theorem isBlankLine_iff {line : List Char} : isBlankLine line = true ↔ Blank line :=
  List.all_eq_true

theorem isBlankLine_eq_false {line : List Char} (h : ¬ Blank line) : isBlankLine line = false :=
  Bool.eq_false_iff.2 fun hline => h (isBlankLine_iff.1 hline)

/-- The line without the carriage returns at its end. -/
def withoutReturns (line : List Char) : List Char :=
  line.rdropWhile fun c => c == '\r'

/-- Trimming a list by a pass from the left is trimming its reversal. -/
theorem dropTrailing_eq_rdropWhile (p : Char → Bool) (l : List Char) :
    dropTrailing p l = l.rdropWhile p := by
  obtain ⟨t, hl, ht⟩ := exists_suffix_dropTrailing p l
  have hdrop : l.rdropWhile p = (dropTrailing p l).rdropWhile p := by
    conv_lhs => rw [hl, List.rdropWhile, List.reverse_append,
      List.dropWhile_append_of_pos fun c hc => ht c (List.mem_reverse.1 hc)]
    rfl
  rw [hdrop, List.rdropWhile_eq_self_iff.2]
  intro hne hlast
  have hnot := getLast?_dropTrailing p l _ (List.getLast?_eq_some_getLast hne)
  rw [hnot] at hlast
  cases hlast

theorem dropReturns_eq (line : List Char) : dropReturns line = withoutReturns line :=
  dropTrailing_eq_rdropWhile _ line

/-- A line that spells a rule is not blank, for it has an arrow. -/
theorem not_blank_of_lineRule {line : List Char} {r : Rule} (h : LineRule (withoutReturns line) r) :
    ¬ Blank line := by
  intro hblank
  have hdash : '-' ∈ withoutReturns line := by
    rw [h.splits.eq_append]
    simp
  have hmem : '-' ∈ line := (List.rdropWhile_prefix _ line).subset hdash
  exact absurd (hblank _ hmem) (by decide)

/-! ## Reading line by line -/

/-- The faults and the rules of the lines that come after the first `n` ones, each in line order. -/
inductive Says (file : String) :
    Nat → List (Option (List Char)) → List LocatedFault → List LocatedRule → Prop where
  /-- There are no more lines. -/
  | nil {n : Nat} : Says file n [] [] []
  /-- A line that cannot be decoded is a fault without line number. -/
  | unreadable {n : Nat} {lines : List (Option (List Char))} {faults : List LocatedFault}
      {rules : List LocatedRule} (h : Says file (n + 1) lines faults rules) :
      Says file n (none :: lines) (⟨{ file }, .unreadable .invalidLine⟩ :: faults) rules
  /-- A blank line is counted and has no other effect. -/
  | blank {n : Nat} {line : List Char} {lines : List (Option (List Char))}
      {faults : List LocatedFault} {rules : List LocatedRule} (hblank : Blank line)
      (h : Says file (n + 1) lines faults rules) :
      Says file n (some line :: lines) faults rules
  /-- A malformed line is a fault at its number. -/
  | malformed {n : Nat} {line : List Char} {lines : List (Option (List Char))} {fault : Fault}
      {faults : List LocatedFault} {rules : List LocatedRule} (hblank : ¬ Blank line)
      (hfault : LineFault (withoutReturns line) fault)
      (h : Says file (n + 1) lines faults rules) :
      Says file n (some line :: lines) (⟨{ file, line := n + 1 }, fault⟩ :: faults) rules
  /-- A line that spells a rule is a rule at its number. -/
  | rule {n : Nat} {line : List Char} {lines : List (Option (List Char))} {r : Rule}
      {faults : List LocatedFault} {rules : List LocatedRule}
      (hrule : LineRule (withoutReturns line) r) (h : Says file (n + 1) lines faults rules) :
      Says file n (some line :: lines) faults (⟨r, { file, line := n + 1 }⟩ :: rules)

/-- The loader's way of reading the lines that come after the first `n` ones. -/
def readFrom (file : String) (n : Nat) (lines : List (Option (List Char))) :
    List LocatedFault × List LocatedRule :=
  let numbered := (lines.zipIdx n).map fun (text, i) => (⟨i + 1, text⟩ : SourceLine)
  separate ((numbered.filter fun line => match line.text with
    | none => true
    | some text => !isBlankLine text).map (SourceLine.parse file))

section Steps

variable (file : String) (n : Nat) (lines : List (Option (List Char)))

theorem readFrom_none : readFrom file n (none :: lines) =
    (⟨{ file }, .unreadable .invalidLine⟩ :: (readFrom file (n + 1) lines).1,
      (readFrom file (n + 1) lines).2) :=
  rfl

theorem readFrom_some_of_blank {line : List Char} (h : Blank line) :
    readFrom file n (some line :: lines) = readFrom file (n + 1) lines := by
  simp [readFrom, isBlankLine_iff.2 h]

theorem readFrom_some_of_lineFault {line : List Char} {fault : Fault} (hblank : ¬ Blank line)
    (h : LineFault (withoutReturns line) fault) : readFrom file n (some line :: lines) =
      (⟨{ file, line := n + 1 }, fault⟩ :: (readFrom file (n + 1) lines).1,
        (readFrom file (n + 1) lines).2) := by
  have hparse : parseLine (dropReturns line) = .error fault := by
    rwa [dropReturns_eq, parseLine_eq_error_iff]
  simp [readFrom, isBlankLine_eq_false hblank, SourceLine.parse, hparse, separate]

theorem readFrom_some_of_lineRule {line : List Char} {r : Rule}
    (h : LineRule (withoutReturns line) r) : readFrom file n (some line :: lines) =
      ((readFrom file (n + 1) lines).1,
        ⟨r, { file, line := n + 1 }⟩ :: (readFrom file (n + 1) lines).2) := by
  have hparse : parseLine (dropReturns line) = .ok r := by
    rwa [dropReturns_eq, parseLine_eq_ok_iff]
  have hblank : isBlankLine line = false := isBlankLine_eq_false (not_blank_of_lineRule h)
  simp [readFrom, hblank, SourceLine.parse, hparse, separate]

end Steps

/-- The loader reads what the source says. -/
theorem says_readFrom (file : String) (n : Nat) (lines : List (Option (List Char))) :
    Says file n lines (readFrom file n lines).1 (readFrom file n lines).2 := by
  induction lines generalizing n with
  | nil => exact .nil
  | cons text lines ih =>
    cases text with
    | none => exact .unreadable (ih (n + 1))
    | some line =>
      by_cases hblank : Blank line
      · rw [readFrom_some_of_blank file n lines hblank]
        exact .blank hblank (ih (n + 1))
      · cases hparse : parseLine (withoutReturns line) with
        | error fault =>
          have hfault := parseLine_eq_error_iff.1 hparse
          rw [readFrom_some_of_lineFault file n lines hblank hfault]
          exact .malformed hblank hfault (ih (n + 1))
        | ok r =>
          have hrule := parseLine_eq_ok_iff.1 hparse
          rw [readFrom_some_of_lineRule file n lines hrule]
          exact .rule hrule (ih (n + 1))

variable {file : String} {n : Nat} {lines : List (Option (List Char))}
  {faults : List LocatedFault} {rules : List LocatedRule}

/-- A source says only one thing. -/
theorem Says.readFrom_eq (h : Says file n lines faults rules) :
    readFrom file n lines = (faults, rules) := by
  induction h with
  | nil => rfl
  | unreadable _ ih => rw [readFrom_none, ih]
  | blank hblank _ ih => rw [readFrom_some_of_blank _ _ _ hblank, ih]
  | malformed hblank hfault _ ih => rw [readFrom_some_of_lineFault _ _ _ hblank hfault, ih]
  | rule hrule _ ih => rw [readFrom_some_of_lineRule _ _ _ hrule, ih]

/-! ## Faults and rules of a source -/

/-- The rules of a source are those that its lines spell. -/
theorem Says.mem_rules_iff (h : Says file n lines faults rules) {q : Rule} :
    (∃ r ∈ rules, r.rule = q) ↔ ∃ line, some line ∈ lines ∧ LineRule (withoutReturns line) q := by
  induction h with
  | nil => simp
  | unreadable _ ih => simpa using ih
  | @blank _ line _ _ _ hblank _ ih =>
    have hnot : ¬ LineRule (withoutReturns line) q := fun hrule => not_blank_of_lineRule hrule hblank
    simpa [hnot] using ih
  | malformed _ hfault _ ih =>
    simpa [hfault.not_lineRule q] using ih
  | @rule _ line _ r _ _ hrule _ ih =>
    have hiff : LineRule (withoutReturns line) q ↔ r = q := by
      rw [← parseLine_eq_ok_iff, parseLine_eq_ok_iff.2 hrule, Except.ok.injEq]
    simp [hiff, ih]

/-- A source is without faults if and only if every line is blank or spells a rule. -/
theorem Says.faults_eq_nil_iff (h : Says file n lines faults rules) :
    faults = [] ↔ ∀ text ∈ lines, ∃ line, text = some line ∧
      (Blank line ∨ ∃ r, LineRule (withoutReturns line) r) := by
  induction h with
  | nil => simp
  | unreadable _ ih => simp
  | blank hblank _ ih => simpa [hblank] using ih
  | malformed hblank hfault _ ih =>
    simp [hblank, hfault.not_lineRule]
  | rule hrule _ ih =>
    have hsome : ∃ r, LineRule (withoutReturns _) r := ⟨_, hrule⟩
    simpa [hsome] using ih

end LL1
