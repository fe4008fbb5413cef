/-
# Files and lines in memory

A file is loaded like the list of its lines. Where the lines come from shows in the faults only: they
name the file. A line with another carriage return at its end is read as the same rule or fault, so
it does not matter that the reader of files takes one of them away itself. A line that cannot be
decoded is a fault of its own, which no list of lines in memory has.
-/
import LL1.Proofs.Source.Loading
import LL1.Proofs.Text.Lines

namespace LL1

/-! ## The name of the file -/

/-- The same line, in the file of the given name. -/
def Location.inFile (path : String) (l : Location) : Location :=
  { l with file := path }

/-- The same fault, in the file of the given name. -/
def LocatedFault.inFile (path : String) (e : LocatedFault) : LocatedFault :=
  ⟨e.location.inFile path, e.cause⟩

/-- The same rule, in the file of the given name. -/
def LocatedRule.inFile (path : String) (r : LocatedRule) : LocatedRule :=
  ⟨r.rule, r.location.inFile path⟩

variable {file : String} {n : Nat} {lines : List (Option (List Char))}
  {faults : List LocatedFault} {rules : List LocatedRule}

/-- What a source says does not depend on the name of its file. -/
theorem Says.inFile (h : Says file n lines faults rules) (path : String) :
    Says path n lines (faults.map (LocatedFault.inFile path))
      (rules.map (LocatedRule.inFile path)) := by
  induction h with
  | nil => exact .nil
  | unreadable _ ih => exact .unreadable ih
  | blank hblank _ ih => exact .blank hblank ih
  | malformed hblank hfault _ ih => exact .malformed hblank hfault ih
  | rule hrule _ ih => exact .rule hrule ih

/-- Which symbols are undefined does not depend on the name of the file. -/
theorem undefinedByHead_inFile (path : String) (rules : List LocatedRule) :
    undefinedByHead (rules.map (LocatedRule.inFile path)) =
      (undefinedByHead rules).map (LocatedFault.inFile path) := by
  have hrule : ∀ r : LocatedRule,
      (r.inFile path).undefinedAmong (rules.map (LocatedRule.inFile path)) =
        (r.undefinedAmong rules).map (LocatedFault.inFile path) := by
    intro r
    simp only [LocatedRule.undefinedAmong, List.all_map, List.map_map]
    rfl
  simp only [undefinedByHead, List.map_map, List.filter_map, List.flatMap_map, List.map_flatMap,
    hrule]
  rfl

/-- Loading from a file differs from loading from memory in the name of the file only. -/
theorem loadLines_inFile (path : String) (lines : List (Option (List Char))) :
    loadLines path lines =
      (loadLines "" lines).mapError (List.map (LocatedFault.inFile path)) := by
  have hload : Loads "" lines (loadLines "" lines) := loadLines_eq_iff.1 rfl
  rw [loadLines_eq_iff]
  generalize loadLines "" lines = result at hload
  cases hload with
  | faulty h hne => exact .faulty (h.inFile path) (by simpa using hne)
  | empty h => exact .empty (h.inFile path)
  | @undefined rules h hne =>
    have hmap := undefinedByHead_inFile path rules
    show Loads path lines (.error ((undefinedByHead rules).map (LocatedFault.inFile path)))
    rw [← hmap]
    exact .undefined (h.inFile path) (by simpa [hmap] using hne)
  | @loaded rules h hne hdef =>
    have hmap := undefinedByHead_inFile path rules
    have hloaded := Loads.loaded (h.inFile path) (by simpa using hne) (by simp [hmap, hdef])
    rw [List.map_map, List.map_map] at hloaded
    exact hloaded

/-! ## Carriage returns -/

/-- Whether two lines have the same text, but for a carriage return at the end of the second one. -/
def SameLine (text other : Option (List Char)) : Prop :=
  other = text ∨ other = text.map (· ++ ['\r'])

/-- A carriage return at the end does not change how a line is read. -/
theorem SameLine.exists_eq_some {line : List Char} {other : Option (List Char)}
    (h : SameLine (some line) other) : ∃ line', other = some line' ∧
      (Blank line' ↔ Blank line) ∧ withoutReturns line' = withoutReturns line := by
  rcases h with rfl | rfl
  · exact ⟨line, rfl, Iff.rfl, rfl⟩
  · refine ⟨line ++ ['\r'], rfl, ?_, List.rdropWhile_concat_pos _ _ _ (by rfl)⟩
    have hreturn : isBlank '\r' = true := by decide
    simp [Blank, or_imp, forall_and, hreturn]

/-- A source says the same with more carriage returns. -/
theorem Says.of_sameLine {others : List (Option (List Char))} (h : Says file n lines faults rules)
    (hsame : List.Forall₂ SameLine lines others) : Says file n others faults rules := by
  induction h generalizing others with
  | nil =>
    cases hsame
    exact .nil
  | unreadable _ ih =>
    obtain _ | ⟨hline, hrest⟩ := hsame
    obtain rfl : _ = none := hline.elim id id
    exact .unreadable (ih hrest)
  | blank hblank _ ih =>
    obtain _ | ⟨hline, hrest⟩ := hsame
    obtain ⟨line', rfl, hblank', -⟩ := hline.exists_eq_some
    exact .blank (hblank'.2 hblank) (ih hrest)
  | malformed hblank hfault _ ih =>
    obtain _ | ⟨hline, hrest⟩ := hsame
    obtain ⟨line', rfl, hblank', htext⟩ := hline.exists_eq_some
    exact .malformed (mt hblank'.1 hblank) (htext ▸ hfault) (ih hrest)
  | rule hrule _ ih =>
    obtain _ | ⟨hline, hrest⟩ := hsame
    obtain ⟨line', rfl, -, htext⟩ := hline.exists_eq_some
    exact .rule (htext ▸ hrule) (ih hrest)

/-- The lines of a file decode to the texts of its pieces, but for a carriage return at the end. -/
theorem forall₂_textLines (bytes : List UInt8) :
    List.Forall₂ SameLine (textLines bytes) ((filePieces bytes).map decodeLine) := by
  rw [textLines, List.forall₂_map_left_iff, List.forall₂_map_right_iff]
  refine (forall₂_byteLines bytes).imp fun line piece h => ?_
  rcases h with rfl | rfl
  · exact Or.inl rfl
  · exact Or.inr (decodeLine_append_return line)

/-- A file is loaded as if its pieces were decoded with their carriage returns. -/
theorem loadLines_textLines (path : String) (bytes : List UInt8) :
    loadLines path (textLines bytes) = loadLines path ((filePieces bytes).map decodeLine) := by
  have h := says_readFrom path 0 (textLines bytes)
  rw [h.loadLines_eq, (h.of_sameLine (forall₂_textLines bytes)).loadLines_eq]

/-! ## Loading a file -/

/-- Pieces that can all be decoded are the encodings of texts. -/
theorem exists_map_utf8Bytes {pieces : List (List UInt8)} (h : none ∉ pieces.map decodeLine) :
    ∃ lines : List (List Char), pieces = lines.map utf8Bytes := by
  induction pieces with
  | nil => exact ⟨[], rfl⟩
  | cons piece rest ih =>
    rw [List.map_cons, List.mem_cons, not_or] at h
    obtain ⟨text, htext⟩ := Option.ne_none_iff_exists'.1 (Ne.symm h.1)
    obtain ⟨lines, rfl⟩ := ih h.2
    exact ⟨text :: lines, by rw [List.map_cons, decodeLine_eq_some_iff.1 htext]⟩

/-- The encodings of texts decode to them. -/
theorem map_decodeLine_utf8Bytes (lines : List (List Char)) :
    (lines.map utf8Bytes).map decodeLine = lines.map some := by
  rw [List.map_map]
  exact List.map_congr_left fun text _ => decodeLine_eq_some_iff.2 rfl

/-- A line that cannot be decoded is a fault. -/
theorem Says.faults_ne_nil (h : Says file n lines faults rules) (hnone : none ∈ lines) :
    faults ≠ [] := by
  intro hnil
  obtain ⟨line, heq, -⟩ := h.faults_eq_nil_iff.1 hnil none hnone
  cases heq

/-- If all lines of a file are valid, then it is loaded like the list of these lines, but the faults
name the file. Otherwise it is refused, with one fault for each line that is not valid and one for
each valid line that is malformed, in line order. -/
theorem Grammar.ofFile_exact (path : String) (bytes : List UInt8) :
    (∃ lines, filePieces bytes = lines.map utf8Bytes ∧
        ofFile path (.ok bytes) = (ofLines lines).mapError (List.map (LocatedFault.inFile path))) ∨
      (∃ texts faults rules, List.Forall₂ Decodes (filePieces bytes) texts ∧ none ∈ texts ∧
        Says path 0 texts faults rules ∧ ofFile path (.ok bytes) = .error faults) := by
  have hfile : ofFile path (.ok bytes) = loadLines path ((filePieces bytes).map decodeLine) :=
    loadLines_textLines path bytes
  by_cases hnone : none ∈ (filePieces bytes).map decodeLine
  · have hread := says_readFrom path 0 ((filePieces bytes).map decodeLine)
    have hdecodes : List.Forall₂ Decodes (filePieces bytes) ((filePieces bytes).map decodeLine) :=
      List.forall₂_map_right_iff.2 (List.forall₂_same.2 fun piece _ => decodes_decodeLine piece)
    refine Or.inr ⟨_, _, _, hdecodes, hnone, hread, ?_⟩
    exact hfile.trans (loadLines_eq_iff.2 (.faulty hread (hread.faults_ne_nil hnone)))
  · obtain ⟨lines, hlines⟩ := exists_map_utf8Bytes hnone
    refine Or.inl ⟨lines, hlines, ?_⟩
    rw [hfile, hlines, map_decodeLine_utf8Bytes, loadLines_inFile]
    rfl

-- a rule, an empty line, a byte that is not valid, and a last line without line feed
example : Grammar.ofFile "g" (.ok [83, 45, 62, 97, 13, 10, 10, 255, 10, 88]) =
    .error [⟨{ file := "g" }, .unreadable .invalidLine⟩,
      ⟨{ file := "g", line := 4 }, .missingArrow⟩] := by
  cbv

end LL1
