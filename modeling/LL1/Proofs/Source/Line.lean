/-
# What a line says

The reader of lines works from left to right and returns at the first fault. Here the same is said of
the whole line: where its first arrow stands, which rule it spells, and, if it spells none, which
fault it has. A line spells a rule or has a fault, never both, and the reader finds out which.
-/
import LL1.Source.Line

namespace LL1

/-! ## The first arrow -/

/-- The two parts of a line around its first arrow. -/
structure SplitsAt (line before after : List Char) : Prop where
  /-- The line consists of the parts and an arrow between them. -/
  eq_append : line = before ++ '-' :: '>' :: after
  /-- No other arrow starts earlier. -/
  first : ∀ b a, line = b ++ '-' :: '>' :: a → before.length ≤ b.length

/-- A line has no more than one first arrow. -/
theorem SplitsAt.unique {line before after before' after' : List Char}
    (h : SplitsAt line before after) (h' : SplitsAt line before' after') :
    before = before' ∧ after = after' := by
  have hlength : before.length = before'.length :=
    Nat.le_antisymm (h.first _ _ h'.eq_append) (h'.first _ _ h.eq_append)
  obtain ⟨hbefore, hrest⟩ := List.append_inj (h.eq_append.symm.trans h'.eq_append) hlength
  simp only [List.cons.injEq, true_and] at hrest
  exact ⟨hbefore, hrest⟩

/-- The scan finds the first arrow. -/
theorem splitsAt_of_splitAtArrow {line before after : List Char}
    (h : splitAtArrow line = some (before, after)) : SplitsAt line before after where
  eq_append := append_of_splitAtArrow h
  first := by
    fun_induction splitAtArrow line generalizing before after with
    | case1 => cases h
    | case2 rest =>
      cases h
      exact fun b a _ => Nat.zero_le b.length
    | case3 c rest hstart ih =>
      obtain ⟨⟨before, after⟩, hsplit, heq⟩ := Option.map_eq_some_iff.1 h
      cases heq
      intro b a hline
      cases b with
      | nil =>
        -- the line does not start with an arrow, or the scan would have stopped
        obtain ⟨rfl, rfl⟩ := List.cons.inj hline
        exact absurd rfl (hstart a rfl)
      | cons d b =>
        obtain ⟨rfl, hrest⟩ := List.cons.inj hline
        exact Nat.succ_le_succ (ih hsplit b a hrest)

/-- If the scan finds nothing, then there is no arrow. -/
theorem ne_append_of_splitAtArrow {line : List Char} (h : splitAtArrow line = none) :
    ∀ b a, line ≠ b ++ '-' :: '>' :: a := by
  fun_induction splitAtArrow line with
  | case1 => simp
  | case2 rest => cases h
  | case3 c rest hstart ih =>
    intro b a hline
    cases b with
    | nil =>
      obtain ⟨rfl, rfl⟩ := List.cons.inj hline
      exact hstart a rfl rfl
    | cons d b =>
      obtain ⟨rfl, hrest⟩ := List.cons.inj hline
      exact ih (Option.map_eq_none_iff.1 h) b a hrest

/-- The scan returns the parts around the first arrow. -/
theorem splitAtArrow_eq_some_iff {line before after : List Char} :
    splitAtArrow line = some (before, after) ↔ SplitsAt line before after := by
  refine ⟨splitsAt_of_splitAtArrow, fun h => ?_⟩
  cases hsplit : splitAtArrow line with
  | none => exact absurd h.eq_append (ne_append_of_splitAtArrow hsplit before after)
  | some parts =>
    obtain ⟨hbefore, hafter⟩ := h.unique (splitsAt_of_splitAtArrow hsplit)
    rw [hbefore, hafter]

/-- The scan returns nothing if there is no arrow. -/
theorem splitAtArrow_eq_none_iff {line : List Char} :
    splitAtArrow line = none ↔ ∀ b a, line ≠ b ++ '-' :: '>' :: a := by
  refine ⟨ne_append_of_splitAtArrow, fun h => ?_⟩
  cases hsplit : splitAtArrow line with
  | none => rfl
  | some parts => exact absurd (append_of_splitAtArrow hsplit) (h parts.1 parts.2)

/-! ## Heads and right-hand sides -/

/-- A head is a single upper-case symbol. -/
theorem parseHead_eq_ok_iff {text : List Char} {s : Symbol} :
    parseHead text = .ok s ↔ text = [s] ∧ isUppercase s = true := by
  constructor
  · intro h
    unfold parseHead at h
    split at h
    · cases h
    · split at h
      · next hup =>
        cases h
        exact ⟨rfl, hup⟩
      · cases h
    · cases h
  · rintro ⟨rfl, hup⟩
    exact if_pos hup

/-- Nothing is a missing head, and any other text that is not a single upper-case symbol is an
invalid one. -/
theorem parseHead_eq_error_iff {text : List Char} {fault : Fault} :
    parseHead text = .error fault ↔
      (text = [] ∧ fault = .missingHead) ∨
        (text ≠ [] ∧ (∀ s, text = [s] → isUppercase s = false) ∧ fault = .invalidHead text) := by
  constructor
  · intro h
    unfold parseHead at h
    split at h
    · cases h
      exact Or.inl ⟨rfl, rfl⟩
    · next s =>
      split at h
      · cases h
      · next hlow =>
        cases h
        refine Or.inr ⟨List.cons_ne_nil _ _, ?_, rfl⟩
        intro t heq
        obtain rfl := List.singleton_inj.1 heq
        simpa using hlow
    · next hnil hsingle =>
      cases h
      exact Or.inr ⟨hnil, fun t heq => absurd heq (hsingle t), rfl⟩
  · rintro (⟨rfl, rfl⟩ | ⟨hne, hlow, rfl⟩)
    · rfl
    · cases text with
      | nil => exact absurd rfl hne
      | cons s rest =>
        cases rest with
        | nil => exact if_neg (by simp [hlow s rfl])
        | cons t rest => rfl

/-- A right-hand side is any text that is not empty and without end marker. -/
theorem parseBody_eq_ok_iff {text : List Char} {body : Word} :
    parseBody text = .ok body ↔ text = body ∧ body ≠ [] ∧ endMarker ∉ body := by
  constructor
  · intro h
    unfold parseBody at h
    split at h
    · cases h
    · next hne =>
      split at h
      · cases h
      · next hmarker =>
        cases h
        exact ⟨rfl, by simpa using hne, hmarker⟩
  · rintro ⟨rfl, hne, hmarker⟩
    simp [parseBody, hne, hmarker]

/-- Nothing is an empty right-hand side, and the end marker is reserved. -/
theorem parseBody_eq_error_iff {text : List Char} {fault : Fault} :
    parseBody text = .error fault ↔
      (text = [] ∧ fault = .emptyRightHandSide) ∨
        (endMarker ∈ text ∧ fault = .reservedEndMarker) := by
  constructor
  · intro h
    unfold parseBody at h
    split at h
    · next hempty =>
      cases h
      exact Or.inl ⟨by simpa using hempty, rfl⟩
    · split at h
      · next hmarker =>
        cases h
        exact Or.inr ⟨hmarker, rfl⟩
      · cases h
  · rintro (⟨rfl, rfl⟩ | ⟨hmarker, rfl⟩)
    · rfl
    · simp [parseBody, List.ne_nil_of_mem hmarker, hmarker]

/-! ## Rules and faults -/

/-- What the loader has checked about a rule: the head is upper case, and the right-hand side is not
empty and without end marker. -/
structure Rule.Readable (r : Rule) : Prop where
  /-- The head is upper case. -/
  uppercase : isUppercase r.head = true
  /-- The right-hand side is not empty. -/
  body_ne_nil : r.body ≠ []
  /-- The end marker is not used. -/
  endMarker_notMem : endMarker ∉ r.body

/-- A line spells a rule if the head stands before the first arrow, the right-hand side stands after
it, and the rule is readable. -/
structure LineRule (line : List Char) (r : Rule) : Prop where
  /-- The first arrow stands between the head and the right-hand side. -/
  splits : SplitsAt line [r.head] r.body
  /-- The rule is readable. -/
  readable : r.Readable

/-- The fault of a line that spells no rule. Each of the faults takes for granted that the line is
free of those before it. -/
inductive LineFault (line : List Char) : Fault → Prop where
  /-- There is no arrow. -/
  | missingArrow (h : ∀ b a, line ≠ b ++ '-' :: '>' :: a) : LineFault line .missingArrow
  /-- The line starts with its first arrow. -/
  | missingHead {after : List Char} (h : SplitsAt line [] after) : LineFault line .missingHead
  /-- The text before the first arrow is not a single upper-case symbol. -/
  | invalidHead {before after : List Char} (h : SplitsAt line before after) (hne : before ≠ [])
      (hlow : ∀ s, before = [s] → isUppercase s = false) : LineFault line (.invalidHead before)
  /-- The line ends with its first arrow. -/
  | emptyRightHandSide {s : Symbol} (h : SplitsAt line [s] []) (hup : isUppercase s = true) :
      LineFault line .emptyRightHandSide
  /-- The end marker stands after the first arrow. -/
  | reservedEndMarker {s : Symbol} {after : List Char} (h : SplitsAt line [s] after)
      (hup : isUppercase s = true) (hmarker : endMarker ∈ after) :
      LineFault line .reservedEndMarker

/-- The reader returns the rule that the line spells. -/
theorem parseLine_eq_ok_iff {line : List Char} {r : Rule} :
    parseLine line = .ok r ↔ LineRule line r := by
  constructor
  · intro h
    unfold parseLine at h
    split at h
    · cases h
    · next hsplit =>
      split at h
      · cases h
      · next hhead =>
        split at h
        · cases h
        · next hbody =>
          cases h
          obtain ⟨rfl, hup⟩ := parseHead_eq_ok_iff.1 hhead
          obtain ⟨rfl, hne, hmarker⟩ := parseBody_eq_ok_iff.1 hbody
          exact ⟨splitAtArrow_eq_some_iff.1 hsplit, hup, hne, hmarker⟩
  · intro h
    have hsplit := splitAtArrow_eq_some_iff.2 h.splits
    have hhead := parseHead_eq_ok_iff.2 ⟨rfl, h.readable.uppercase⟩
    have hbody := parseBody_eq_ok_iff.2 ⟨rfl, h.readable.body_ne_nil, h.readable.endMarker_notMem⟩
    simp [parseLine, hsplit, hhead, hbody]

/-- The reader returns the fault of the line. -/
theorem parseLine_eq_error_iff {line : List Char} {fault : Fault} :
    parseLine line = .error fault ↔ LineFault line fault := by
  constructor
  · intro h
    unfold parseLine at h
    split at h
    · next hnone =>
      cases h
      exact .missingArrow (splitAtArrow_eq_none_iff.1 hnone)
    · next hsome =>
      have hsplit := splitAtArrow_eq_some_iff.1 hsome
      split at h
      · next hhead =>
        cases h
        obtain ⟨rfl, rfl⟩ | ⟨hne, hlow, rfl⟩ := parseHead_eq_error_iff.1 hhead
        · exact .missingHead hsplit
        · exact .invalidHead hsplit hne hlow
      · next hhead =>
        obtain ⟨rfl, hup⟩ := parseHead_eq_ok_iff.1 hhead
        split at h
        · next hbody =>
          cases h
          obtain ⟨rfl, rfl⟩ | ⟨hmarker, rfl⟩ := parseBody_eq_error_iff.1 hbody
          · exact .emptyRightHandSide hsplit hup
          · exact .reservedEndMarker hsplit hup hmarker
        · cases h
  · intro h
    cases h with
    | missingArrow h => simp [parseLine, splitAtArrow_eq_none_iff.2 h]
    | missingHead h => simp [parseLine, splitAtArrow_eq_some_iff.2 h, parseHead]
    | invalidHead h hne hlow =>
      have hhead := parseHead_eq_error_iff.2 (Or.inr ⟨hne, hlow, rfl⟩)
      simp [parseLine, splitAtArrow_eq_some_iff.2 h, hhead]
    | emptyRightHandSide h hup =>
      simp [parseLine, splitAtArrow_eq_some_iff.2 h, parseHead, hup, parseBody]
    | reservedEndMarker h hup hmarker =>
      have hhead := parseHead_eq_ok_iff.2 ⟨rfl, hup⟩
      have hbody := parseBody_eq_error_iff.2 (Or.inr ⟨hmarker, rfl⟩)
      simp [parseLine, splitAtArrow_eq_some_iff.2 h, hhead, hbody]

/-- A line with a fault spells no rule. -/
theorem LineFault.not_lineRule {line : List Char} {fault : Fault} (h : LineFault line fault)
    (r : Rule) : ¬ LineRule line r := by
  intro hrule
  have hok := parseLine_eq_ok_iff.2 hrule
  rw [parseLine_eq_error_iff.2 h] at hok
  cases hok

/-- A line ends where the right-hand side of its rule ends. -/
theorem LineRule.getLast?_eq {line : List Char} {r : Rule} (h : LineRule line r) :
    line.getLast? = r.body.getLast? := by
  obtain ⟨s, rest, hbody⟩ := List.exists_cons_of_ne_nil h.readable.body_ne_nil
  rw [h.splits.eq_append, hbody, List.singleton_append, List.getLast?_cons_cons,
    List.getLast?_cons_cons, List.getLast?_cons_cons]

end LL1
