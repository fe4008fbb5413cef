/-
# White space

The Unicode property `White_Space`. It decides which lines of a grammar file are blank, and what is
trimmed from the right end of a line of a table.
-/
namespace LL1

/-! ## The property `White_Space` -/

/-- Whether a character has the property `White_Space`. -/
def isBlank (c : Char) : Bool :=
  let code := c.toNat
  decide (0x09 ≤ code ∧ code ≤ 0x0D) || decide (code = 0x20) || decide (code = 0x85) ||
    decide (code = 0xA0) || decide (code = 0x1680) || decide (0x2000 ≤ code ∧ code ≤ 0x200A) ||
    decide (code = 0x2028) || decide (code = 0x2029) || decide (code = 0x202F) ||
    decide (code = 0x205F) || decide (code = 0x3000)

/-- Whether a line holds nothing but white space. -/
def isBlankLine (line : List Char) : Bool :=
  line.all isBlank

/-! ## Trimming from the right -/

/-- The list without the longest suffix whose members all satisfy `p`. -/
def dropTrailing (p : Char → Bool) : List Char → List Char
  | [] => []
  | c :: rest =>
    match dropTrailing p rest with
    | [] => if p c then [] else [c]
    | d :: more => c :: d :: more

/-- The line without the white space at its end. -/
def trimEnd (line : List Char) : List Char :=
  dropTrailing isBlank line

/-- What is dropped is a suffix, and all of it satisfies `p`. -/
theorem exists_suffix_dropTrailing (p : Char → Bool) (l : List Char) :
    ∃ t, l = dropTrailing p l ++ t ∧ ∀ c ∈ t, p c = true := by
  induction l with
  | nil => exact ⟨[], rfl, by simp⟩
  | cons c rest ih =>
    obtain ⟨t, hrest, ht⟩ := ih
    unfold dropTrailing
    split
    · next hnil =>
      rw [hnil] at hrest
      split
      · next hc =>
        refine ⟨c :: t, by rw [hrest]; rfl, ?_⟩
        intro d hd
        rcases List.mem_cons.1 hd with rfl | hd
        · exact hc
        · exact ht d hd
      · exact ⟨t, by rw [hrest]; rfl, ht⟩
    · next d more hcons =>
      rw [hcons] at hrest
      exact ⟨t, by rw [hrest]; rfl, ht⟩

/-- What is left does not end in a character that satisfies `p`. -/
theorem getLast?_dropTrailing (p : Char → Bool) (l : List Char) (c : Char)
    (h : (dropTrailing p l).getLast? = some c) : p c = false := by
  induction l with
  | nil => simp [dropTrailing] at h
  | cons d rest ih =>
    unfold dropTrailing at h
    split at h
    · split at h
      · simp at h
      · next hd =>
        simp only [List.getLast?_singleton, Option.some.injEq] at h
        subst h
        simpa using hd
    · next e more hcons =>
      rw [List.getLast?_cons_cons, ← hcons] at h
      exact ih h

end LL1
