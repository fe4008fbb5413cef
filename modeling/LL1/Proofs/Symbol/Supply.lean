/-
# Fresh symbols

The table of upper-case code points lists them in ascending order and without gaps in the encoding,
so the symbols of a supply are upper case and all different.
-/
import LL1.Symbol.Supply

namespace LL1

/-! ## Code points and their characters -/

/-- A code point that is one of a character is that of its character. -/
theorem toNat_ofNat {code : Nat} (h : code.isValidChar) : (Char.ofNat code).toNat = code := by
  rw [Char.ofNat, dif_pos h]
  rfl

/-- The characters of ascending code points come in ascending order. -/
theorem pairwise_map_ofNat {codes : List Nat} (hvalid : ∀ code ∈ codes, code.isValidChar)
    (h : codes.Pairwise (· < ·)) : (codes.map Char.ofNat).Pairwise (· < ·) := by
  refine List.pairwise_map.2 (h.imp_of_mem fun {c d} hc hd hcd => ?_)
  show (Char.ofNat c).toNat < (Char.ofNat d).toNat
  rwa [toNat_ofNat (hvalid c hc), toNat_ofNat (hvalid d hd)]

/-! ## Ranges of code points -/

namespace CodeRange

/-- What the table promises about a range: it is not empty, it has a step, and all its code points
are characters. -/
structure Proper (r : CodeRange) : Prop where
  /-- The range is not empty. -/
  first_le_last : r.first ≤ r.last
  /-- The step leads on. -/
  step_pos : 0 < r.step
  /-- No code point is a surrogate or too large. -/
  valid : r.last < 0xD800 ∨ 0xDFFF < r.first ∧ r.last < 0x110000

theorem mem_codes {r : CodeRange} {code : Nat} :
    code ∈ r.codes ↔ ∃ i ≤ (r.last - r.first) / r.step, r.first + i * r.step = code := by
  simp only [codes, List.mem_map, List.mem_range, Nat.lt_succ_iff]

/-- What belongs to a range is one of its code points. -/
theorem mem_codes_of_contains {r : CodeRange} {code : Nat} (hc : r.contains code = true) :
    code ∈ r.codes := by
  simp only [contains, Bool.and_eq_true, decide_eq_true_eq] at hc
  obtain ⟨⟨hfirst, hlast⟩, hstep⟩ := hc
  have hcode : (code - r.first) / r.step * r.step = code - r.first :=
    Nat.div_mul_cancel (Nat.dvd_of_mod_eq_zero hstep)
  refine mem_codes.2 ⟨(code - r.first) / r.step, Nat.div_le_div_right (by omega), ?_⟩
  omega

/-- The code points of a range are within its bounds. -/
theorem Proper.le_of_mem_codes {r : CodeRange} (h : r.Proper) {code : Nat} (hc : code ∈ r.codes) :
    r.first ≤ code ∧ code ≤ r.last := by
  obtain ⟨i, hi, rfl⟩ := mem_codes.1 hc
  have hle : i * r.step ≤ r.last - r.first := (Nat.le_div_iff_mul_le h.step_pos).1 hi
  have hbounds := h.first_le_last
  omega

/-- The code points of a range belong to it. -/
theorem Proper.contains_of_mem_codes {r : CodeRange} (h : r.Proper) {code : Nat}
    (hc : code ∈ r.codes) : r.contains code = true := by
  have hbounds := h.le_of_mem_codes hc
  obtain ⟨i, -, rfl⟩ := mem_codes.1 hc
  simp [contains, hbounds]

/-- The code points of a range are those of characters. -/
theorem Proper.isValidChar_of_mem_codes {r : CodeRange} (h : r.Proper) {code : Nat}
    (hc : code ∈ r.codes) : code.isValidChar := by
  have hbounds := h.le_of_mem_codes hc
  rcases h.valid with hlow | ⟨hhigh, hlast⟩
  · exact Or.inl (by omega)
  · exact Or.inr ⟨by omega, by omega⟩

/-- The code points of a range come in ascending order. -/
theorem Proper.pairwise_codes {r : CodeRange} (h : r.Proper) : r.codes.Pairwise (· < ·) := by
  refine List.pairwise_map.2 (List.pairwise_lt_range.imp fun {i j} hij => ?_)
  have hmul : i * r.step < j * r.step := Nat.mul_lt_mul_of_pos_right hij h.step_pos
  omega

end CodeRange

/-! ## Upper-case characters -/

theorem proper_of_mem_uppercaseRanges : ∀ r ∈ uppercaseRanges, r.Proper := by
  have hdec : ∀ r ∈ uppercaseRanges, r.first ≤ r.last ∧ 0 < r.step ∧
      (r.last < 0xD800 ∨ 0xDFFF < r.first ∧ r.last < 0x110000) := by decide +kernel
  exact fun r hr => ⟨(hdec r hr).1, (hdec r hr).2.1, (hdec r hr).2.2⟩

/-- The upper-case characters are upper case. -/
theorem isUppercase_of_mem_uppercaseCharacters {c : Char} (h : c ∈ uppercaseCharacters) :
    isUppercase c = true := by
  obtain ⟨code, hcode, rfl⟩ := List.mem_map.1 h
  obtain ⟨r, hr, hcode⟩ := List.mem_flatMap.1 hcode
  have hproper := proper_of_mem_uppercaseRanges r hr
  refine List.any_eq_true.2 ⟨r, hr, ?_⟩
  rw [toNat_ofNat (hproper.isValidChar_of_mem_codes hcode)]
  exact hproper.contains_of_mem_codes hcode

/-- All characters that are upper case are listed. -/
theorem mem_uppercaseCharacters {c : Char} : c ∈ uppercaseCharacters ↔ isUppercase c = true := by
  refine ⟨isUppercase_of_mem_uppercaseCharacters, fun h => ?_⟩
  obtain ⟨r, hr, hcontains⟩ := List.any_eq_true.1 h
  have hcode := CodeRange.mem_codes_of_contains hcontains
  exact List.mem_map.2 ⟨c.toNat, List.mem_flatMap.2 ⟨r, hr, hcode⟩, Char.ofNat_toNat c⟩

/-- The upper-case code points come in ascending order. -/
theorem pairwise_uppercaseCodes : (uppercaseRanges.flatMap CodeRange.codes).Pairwise (· < ·) := by
  have hranges : uppercaseRanges.Pairwise fun r s => r.last < s.first := by decide +kernel
  refine List.pairwise_flatMap.2 ⟨fun r hr => (proper_of_mem_uppercaseRanges r hr).pairwise_codes, ?_⟩
  refine List.Pairwise.imp_of_mem (fun {r s} hr hs hrs c hc d hd => ?_) hranges
  have hc := ((proper_of_mem_uppercaseRanges r hr).le_of_mem_codes hc).2
  have hd := ((proper_of_mem_uppercaseRanges s hs).le_of_mem_codes hd).1
  omega

/-- The upper-case characters come in ascending order. -/
theorem pairwise_uppercaseCharacters : uppercaseCharacters.Pairwise (· < ·) := by
  refine pairwise_map_ofNat (fun code hcode => ?_) pairwise_uppercaseCodes
  obtain ⟨r, hr, hcode⟩ := List.mem_flatMap.1 hcode
  exact (proper_of_mem_uppercaseRanges r hr).isValidChar_of_mem_codes hcode

/-- No upper-case character is listed twice. -/
theorem nodup_uppercaseCharacters : uppercaseCharacters.Nodup :=
  pairwise_uppercaseCharacters.imp fun h => Char.ne_of_lt h

/-! ## The supply -/

/-- The symbols of a supply are upper case. -/
theorem isUppercase_of_mem_outside {used : List Symbol} {s : Symbol}
    (h : s ∈ Supply.outside used) : isUppercase s = true :=
  isUppercase_of_mem_uppercaseCharacters (mem_outside.1 h).1

/-- No symbol is supplied twice. -/
theorem nodup_outside (used : List Symbol) : (Supply.outside used).Nodup :=
  nodup_uppercaseCharacters.filter _

end LL1
