/-
# What random words can choose

Among so many candidates, each one has a word that stands for it and is accepted: the least word whose
product with the number of candidates reaches the candidate. So words can be listed that make any choices
in a row.
-/
import LL1.Proofs.Sentence.Choices
import LL1.Sentence.RandomWords

namespace LL1

/-! ## Zones -/

/-- As many remainders are accepted as there are candidates, at least. -/
theorem pred_le_acceptedZone (count : Nat) : count - 1 ≤ acceptedZone count := by
  rw [acceptedZone, Nat.shiftLeft_eq]
  exact Nat.sub_le_sub_right (Nat.le_mul_of_pos_right count (Nat.two_pow_pos _)) 1

/-! ## Words for candidates -/

/-- The least word that stands for a candidate. -/
def wordFor (count index : Nat) : Nat :=
  (index * wordCount + (count - 1)) / count

variable {count : Nat}

/-- The product of the word with the number of candidates lies in the candidate's part, at its lower
end. -/
theorem wordFor_mul_bounds (i : Fin count) : i * wordCount ≤ wordFor count i * count ∧
    wordFor count i * count ≤ i * wordCount + (count - 1) := by
  have hdiv := Nat.div_add_mod' (i * wordCount + (count - 1)) count
  have hmod := Nat.mod_lt (i * wordCount + (count - 1)) i.pos
  rw [wordFor]
  omega

/-- The word is one of the words, if there are no more candidates than words. -/
theorem wordFor_lt (i : Fin count) (hcount : count ≤ wordCount) : wordFor count i < wordCount := by
  obtain ⟨-, hle⟩ := wordFor_mul_bounds i
  have hnext : i * wordCount + wordCount ≤ count * wordCount := by
    rw [← Nat.succ_mul]
    exact Nat.mul_le_mul_right wordCount i.isLt
  refine Nat.lt_of_mul_lt_mul_right (a := count) ?_
  rw [Nat.mul_comm wordCount]
  have := i.pos
  omega

/-- Every candidate has a word that stands for it and is accepted, if there are no more candidates than
words. -/
theorem exists_word (i : Fin count) (hcount : count ≤ wordCount) :
    ∃ v : UInt32, accepts count v = true ∧ candidateOf count i.pos v = i := by
  have hlt := wordFor_lt i hcount
  have hword : (UInt32.ofNat (wordFor count i)).toNat = wordFor count i :=
    UInt32.toNat_ofNat_of_lt' hlt
  obtain ⟨hge, hle⟩ := wordFor_mul_bounds i
  have hzone := pred_le_acceptedZone count
  have hpos := i.pos
  have hwords : 0 < wordCount := by decide
  have hdiv : wordFor count i * count / wordCount = i := by
    rw [Nat.div_eq_iff hwords]
    omega
  refine ⟨UInt32.ofNat (wordFor count i), ?_, Fin.ext ?_⟩
  · rw [accepts, hword, decide_eq_true_eq]
    have hsplit := Nat.div_add_mod (wordFor count i * count) wordCount
    rw [hdiv, Nat.mul_comm] at hsplit
    omega
  · simpa only [candidateOf, hword] using hdiv

namespace RandomWords

/-- A listed word that is accepted makes the choice it stands for. -/
theorem pick_listed {v : UInt32} (hpos : 0 < count) (hv : accepts count v = true)
    (words : List UInt32) (drawn : Nat) :
    chooser.pick ⟨.listed (v :: words), drawn⟩ count hpos =
      (candidateOf count hpos v, ⟨.listed words, drawn + 1⟩) := by
  show pickWithin count hpos (words.length + 1) ⟨.listed (v :: words), drawn⟩ = _
  rw [pickWithin]
  exact if_pos hv

/-- Words can be listed that make the choices in a row, one word for each. -/
theorem exists_makes {choices : List Choice} (hcount : ∀ c ∈ choices, c.count ≤ wordCount)
    (drawn : Nat) : ∃ words, chooser.Makes choices ⟨.listed words, drawn⟩
      ⟨.listed [], drawn + choices.length⟩ := by
  induction choices generalizing drawn with
  | nil => exact ⟨[], .nil _⟩
  | cons c choices ih =>
    rw [List.forall_mem_cons] at hcount
    obtain ⟨v, hv, hcandidate⟩ := exists_word c.index hcount.1
    obtain ⟨words, hwords⟩ := ih hcount.2 (drawn + 1)
    have hfirst := pick_listed c.index.pos hv words drawn
    rw [hcandidate] at hfirst
    refine ⟨v :: words, .cons hfirst ?_⟩
    rwa [List.length_cons, Nat.add_comm choices.length, ← Nat.add_assoc]

end RandomWords

end LL1
