/-
# Symbols and words

A grammar symbol is a single character. Upper-case characters name non-terminals, every other
character is a terminal. Two terminals have a meaning of their own: `&` stands for the empty word
inside a right-hand side, and `$` marks the end of the input.
-/
import LL1.Symbol.Uppercase

namespace LL1

/-! ## Symbols -/

/-- A grammar symbol. -/
abbrev Symbol := Char

/-- The symbol that derives nothing. -/
abbrev epsilon : Symbol := '&'

/-- The bottom of the stack and the end of the input. -/
abbrev endMarker : Symbol := '$'

/-- Whether a symbol is a terminal, that is, not an upper-case character. -/
def isTerminal (s : Symbol) : Bool :=
  !isUppercase s

/-- The empty word is written with a terminal. -/
theorem isTerminal_epsilon : isTerminal epsilon = true := by decide

/-- The end of the input is marked with a terminal. -/
theorem isTerminal_endMarker : isTerminal endMarker = true := by decide

/-! ## Words -/

/-- A sequence of symbols. -/
abbrev Word := List Symbol

/-- The word as text. -/
def Word.text (w : Word) : String :=
  String.ofList w

/-- Whether two words agree symbol by symbol. -/
def Word.agrees : Word → Word → Bool
  | [], [] => true
  | s :: v, t :: w => decide (s = t) && Word.agrees v w
  | _, _ => false

/-- Words that agree are equal. -/
theorem Word.agrees_iff {v w : Word} : v.agrees w = true ↔ v = w := by
  induction v generalizing w with
  | nil => cases w <;> simp [Word.agrees]
  | cons s v ih => cases w <;> simp [Word.agrees, ih]

/-- Whether a word is among the words of a list. -/
def Word.isAmong (w : Word) : List Word → Bool
  | [] => false
  | v :: rest => w.agrees v || w.isAmong rest

/-- A word is among the words of a list if it is a member. -/
theorem Word.isAmong_iff {w : Word} {ws : List Word} : w.isAmong ws = true ↔ w ∈ ws := by
  induction ws with
  | nil => simp [Word.isAmong]
  | cons v rest ih => simp [Word.isAmong, Word.agrees_iff, ih]

/-- The word without its epsilons: the sentential form it stands for. -/
def withoutEpsilon (w : Word) : Word :=
  w.filter fun s => s != epsilon

/-- Erasing the epsilons of a concatenation erases them on both sides. -/
theorem withoutEpsilon_append (v w : Word) :
    withoutEpsilon (v ++ w) = withoutEpsilon v ++ withoutEpsilon w := by
  simp [withoutEpsilon]

/-- No epsilon is left over. -/
theorem epsilon_notMem_withoutEpsilon (w : Word) : epsilon ∉ withoutEpsilon w := by
  simp [withoutEpsilon]

/-! ## Sorting words -/

/-- Whether a word comes no later than another one in a dictionary: the first symbols that differ
decide, and a word comes before its continuations. -/
def notAfter : Word → Word → Bool
  | [], _ => true
  | _ :: _, [] => false
  | s :: v, t :: w => if s = t then notAfter v w else decide (s < t)

/-- Inserts a word before the first word of the list that it does not come after. -/
def insertWord (w : Word) : List Word → List Word
  | [] => [w]
  | v :: rest => if notAfter w v then w :: v :: rest else v :: insertWord w rest

/-- The words in dictionary order. -/
def sortWords (ws : List Word) : List Word :=
  ws.foldr insertWord []

/-- Inserting a word adds exactly that word. -/
theorem insertWord_perm (w : Word) (ws : List Word) : (insertWord w ws).Perm (w :: ws) := by
  induction ws with
  | nil => exact List.Perm.refl _
  | cons v rest ih =>
    unfold insertWord
    split
    · exact List.Perm.refl _
    · exact (ih.cons v).trans (List.Perm.swap w v rest)

/-- Sorting only reorders. -/
theorem sortWords_perm (ws : List Word) : (sortWords ws).Perm ws := by
  induction ws with
  | nil => exact List.Perm.refl _
  | cons w rest ih => exact (insertWord_perm w _).trans (ih.cons w)

/-- Of two words, one comes no later than the other. -/
theorem notAfter_total (v w : Word) : notAfter v w = true ∨ notAfter w v = true := by
  fun_induction notAfter v w with
  | case1 w => exact Or.inl rfl
  | case2 s v => exact Or.inr rfl
  | case3 v t w ih => simpa [notAfter] using ih
  | case4 s v t w h => grind [notAfter]

/-- Coming no later is transitive. -/
theorem notAfter_trans {u v w : Word} (huv : notAfter u v = true) (hvw : notAfter v w = true) :
    notAfter u w = true := by
  induction u generalizing v w with
  | nil => rfl
  | cons s u ih =>
    cases v with
    | nil => cases huv
    | cons t v =>
      cases w with
      | nil => cases hvw
      | cons r w =>
        simp only [notAfter] at huv hvw ⊢
        grind

/-- Inserting into an ordered list keeps it ordered. -/
theorem insertWord_pairwise (w : Word) {ws : List Word}
    (h : ws.Pairwise fun u v => notAfter u v = true) :
    (insertWord w ws).Pairwise fun u v => notAfter u v = true := by
  induction h with
  | nil => simp [insertWord]
  | @cons v rest hv hrest ih =>
    unfold insertWord
    split
    · next hw =>
      refine List.pairwise_cons.2 ⟨?_, List.pairwise_cons.2 ⟨hv, hrest⟩⟩
      intro u hu
      rcases List.mem_cons.1 hu with rfl | hu
      · exact hw
      · exact notAfter_trans hw (hv u hu)
    · next hw =>
      refine List.pairwise_cons.2 ⟨?_, ih⟩
      intro u hu
      rcases List.mem_cons.1 ((insertWord_perm w rest).mem_iff.1 hu) with rfl | hu
      · exact (notAfter_total v u).resolve_right hw
      · exact hv u hu

/-- Sorting puts the words in order. -/
theorem sortWords_pairwise (ws : List Word) :
    (sortWords ws).Pairwise fun v w => notAfter v w = true := by
  induction ws with
  | nil => exact List.Pairwise.nil
  | cons w rest ih => exact insertWord_pairwise w ih

end LL1
