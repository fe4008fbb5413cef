/-
# Choosing by random words

Random choices are made by drawing words of 32 bits. A word `v` stands for the candidate
`v * count / 2 ^ 32`, and it is refused if that would favour a candidate: what the product leaves
below `2 ^ 32` has to lie in a zone that is a multiple of `count` long. The words are either listed
beforehand or the ChaCha stream of a seed.
-/
import LL1.Sentence.ChaCha
import LL1.Sentence.Growth

namespace LL1

/-! ## Words -/

/-- Where random words come from. -/
inductive WordSource where
  /-- A list of words, followed by zeros for ever. -/
  | listed (words : List UInt32)
  /-- A ChaCha stream: its key, the counter of the next block, and what is left of this block. -/
  | stream (key : List UInt32) (counter : UInt64) (rest : List UInt32)
  deriving DecidableEq, Repr

namespace WordSource

/-- The stream of a seed. -/
def ofSeed (seed : UInt64) : WordSource :=
  .stream (chaChaKey seed) 0 []

/-- The next word. -/
def next : WordSource → UInt32 × WordSource
  | .listed [] => (0, .listed [])
  | .listed (v :: words) => (v, .listed words)
  | .stream key counter (v :: rest) => (v, .stream key counter rest)
  | .stream key counter [] =>
    match chaChaBlock key counter with
    | [] => (0, .stream key (counter + 1) [])
    | v :: rest => (v, .stream key (counter + 1) rest)

/-- How many words can be refused in a row. A zero never is, so a list bounds the refusals by its
length. The words of a stream are refused with a chance below one half each, so more refusals than
this are not met. -/
def patience : WordSource → Nat
  | .listed words => words.length
  | .stream _ _ _ => 4096

end WordSource

/-- A source of random words, and how many were drawn from it. -/
structure RandomWords where
  /-- Where the words come from. -/
  source : WordSource
  /-- The number of words drawn so far. -/
  drawn : Nat := 0
  deriving DecidableEq, Repr

/-! ## Indices -/

/-- The number of words of 32 bits. -/
def wordCount : Nat := 4294967296

/-- The largest remainder that is accepted when there are `count` candidates: one less than `count`
shifted to the left as far as 32 bits allow. -/
def acceptedZone (count : Nat) : Nat :=
  (count <<< (31 - count.log2)) - 1

/-- Whether a word is accepted when there are `count` candidates. -/
def accepts (count : Nat) (v : UInt32) : Bool :=
  decide (v.toNat * count % wordCount ≤ acceptedZone count)

/-- The candidate that a word stands for. -/
def candidateOf (count : Nat) (some_candidate : 0 < count) (v : UInt32) : Fin count :=
  ⟨v.toNat * count / wordCount, by
    have hv : v.toNat < wordCount := v.toNat_lt
    exact Nat.div_lt_of_lt_mul (Nat.mul_lt_mul_of_pos_right hv some_candidate)⟩

/-- A zero is accepted whatever the number of candidates. -/
theorem accepts_zero (count : Nat) : accepts count 0 = true := by
  simp [accepts]

namespace RandomWords

/-- Draws a word. -/
def next (r : RandomWords) : UInt32 × RandomWords :=
  (r.source.next.1, ⟨r.source.next.2, r.drawn + 1⟩)

/-- Draws words until one is accepted. After as many refusals as allowed the next word has to do. -/
def pickWithin (count : Nat) (some_candidate : 0 < count) :
    (refusals : Nat) → RandomWords → Fin count × RandomWords
  | 0, r => (candidateOf count some_candidate r.next.1, r.next.2)
  | refusals + 1, r =>
    if accepts count r.next.1 then (candidateOf count some_candidate r.next.1, r.next.2)
    else pickWithin count some_candidate refusals r.next.2

/-- Chooses one of `count` candidates. -/
def pick (r : RandomWords) (count : Nat) (some_candidate : 0 < count) :
    Fin count × RandomWords :=
  pickWithin count some_candidate r.source.patience r

/-- Random words as a way to choose. -/
def chooser : Chooser RandomWords :=
  ⟨pick⟩

end RandomWords

end LL1
