/-
# The ChaCha stream of a seed

Seeded sentences are chosen by the ChaCha stream cipher with twelve rounds. A seed of 64 bits is
expanded to a key of eight words by a congruential generator whose states are mixed and rotated.
The stream is the sequence of the words of the blocks with counters 0, 1, 2 and so on.
-/
namespace LL1

/-! ## The key -/

/-- The next state of the generator that expands a seed. -/
def seedStep (state : UInt64) : UInt64 :=
  state * 6364136223846793005 + 11634580027462260723

/-- The word, rotated to the right by a number of places below 32. -/
def rotateRight (x places : UInt32) : UInt32 :=
  if places = 0 then x else (x >>> places) ||| (x <<< (32 - places))

/-- The word, rotated to the left by a number of places from 1 to 32. -/
def rotateLeft (x places : UInt32) : UInt32 :=
  rotateRight x (32 - places)

/-- The word that a state of the generator yields. -/
def seedWord (state : UInt64) : UInt32 :=
  rotateRight (((state >>> 18) ^^^ state) >>> 27).toUInt32 (state >>> 59).toUInt32

/-- The states of the generator after one step, two steps and so on. -/
def seedStates : (count : Nat) → UInt64 → List UInt64
  | 0, _ => []
  | count + 1, state => seedStep state :: seedStates count (seedStep state)

/-- The key of a seed: eight words. -/
def chaChaKey (seed : UInt64) : List UInt32 :=
  (seedStates 8 seed).map seedWord

/-! ## Blocks -/

/-- The sixteen words that a block is computed in. -/
abbrev ChaChaState := Vector UInt32 16

/-- Mixes four of the words. -/
def quarterRound (v : ChaChaState) (a b c d : Fin 16) : ChaChaState :=
  let v := v.set a (v[a] + v[b])
  let v := v.set d (rotateLeft (v[d] ^^^ v[a]) 16)
  let v := v.set c (v[c] + v[d])
  let v := v.set b (rotateLeft (v[b] ^^^ v[c]) 12)
  let v := v.set a (v[a] + v[b])
  let v := v.set d (rotateLeft (v[d] ^^^ v[a]) 8)
  let v := v.set c (v[c] + v[d])
  v.set b (rotateLeft (v[b] ^^^ v[c]) 7)

/-- Two rounds: the columns, and then the diagonals. -/
def doubleRound (v : ChaChaState) : ChaChaState :=
  let v := quarterRound v 0 4 8 12
  let v := quarterRound v 1 5 9 13
  let v := quarterRound v 2 6 10 14
  let v := quarterRound v 3 7 11 15
  let v := quarterRound v 0 5 10 15
  let v := quarterRound v 1 6 11 12
  let v := quarterRound v 2 7 8 13
  quarterRound v 3 4 9 14

/-- A number of double rounds. -/
def doubleRounds : (count : Nat) → ChaChaState → ChaChaState
  | 0, v => v
  | count + 1, v => doubleRounds count (doubleRound v)

/-- The words of the block with the given counter. -/
def chaChaBlock (key : List UInt32) (counter : UInt64) : List UInt32 :=
  let constants : List UInt32 := [0x61707865, 0x3320646e, 0x79622d32, 0x6b206574]
  let words := constants ++ key ++ [counter.toUInt32, (counter >>> 32).toUInt32, 0, 0]
  let start : ChaChaState := Vector.ofFn fun i => words.getD i 0
  (doubleRounds 6 start).toList.zipWith (fun x y => x + y) start.toList

end LL1
